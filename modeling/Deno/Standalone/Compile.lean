import Deno.Standalone.Binary
import Deno.Standalone.Builder

/-!
# Files read back from a compiled program

The files that a builder collected are looked up in the directory of the compiled program and read
from its executable, by one call of `read` each.
-/

namespace Deno

open Core List

/-! ### A file in the executable -/

section

variable {vfs : FileBackedVfs} {file : VirtualFile} {data behind : Bytes} {p : ℕ}

/-- A file whose content stands in the executable, with the given bytes behind it. -/
structure Embedded (vfs : FileBackedVfs) (file : VirtualFile) (data behind : Bytes) : Prop where
  len : file.len = data.length
  position : ∃ before, vfs.file = before ++ (data ++ behind) ∧
    before.length = vfs.fsRoot.startFileOffset + file.offset
  trailer : trailerSize ≤ behind.length
  size : vfs.file.length < 2 ^ 63

/-- A read takes what it can from the content and the bytes behind it. -/
lemma Embedded.readFile (h : Embedded vfs file data behind) (hp : p ≤ data.length) (n : ℕ) :
    vfs.readFile file p n = .ok (((data ++ behind).drop p).take (min n readLimit)) := by
  obtain ⟨before, hfile, hbefore⟩ := h.position
  have hsize := h.size
  rw [hfile, length_append, length_append] at hsize
  have hstart : (vfs.fsRoot.startFileOffset + file.offset + p) % 2 ^ 64 = before.length + p := by
    rw [← hbefore]
    exact Nat.mod_eq_of_lt (by omega)
  rw [FileBackedVfs.readFile, hstart, if_pos (by omega), hfile, drop_length_add_append]

/-- A buffer for the rest of the content gets as much of it as one read transfers. -/
lemma Embedded.readIntoZeros (h : Embedded vfs file data behind) (hp : p ≤ data.length) :
    vfs.readIntoZeros file p (data.length - p) = .ok ((data.drop p).take readLimit ++
        List.replicate ((data.drop p).length - readLimit) 0) := by
  have htake : ((data ++ behind).drop p).take (min (data.length - p) readLimit) =
      (data.drop p).take readLimit := by
    rw [drop_append_of_le_length hp, take_append_of_le_length, ← length_drop,
      Nat.min_comm, ← take_take, take_length]
    rw [length_drop]
    exact Nat.min_le_left _ _
  have hrest : data.length - p - ((data.drop p).take readLimit).length =
      (data.drop p).length - readLimit := by
    rw [length_take, length_drop]
    omega
  rw [FileBackedVfs.readIntoZeros, h.readFile hp, htake]
  exact congrArg (fun n => Except.ok (_ ++ List.replicate n 0)) hrest

/-- Zeros in place of what was not read make no difference if there were zeros. -/
lemma take_append_zeros_eq_iff (bytes : Bytes) (n : ℕ) :
    bytes.take n ++ List.replicate (bytes.length - n) 0 = bytes ↔ ∀ b ∈ bytes.drop n, b = 0 := by
  conv_lhs => rhs; rw [← take_append_drop n bytes]
  rw [append_cancel_left_eq, ← length_drop, eq_comm, eq_replicate_iff]
  exact and_iff_right rfl

/-- The rest of a content is read if what one read leaves out is zero. -/
lemma Embedded.readIntoZeros_eq_iff (h : Embedded vfs file data behind) (hp : p ≤ data.length) :
    vfs.readIntoZeros file p (data.length - p) = .ok (data.drop p) ↔
      ∀ b ∈ data.drop (p + readLimit), b = 0 := by
  rw [h.readIntoZeros hp, Except.ok.injEq, take_append_zeros_eq_iff, drop_drop]

lemma Embedded.readFileAll_eq_iff (h : Embedded vfs file data behind) :
    vfs.readFileAll file = .ok data ↔ ∀ b ∈ data.drop readLimit, b = 0 := by
  have := h.readIntoZeros_eq_iff (Nat.zero_le _)
  rwa [← h.len] at this

end

/-! ### Looking a file up -/

lemma VfsEntry.eq_file_of_shape {entry : VfsEntry} {f : VirtualFile}
    (h : entry.shape = .file f) : entry = .file f := by
  cases entry with
  | dir _ _ => cases h
  | file _ => cases h; rfl
  | symlink _ => cases h

/-- A file of the directory is found, and no symlink is followed on the way. -/
lemma FileBackedVfs.fileEntry_of_shapeAt (vfs : FileBackedVfs) (rel : Path) {f : VirtualFile}
    (hordered : Ordered vfs.fsRoot.dir.entries) (hrel : ∀ c ∈ rel.comps, c ≠ .rootDir ∧ c ≠ .curDir)
    (hat : shapeAt vfs.fsRoot.dir.entries (componentNames rel) = some (.file f)) (depth : ℕ) :
    vfs.fileEntry (depth + 1) (vfs.fsRoot.rootPath.join rel) = .ok f := by
  obtain ⟨path, entry, hwalk, hentry⟩ :=
    vfs.fsRoot.walk_of_shapeAt (vfs.fsRoot.findEntryInner depth) hordered hat
      vfs.fsRoot.rootPath vfs.fsRoot.dir.name []
  obtain rfl := VfsEntry.eq_file_of_shape hentry
  have hnoFollow : vfs.fsRoot.findEntryNoFollowInner (vfs.fsRoot.findEntryInner depth)
      (vfs.fsRoot.rootPath.join rel) [] = .ok ⟨path, .file f, []⟩ := by
    rw [VfsRoot.findEntryNoFollowInner, Path.stripPrefix_of_eq_append (Path.comps_join _ hrel)]
    exact hwalk
  rw [fileEntry, VfsRoot.findEntry, VfsRoot.findEntryInner, hnoFollow]
  rfl

/-! ### Compiled programs -/

section

variable {κ : Type} [DecidableEq κ] {gen : Bytes → κ} {root : Path} {ops : List VfsOp}
variable {b : VfsBuilder κ}

/-- The program with its directory opened at a root. -/
def openedAt (exe : Bytes) (t : Trailer) (dir : VirtualDirectory) (root : Path) (name : String) :
    FileBackedVfs :=
  ⟨exe, ⟨{ dir with name := name }, root, t.npmFilesPos⟩⟩

lemma comps_ne_nil_of_buildVfs (h : buildVfs gen root ops = .ok b) : root.comps ≠ [] := by
  obtain ⟨b₀, hb₀, -⟩ := bind_eq_ok.mp h
  obtain ⟨name, hname, -⟩ := bind_eq_ok.mp hb₀
  rw [unwrapOption_eq_ok, Path.fileStem, Option.map_eq_some_iff] at hname
  obtain ⟨fileName, hfileName, -⟩ := hname
  obtain ⟨init, hinit⟩ := Path.eq_append_of_fileName hfileName
  rw [hinit]
  exact append_ne_nil_of_right_ne_nil _ (cons_ne_nil _ _)

/-- Every file that was added is found in the opened directory and stands in the executable. -/
theorem embedded_of_buildVfs (hgen : Function.Injective gen) (h : buildVfs gen root ops = .ok b)
    {exe before : Bytes} {t : Trailer} (hexe : exe = before ++ b.files.flatten ++ t.asBytes)
    (hbefore : before.length = t.npmFilesPos) (hsize : exe.length < 2 ^ 63) {path : Path}
    {data : Bytes} (hop : .addFile path data ∈ ops) (newRoot : Path) (name : String) :
    ∃ rel f behind, path.stripPrefix root = some rel ∧
      (∀ depth, (openedAt exe t b.rootDir newRoot name).fileEntry (depth + 1) (newRoot.join rel) =
        .ok f) ∧ Embedded (openedAt exe t b.rootDir newRoot name) f data behind := by
  have hbuilt := built_of_buildVfs hgen h
  obtain ⟨hstrip, shape, hat, f, rfl, hlen, contents, after, hcontents, hoffset⟩ :=
    hbuilt.added _ hop
  obtain ⟨rel, hrel⟩ := Option.isSome_iff_exists.mp hstrip
  rw [place_of_stripPrefix hrel] at hat
  refine ⟨rel, f, after ++ t.asBytes, hrel, fun depth => ?_, hlen, ⟨before ++ contents, ?_, ?_⟩, ?_,
    hsize⟩
  · exact (openedAt exe t b.rootDir newRoot name).fileEntry_of_shapeAt rel hbuilt.ordered
      (Path.ne_of_mem_stripPrefix hrel (comps_ne_nil_of_buildVfs h)) hat depth
  · rw [openedAt, hexe, hcontents]
    simp
  · rw [length_append, hoffset, hbefore]
    rfl
  · rw [length_append, t.length_asBytes]
    exact Nat.le_add_left _ _

lemma loadNpmVfs_eq_openedAt {fromJson : Bytes → Except AnyError VirtualDirectory}
    {exe vfsData : Bytes} {t : Trailer} {dir : VirtualDirectory} {newRoot : Path} {name : String}
    (htrailer : readTrailer exe = .ok (some t))
    (hvfs : readExact exe t.npmVfsPos t.npmVfsLen = .ok vfsData)
    (hjson : fromJson vfsData = .ok dir) (hname : newRoot.fileName = some name) :
    loadNpmVfs fromJson exe newRoot = .ok (openedAt exe t dir newRoot name) := by
  rw [loadNpmVfs, htrailer]
  simp only [bind, Except.bind, unwrapOption, hvfs, hjson, hname]
  rfl

/-- What `deno compile` embeds. The parts of the executable and the entries of every directory are
read back as they were written; the content of a file is if it fits into one read, or what does
not is zero. -/
theorem compiled_files_read_back (hgen : Function.Injective gen)
    (hbuild : buildVfs gen root ops = .ok b) (toJson : Option VirtualDirectory → Bytes)
    (fromJson : Bytes → Except AnyError VirtualDirectory)
    (hjson : fromJson (toJson (some b.rootDir)) = .ok b.rootDir)
    {originalBin metadata eszip exe : Bytes}
    (hwrite : writeBinaryBytes toJson originalBin metadata eszip (some b.rootDir) b.files =
      .ok exe) :
    ∃ t, readTrailer exe = .ok (some t) ∧ readMetadata exe t = metadata ∧
      readExact exe t.npmVfsPos t.npmVfsLen = .ok (toJson (some b.rootDir)) ∧
      (∀ names sub, subdir b.rootDir.entries names = some sub → sub.Pairwise (·.name < ·.name) ∧
        ∀ x, (∃ e ∈ sub, e.name = x) ↔ ∃ op ∈ ops, names ++ [x] <+: place root op.path) ∧
      (∀ path, .addDir path ∈ ops → shapeAt b.rootDir.entries (place root path) = some .dir) ∧
      (∀ path target, .addSymlink path target ∈ ops → ∃ name,
        shapeAt b.rootDir.entries (place root path) = some (.symlink ⟨name, place root target⟩)) ∧
      ∀ newRoot name, (newRoot.fileName = some name →
          loadNpmVfs fromJson exe newRoot = .ok (openedAt exe t b.rootDir newRoot name)) ∧
        ∀ path data, .addFile path data ∈ ops → ∃ rel f, path.stripPrefix root = some rel ∧
          (∀ depth, (openedAt exe t b.rootDir newRoot name).fileEntry (depth + 1)
            (newRoot.join rel) = .ok f) ∧
          ((openedAt exe t b.rootDir newRoot name).readFileAll f = .ok data ↔
            ∀ byte ∈ data.drop readLimit, byte = 0) := by
  have hbuilt := built_of_buildVfs hgen hbuild
  obtain ⟨t, htrailer, hmetadata, hvfs, hsize, before, hexe, hbefore⟩ :=
    writeBinaryBytes_spec hwrite
  refine ⟨t, htrailer, hmetadata, hvfs, fun names sub hsub => ⟨hbuilt.ordered names sub hsub,
    fun x => ?_⟩, fun path hop => ?_, fun path target hop => ?_, fun newRoot name => ⟨fun hname => ?_,
    fun path data hop => ?_⟩⟩
  · rw [← isSome_shapeAt_append hsub, hbuilt.present]
    exact or_iff_right (append_ne_nil_of_right_ne_nil _ (cons_ne_nil _ _))
  · obtain ⟨-, shape, hat, rfl⟩ := hbuilt.added _ hop
    exact hat
  · obtain ⟨-, shape, hat, name, rfl⟩ := hbuilt.added _ hop
    exact ⟨name, hat⟩
  · exact loadNpmVfs_eq_openedAt htrailer hvfs hjson hname
  · obtain ⟨rel, f, behind, hrel, hentry, hembedded⟩ :=
      embedded_of_buildVfs hgen hbuild hexe hbefore hsize hop newRoot name
    exact ⟨rel, f, hrel, hentry, hembedded.readFileAll_eq_iff⟩

end

lemma injective_update {α β : Type*} [DecidableEq α] {f : α → β} (hf : Function.Injective f) (a : α)
    {v : β} (hv : ∀ x, f x ≠ v) : Function.Injective (Function.update f a v) := by
  intro x y h
  by_cases hx : x = a <;> by_cases hy : y = a
  · rw [hx, hy]
  · rw [hx, Function.update_self, Function.update_of_ne hy] at h
    exact absurd h.symm (hv y)
  · rw [hy, Function.update_self, Function.update_of_ne hx] at h
    exact absurd h (hv x)
  · rw [Function.update_of_ne hx, Function.update_of_ne hy] at h
    exact hf h

def checksumOf (content : Bytes) (checksum : String) : Bytes → Bytes ⊕ String :=
  Function.update .inl content (.inr checksum)

lemma injective_checksumOf (content : Bytes) (checksum : String) :
    Function.Injective (checksumOf content checksum) :=
  injective_update (fun _ _ => Sum.inl.inj) content fun _ => Sum.inl_ne_inr

def textBytes (text : String) : Bytes := text.toUTF8.data.toList

/-- What is written for a directory `r` with one file `a`. -/
def oneFileJson (len : ℕ) : Bytes :=
  textBytes ("\x7b\"name\":\"r\",\"entries\":[\x7b\"File\":\x7b\"name\":\"a\",\"offset\":0,\"len\":" ++
    toString len ++ "\x7d\x7d]\x7d")

/-- A program with one file can be built and written, unless the file is too large for any. -/
lemma exists_compiled_of_one_file (data : Bytes) (hsize : data.length < 2 ^ 62) (checksum : String)
    (json : Bytes) (hjson : json.length < 2 ^ 60) :
    ∃ b exe, buildVfs (checksumOf data checksum) (.ofString "/r")
        [.addFile (.ofString "/r/a") data] = .ok b ∧
      b.rootDir = ⟨"r", [.file ⟨"a", 0, data.length⟩]⟩ ∧
      writeBinaryBytes (fun _ => json) [] [] [] (some b.rootDir) b.files = .ok exe := by
  obtain ⟨b, hb, hdir, hfiles⟩ : ∃ b, buildVfs (checksumOf data checksum) (.ofString "/r")
      [.addFile (.ofString "/r/a") data] = .ok b ∧
      b.rootDir = ⟨"r", [.file ⟨"a", 0, data.length⟩]⟩ ∧ b.files = [data] := ⟨_, rfl, rfl, rfl⟩
  obtain ⟨exe, hexe⟩ : ∃ exe, writeBinaryBytes (fun _ => json) [] [] [] (some b.rootDir) b.files =
      .ok exe := by
    refine exists_writeBinaryBytes ?_
    rw [hfiles, flatten_singleton]
    simp only [length_nil, trailerSize]
    omega
  exact ⟨b, exe, hb, hdir, hexe⟩

/-- A directory with two files, and a symlink to one of them. -/
def sampleOps : List VfsOp :=
  [.addDir (.ofString "/r/d"), .addFile (.ofString "/r/d/a") [1, 2],
    .addFile (.ofString "/r/d/b") [3], .addSymlink (.ofString "/r/s") (.ofString "/r/d/a")]

/-- They are read back. -/
theorem compiled_files_read_back_small : ∃ b exe t f g name,
    buildVfs id (.ofString "/r") sampleOps = .ok b ∧
      writeBinaryBytes (fun _ => []) [] [] [] (some b.rootDir) b.files = .ok exe ∧
      shapeAt b.rootDir.entries ["d"] = some .dir ∧
      shapeAt b.rootDir.entries ["s"] = some (.symlink ⟨name, ["d", "a"]⟩) ∧
      (openedAt exe t b.rootDir (.ofString "/r") "r").readFileAll f = .ok [1, 2] ∧
      (openedAt exe t b.rootDir (.ofString "/r") "r").readFileAll g = .ok [3] := by
  obtain ⟨b, hb, hfiles⟩ : ∃ b, buildVfs id (.ofString "/r") sampleOps = .ok b ∧
      b.files = [[1, 2], [3]] := ⟨_, rfl, rfl⟩
  obtain ⟨exe, hexe⟩ : ∃ exe, writeBinaryBytes (fun _ => []) [] [] [] (some b.rootDir) b.files =
      .ok exe := exists_writeBinaryBytes (by rw [hfiles]; decide)
  obtain ⟨t, -, -, -, -, hdirs, hlinks, h⟩ := compiled_files_read_back Function.injective_id hb _
    (fun _ => .ok b.rootDir) rfl hexe
  obtain ⟨-, hread⟩ := h (.ofString "/r") "r"
  obtain ⟨name, hname⟩ := hlinks (.ofString "/r/s") (.ofString "/r/d/a") (by simp [sampleOps])
  obtain ⟨-, f, -, -, hf⟩ := hread (.ofString "/r/d/a") [1, 2] (by simp [sampleOps])
  obtain ⟨-, g, -, -, hg⟩ := hread (.ofString "/r/d/b") [3] (by simp [sampleOps])
  exact ⟨b, exe, t, f, g, name, hb, hexe, hdirs (.ofString "/r/d") (by simp [sampleOps]), hname,
    hf.mpr (by simp [readLimit]), hg.mpr (by simp [readLimit])⟩

/-- A file of two GiB is not: it comes back with zeros at its end. -/
theorem compiled_large_file_not_read_back :
    ∃ b exe vfs f, buildVfs (checksumOf (List.replicate (2 ^ 31) 1)
          "2ae6847ba41dfe8bf3eef0589576473d44b3092ae627a5e2386e450317c4bcdb")
        (.ofString "/r") [.addFile (.ofString "/r/a") (List.replicate (2 ^ 31) 1)] = .ok b ∧
      writeBinaryBytes (fun _ => oneFileJson 2147483648) [] [] [] (some b.rootDir) b.files = .ok exe ∧
      loadNpmVfs (fun _ => .ok ⟨"r", [.file ⟨"a", 0, 2147483648⟩]⟩) exe (.ofString "/r") = .ok vfs ∧
      vfs.fileEntry 1 (.ofString "/r/a") = .ok f ∧
      vfs.readFileAll f ≠ .ok (List.replicate (2 ^ 31) 1) := by
  obtain ⟨data, hdata⟩ : ∃ data : Bytes, data = List.replicate (2 ^ 31) 1 := ⟨_, rfl⟩
  rw [← hdata]
  have hlength : data.length = 2 ^ 31 := by rw [hdata, length_replicate]
  obtain ⟨b, exe, hb, hdir, hexe⟩ := exists_compiled_of_one_file data (by rw [hlength]; decide)
    "2ae6847ba41dfe8bf3eef0589576473d44b3092ae627a5e2386e450317c4bcdb"
    (oneFileJson 2147483648) (by decide)
  rw [hlength] at hdir
  obtain ⟨t, htrailer, -, hvfs, hsize, before, hparts, hbefore⟩ := writeBinaryBytes_spec hexe
  obtain ⟨rel, f, behind, hrel, hentry, hembedded⟩ :=
    embedded_of_buildVfs (injective_checksumOf _ _) hb hparts hbefore hsize mem_cons_self
      (.ofString "/r") "r"
  have hload : loadNpmVfs (fun _ => .ok ⟨"r", [.file ⟨"a", 0, 2147483648⟩]⟩) exe
      (.ofString "/r") = .ok (openedAt exe t b.rootDir (.ofString "/r") "r") :=
    loadNpmVfs_eq_openedAt htrailer hvfs (congrArg Except.ok hdir.symm) (by decide)
  refine ⟨b, exe, _, f, hb, hexe, hload, ?_, ?_⟩
  · obtain rfl : rel = ⟨[.normal "a"], by decide⟩ := by
      have : (Path.ofString "/r/a").stripPrefix (.ofString "/r") =
          some ⟨[.normal "a"], by decide⟩ := by decide
      exact Option.some.inj (hrel.symm.trans this)
    exact hentry 0
  · rw [Ne, hembedded.readFileAll_eq_iff]
    intro hzero
    have hmem : (1 : UInt8) ∈ data.drop readLimit := by
      rw [hdata, drop_replicate, mem_replicate]
      exact ⟨by decide, rfl⟩
    exact absurd (hzero 1 hmem) (by decide)

end Deno
