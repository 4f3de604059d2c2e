import Deno.Core.Machine
import Deno.Standalone.Compile
import Mathlib.Algebra.Ring.Int.Defs

/-!
# Reading an open virtual file

An open file keeps a position of its own and reads from the executable, in which other files and
the trailer follow its content. A read is right if it stays in the content.
-/

namespace Deno

open Core List

inductive FileOp where
  | seek (pos : SeekFrom)
  | read (bufLen : ℕ)
  | readAll

namespace FileBackedVfsFile

variable {vfs : FileBackedVfs} {h : FileBackedVfsFile} {data behind : Bytes}

section

variable (vfs : FileBackedVfs)

section

variable (h : FileBackedVfsFile)

def step : FileOp → FileBackedVfsFile
  | .seek pos => (h.seek pos).2
  | .read bufLen => (h.readToBuf vfs bufLen).2
  | .readAll => (h.readToEnd vfs).2

def machine : Machine FileBackedVfsFile FileOp := ⟨step vfs⟩

/-- A read returns the bytes of the content from the position on, and moves behind them. -/
def ReadsRight (data : Bytes) (bufLen : ℕ) : Prop :=
  (h.readToBuf vfs bufLen).1 = .ok ((data.drop h.pos).take bufLen) ∧
    (h.readToBuf vfs bufLen).2.pos = h.pos + ((data.drop h.pos).take bufLen).length

/-- Reading everything returns the rest of the content. -/
def ReadsAllRight (data : Bytes) : Prop :=
  (h.readToEnd vfs).1 = .ok (data.drop h.pos)

lemma seek_file (pos : SeekFrom) : (h.seek pos).2.file = h.file := by
  cases pos with
  | start pos => rfl
  | «end» offset | current offset =>
    unfold seek
    dsimp only
    split_ifs <;> simp

/-- A read that starts no later than at the end of the content, and neither goes beyond the end
nor beyond what one call transfers. -/
def StaysInside (data : Bytes) (pos bufLen : ℕ) : Prop :=
  pos ≤ data.length ∧ min bufLen readLimit = min bufLen (data.length - pos)

lemma step_file (op : FileOp) : (step vfs h op).file = h.file := by
  cases op with
  | seek pos => exact seek_file h pos
  | read bufLen => rfl
  | readAll =>
    simp only [step, readToEnd]
    split_ifs <;> rfl

lemma run_file (ops : List FileOp) : ((machine vfs).run h ops).file = h.file := by
  refine Machine.run_invariant (P := fun h' : FileBackedVfsFile => h'.file = h.file)
    (fun h' op heq => ?_) rfl ops
  exact (step_file vfs h' op).trans heq

end

end

lemma take_append_eq_take_iff {bytes behind : Bytes} (hbehind : behind ≠ []) (m n : ℕ) :
    (bytes ++ behind).take m = bytes.take n ↔ m = min n bytes.length := by
  have hpos := List.length_pos_iff.mpr hbehind
  constructor
  · intro heq
    have := congrArg List.length heq
    simp only [length_take, length_append] at this
    omega
  · rintro rfl
    rw [take_append_of_le_length (Nat.min_le_right _ _), ← take_take, take_length]

lemma readsRight_iff (hfile : Embedded vfs h.file data behind) {n : ℕ} (hn : n < 2 ^ 63) :
    h.ReadsRight vfs data n ↔ StaysInside data h.pos n := by
  have hlen := hfile.len
  have hbehind : behind ≠ [] := by
    intro hnil
    have := hfile.trailer
    rw [hnil] at this
    simp [trailerSize] at this
  have hsize : data.length < 2 ^ 63 := by
    obtain ⟨before, heq, -⟩ := hfile.position
    have := hfile.size
    rw [heq, length_append, length_append] at this
    omega
  have hcount : ((data.drop h.pos).take n).length = min n (data.length - h.pos) := by
    rw [length_take, length_drop]
  rw [ReadsRight, readToBuf, hcount, StaysInside]
  by_cases hpos : h.pos ≤ data.length
  · have hmove : min h.file.len ((h.pos + n) % 2 ^ 64) = h.pos + min n (data.length - h.pos) := by
      omega
    rw [hfile.readFile hpos, Except.ok.injEq, drop_append_of_le_length hpos,
      take_append_eq_take_iff hbehind, length_drop]
    simp only [hmove, and_true, hpos, true_and]
  · -- the position goes back to the end
    refine iff_of_false (fun hright => ?_) fun hright => hpos hright.1
    have hback := hright.2
    dsimp only at hback
    omega

lemma readsAllRight_iff (hfile : Embedded vfs h.file data behind) :
    h.ReadsAllRight vfs data ↔ ∀ byte ∈ data.drop (h.pos + readLimit), byte = 0 := by
  have hlen := hfile.len
  rw [ReadsAllRight, readToEnd]
  by_cases hpos : h.pos > h.file.len
  · -- behind its end there is nothing to read
    have hdrop : data.drop h.pos = [] := drop_eq_nil_of_le (by omega)
    have hdrop' : data.drop (h.pos + readLimit) = [] := drop_eq_nil_of_le (by omega)
    rw [if_pos hpos, hdrop, hdrop']
    simp
  · rw [if_neg hpos, hlen]
    exact hfile.readIntoZeros_eq_iff (by omega)

/-! ### Seeking -/

section

variable (h : FileBackedVfsFile)

def target : SeekFrom → ℤ
  | .start pos => pos.toNat
  | .end offset => h.file.len + offset.toInt
  | .current offset => h.pos + offset.toInt

/-- No number that a seek computes leaves the range of its type. The least offset cannot be
negated. -/
def NoOverflow : SeekFrom → Prop
  | .start _ => True
  | .end offset =>
    if offset.toInt < 0 then
      offset.toInt ≠ -2 ^ 63 ∧
        (offset.toInt.natAbs ≤ h.file.len → h.file.len + offset.toInt.natAbs < 2 ^ 64)
    else offset.toInt ≤ h.file.len
  | .current offset =>
    if 0 ≤ offset.toInt then h.pos + offset.toInt < 2 ^ 64 else offset.toInt ≠ -2 ^ 63

/-- A seek goes where it is meant to go, or fails if there is no such position. -/
def SeeksRight (pos : SeekFrom) : Prop :=
  h.NoOverflow pos ∧
    if 0 ≤ h.target pos ∧ h.target pos < 2 ^ 64 then
      h.seek pos = (.ok (h.target pos).toNat, { h with pos := (h.target pos).toNat })
    else ∃ e, h.seek pos = (.error e, h)

/-- The seeks that are done right: of those from the end, the one to the end itself and those that
have to fail. -/
def Supported : SeekFrom → Prop
  | .start _ => True
  | .end offset => offset.toInt = 0 ∨ offset.toInt ≠ -2 ^ 63 ∧ h.file.len + offset.toInt < 0
  | .current offset => offset.toInt ≠ -2 ^ 63 ∧ h.pos + offset.toInt < 2 ^ 64

/-- A seek that succeeds has to go to its target. -/
lemma seeksRight_of_ok (pos : SeekFrom) {n : ℕ}
    (hseek : h.seek pos = (.ok n, { h with pos := n })) (hn : n < 2 ^ 64) :
    h.SeeksRight pos ↔ h.NoOverflow pos ∧ h.target pos = n := by
  refine and_congr_right fun _ => ?_
  rw [hseek]
  split_ifs with htarget
  · simp only [Prod.mk.injEq, Except.ok.injEq, mk.injEq, true_and, and_self]
    omega
  · refine iff_of_false nofun fun heq => htarget ?_
    omega

lemma seeksRight_of_error (pos : SeekFrom) {e : AnyError}
    (hseek : h.seek pos = (.error e, h)) : h.SeeksRight pos ↔
      h.NoOverflow pos ∧ ¬ (0 ≤ h.target pos ∧ h.target pos < 2 ^ 64) := by
  refine and_congr_right fun _ => ?_
  rw [hseek]
  split_ifs with htarget
  · exact iff_of_false nofun (not_not_intro htarget)
  · exact iff_of_true ⟨e, rfl⟩ htarget

end

/-- Seeking follows the contract exactly for these seeks: from the end it goes in the wrong
direction. -/
theorem seeksRight_iff (hlen : h.file.len < 2 ^ 64) (hpos : h.pos < 2 ^ 64) (pos : SeekFrom) :
    h.SeeksRight pos ↔ h.Supported pos := by
  cases pos with
  | start pos =>
    rw [seeksRight_of_ok h _ rfl pos.toNat_lt]
    exact iff_of_true ⟨trivial, rfl⟩ trivial
  | «end» offset =>
    by_cases hneg : offset < 0 ∧ offset.toInt.natAbs > h.file.len
    · rw [seeksRight_of_error h (.end offset) (if_pos hneg)]
      simp only [NoOverflow, target, Supported]
      split_ifs <;> omega
    · rw [seeksRight_of_ok h (.end offset) (if_neg hneg)
        (by split_ifs <;> exact Nat.mod_lt _ (by decide))]
      rw [Int64.lt_iff_toInt_lt, Int64.toInt_zero] at hneg
      simp only [NoOverflow, target, Supported, Int64.le_iff_toInt_le, Int64.toInt_zero]
      split_ifs <;> omega
  | current offset =>
    by_cases hneg : 0 ≤ offset
    · rw [seeksRight_of_ok h (.current offset) (if_pos hneg) (Nat.mod_lt _ (by decide))]
      rw [Int64.le_iff_toInt_le, Int64.toInt_zero] at hneg
      simp only [NoOverflow, target, Supported, if_pos hneg]
      omega
    · by_cases hlt : offset.toInt.natAbs > h.pos
      · rw [seeksRight_of_error h (.current offset) ((if_neg hneg).trans (if_pos hlt))]
        rw [Int64.le_iff_toInt_le, Int64.toInt_zero] at hneg
        simp only [NoOverflow, target, Supported, if_neg hneg]
        omega
      · rw [seeksRight_of_ok h (.current offset) ((if_neg hneg).trans (if_neg hlt))
          (lt_of_le_of_lt (Nat.sub_le _ _) hpos)]
        rw [Int64.le_iff_toInt_le, Int64.toInt_zero] at hneg
        simp only [NoOverflow, target, Supported, if_neg hneg]
        omega

/-- Back from the position, and to the end. -/
theorem seeksRight_iff_back :
    SeeksRight ⟨⟨"a", 0, 2⟩, 2⟩ (.current (-1)) ∧ SeeksRight ⟨⟨"a", 0, 2⟩, 2⟩ (.end 0) :=
  ⟨(seeksRight_iff (by decide) (by decide) _).mpr ⟨by decide, by decide⟩,
    (seeksRight_iff (by decide) (by decide) _).mpr (Or.inl rfl)⟩

/-- One byte before the end of two bytes is one behind it. -/
theorem seek_end_mirrored : ¬ SeeksRight ⟨⟨"a", 0, 2⟩, 0⟩ (.end (-1)) ∧
    seek ⟨⟨"a", 0, 2⟩, 0⟩ (.end (-1)) = (.ok 3, ⟨⟨"a", 0, 2⟩, 3⟩) := by
  refine ⟨fun h => ?_, rfl⟩
  have htarget := ((seeksRight_of_ok _ _ rfl (by decide)).mp h).2
  exact absurd htarget (by decide)

end FileBackedVfsFile

open FileBackedVfsFile

section

variable {κ : Type} [DecidableEq κ] {gen : Bytes → κ} {root : Path} {ops : List VfsOp}
variable {b : VfsBuilder κ}

/-- Reading an embedded file. Whatever was done with the open file before, a read returns what it
should and moves behind it exactly if it stays in the content, and reading the rest is right
exactly if what one call leaves out is zero. -/
theorem openFile_reads_right_iff (hgen : Function.Injective gen)
    (hbuild : buildVfs gen root ops = .ok b) (toJson : Option VirtualDirectory → Bytes)
    {originalBin metadata eszip exe : Bytes}
    (hwrite : writeBinaryBytes toJson originalBin metadata eszip (some b.rootDir) b.files =
      .ok exe) :
    ∃ t, readTrailer exe = .ok (some t) ∧ ∀ newRoot name vfs,
      vfs = openedAt exe t b.rootDir newRoot name → ∀ path data, .addFile path data ∈ ops →
      ∃ rel h, path.stripPrefix root = some rel ∧
        (∀ depth, vfs.openFile (depth + 1) (newRoot.join rel) = .ok h) ∧
        ∀ fileOps h', (machine vfs).run h fileOps = h' →
          (∀ n < 2 ^ 63, h'.ReadsRight vfs data n ↔ StaysInside data h'.pos n) ∧
          (h'.ReadsAllRight vfs data ↔ ∀ byte ∈ data.drop (h'.pos + readLimit), byte = 0) := by
  obtain ⟨t, htrailer, -, -, hsize, before, hexe, hbefore⟩ := writeBinaryBytes_spec hwrite
  refine ⟨t, htrailer, fun newRoot name vfs hvfs path data hop => ?_⟩
  obtain ⟨rel, f, behind, hrel, hentry, hembedded⟩ :=
    embedded_of_buildVfs hgen hbuild hexe hbefore hsize hop newRoot name
  rw [← hvfs] at hentry hembedded
  refine ⟨rel, ⟨f, 0⟩, hrel, fun depth => ?_, fun fileOps h' hrun => ?_⟩
  · rw [FileBackedVfs.openFile, hentry depth]
    rfl
  · have hfile : h'.file = f := by
      rw [← hrun]
      exact run_file vfs ⟨f, 0⟩ fileOps
    rw [← hfile] at hembedded
    exact ⟨fun n hn => readsRight_iff hembedded hn, readsAllRight_iff hembedded⟩

end

/-- The first byte of a file of two. -/
theorem openFile_reads_right_iff_first : ∃ b exe t h, buildVfs (checksumOf [1, 2]
          "a12871fee210fb8619291eaea194581cbd2531e4b23759d225f6806923f63222")
        (.ofString "/r") [.addFile (.ofString "/r/a") [1, 2]] = .ok b ∧
      b.rootDir = ⟨"r", [.file ⟨"a", 0, 2⟩]⟩ ∧
      writeBinaryBytes (fun _ => oneFileJson 2) [] [] [] (some b.rootDir) b.files = .ok exe ∧
      ReadsRight (openedAt exe t b.rootDir (.ofString "/r") "r") h [1, 2] 1 := by
  obtain ⟨b, exe, hb, hdir, hexe⟩ := exists_compiled_of_one_file [1, 2] (by decide)
    "a12871fee210fb8619291eaea194581cbd2531e4b23759d225f6806923f63222" (oneFileJson 2) (by decide)
  obtain ⟨t, -, hopen⟩ := openFile_reads_right_iff (injective_checksumOf _ _) hb _ hexe
  obtain ⟨-, h, -, -, hreads⟩ :=
    hopen (.ofString "/r") "r" _ rfl (.ofString "/r/a") [1, 2] mem_cons_self
  obtain ⟨hread, -⟩ := hreads [.seek (.start 0)] _ rfl
  refine ⟨b, exe, t, _, hb, hdir, hexe, (hread 1 (by decide)).mpr ?_⟩
  exact ⟨Nat.zero_le _, show min 1 readLimit = min 1 (2 - 0) by decide⟩

/-- What is written for a directory `r` with files `a` and `b` of two bytes. -/
def twoFilesJson : Bytes :=
  textBytes ("\x7b\"name\":\"r\",\"entries\":[\x7b\"File\":\x7b\"name\":\"a\",\"offset\":0,\"len\":2\x7d\x7d," ++
    "\x7b\"File\":\x7b\"name\":\"b\",\"offset\":2,\"len\":2\x7d\x7d]\x7d")

variable (content content' : Bytes)

def checksumOfTwo (checksum checksum' : String) : Bytes → Bytes ⊕ String :=
  Function.update (checksumOf content checksum) content' (.inr checksum')

lemma injective_checksumOfTwo {checksum checksum' : String} (hne : checksum ≠ checksum') :
    Function.Injective (checksumOfTwo content content' checksum checksum') := by
  refine injective_update (injective_checksumOf content checksum) content' ?_
  intro data h
  by_cases hdata : data = content
  · rw [hdata, checksumOf, Function.update_self] at h
    exact hne (Sum.inr.inj h)
  · rw [checksumOf, Function.update_of_ne hdata] at h
    cases h

/-- A read beyond the end of a file returns the bytes of the next one. -/
theorem openFile_reads_next_file : ∃ b exe vfs h, buildVfs (checksumOfTwo [1, 2] [3, 4]
          "a12871fee210fb8619291eaea194581cbd2531e4b23759d225f6806923f63222"
          "0ce3940bebf2b22a5d2108ecf0c368a0541c7e3c45703f8540921b4eafc82947")
        (.ofString "/r")
        [.addFile (.ofString "/r/a") [1, 2], .addFile (.ofString "/r/b") [3, 4]] = .ok b ∧
      writeBinaryBytes (fun _ => twoFilesJson) [] [] [] (some b.rootDir) b.files = .ok exe ∧
      loadNpmVfs (fun _ => .ok ⟨"r", [.file ⟨"a", 0, 2⟩, .file ⟨"b", 2, 2⟩]⟩) exe
        (.ofString "/r") = .ok vfs ∧
      vfs.openFile 1 (.ofString "/r/a") = .ok h ∧
      (h.readToBuf vfs 4).1 = .ok [1, 2, 3, 4] := by
  obtain ⟨b, hb, hdir, hfiles⟩ : ∃ b, buildVfs (checksumOfTwo [1, 2] [3, 4]
        "a12871fee210fb8619291eaea194581cbd2531e4b23759d225f6806923f63222"
        "0ce3940bebf2b22a5d2108ecf0c368a0541c7e3c45703f8540921b4eafc82947")
      (.ofString "/r")
      [.addFile (.ofString "/r/a") [1, 2], .addFile (.ofString "/r/b") [3, 4]] = .ok b ∧
      b.rootDir = ⟨"r", [.file ⟨"a", 0, 2⟩, .file ⟨"b", 2, 2⟩]⟩ ∧ b.files = [[1, 2], [3, 4]] :=
    ⟨_, rfl, rfl, rfl⟩
  obtain ⟨exe, hexe⟩ : ∃ exe, writeBinaryBytes (fun _ => twoFilesJson) [] [] [] (some b.rootDir)
      b.files = .ok exe := by
    refine exists_writeBinaryBytes ?_
    rw [hfiles]
    decide
  obtain ⟨t, htrailer, -, hvfs, hsize, before, hparts, hbefore⟩ := writeBinaryBytes_spec hexe
  have hload : loadNpmVfs (fun _ => .ok ⟨"r", [.file ⟨"a", 0, 2⟩, .file ⟨"b", 2, 2⟩]⟩) exe
      (.ofString "/r") = .ok (openedAt exe t b.rootDir (.ofString "/r") "r") :=
    loadNpmVfs_eq_openedAt htrailer hvfs (congrArg Except.ok hdir.symm) (by decide)
  have hfile : Embedded (openedAt exe t b.rootDir (.ofString "/r") "r") ⟨"a", 0, 2⟩ [1, 2]
      ([3, 4] ++ t.asBytes) := by
    refine ⟨rfl, ⟨before, ?_, hbefore⟩, ?_, hsize⟩
    · rw [hparts, hfiles, append_assoc]
      rfl
    · rw [length_append, t.length_asBytes]
      exact Nat.le_add_left _ _
  have hentry : (openedAt exe t b.rootDir (.ofString "/r") "r").fileEntry 1 (.ofString "/r/a") =
      .ok ⟨"a", 0, 2⟩ := by
    refine FileBackedVfs.fileEntry_of_shapeAt _ ⟨[.normal "a"], by decide⟩
      (built_of_buildVfs (injective_checksumOfTwo _ _ (by decide)) hb).ordered (by decide) ?_ 0
    rw [hdir]
    rfl
  refine ⟨b, exe, _, ⟨⟨"a", 0, 2⟩, 0⟩, hb, hexe, hload, ?_, ?_⟩
  · rw [FileBackedVfs.openFile, hentry]
    rfl
  · rw [readToBuf, hfile.readFile (Nat.zero_le _)]
    rfl

end Deno
