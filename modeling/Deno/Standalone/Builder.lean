import Deno.Standalone.Tree

/-!
# What a builder holds

After any operations that succeed, the tree of a builder has what they added and nothing else, and
the contents of every file stand where its entry says.
-/

namespace Deno

open Core List

/-- The place of a path below the root, as the names that lead there. -/
def place (root path : Path) : List String :=
  match path.stripPrefix root with
  | some rel => componentNames rel
  | none => []

lemma place_of_stripPrefix {root path rel : Path} (h : path.stripPrefix root = some rel) :
    place root path = componentNames rel := by
  rw [place, h]

lemma place_eq_append {root path parent rel : Path} {name : String}
    (hparent : path.parent = some parent) (hname : path.fileName = some name)
    (hrel : parent.stripPrefix root = some rel) :
    place root path = componentNames rel ++ [name] := by
  obtain ⟨c, -, hcomps⟩ := Path.eq_append_of_parent hparent
  obtain ⟨init, hinit⟩ := Path.eq_append_of_fileName hname
  obtain ⟨hpar, hc⟩ := append_inj' (hcomps.symm.trans hinit) rfl
  cases hc
  have hskip : (path.skip root.comps.length).comps = rel.comps ++ [.normal name] := by
    rw [Path.skip_comps, hcomps, Path.eq_append_of_stripPrefix hrel, append_assoc, drop_left]
  have hstrip : path.stripPrefix root = some (path.skip root.comps.length) := by
    refine Path.stripPrefix_of_eq_append ?_
    rw [hskip, hcomps, Path.eq_append_of_stripPrefix hrel, append_assoc]
  rw [place_of_stripPrefix hstrip, componentNames, hskip, map_append]
  rfl

variable (contents data : Bytes)

def Stored (offset : ℕ) : Prop :=
  ∃ before after, contents = before ++ data ++ after ∧ before.length = offset

lemma Stored.append {contents data : Bytes} {offset : ℕ} (h : Stored contents data offset)
    (more : Bytes) : Stored (contents ++ more) data offset := by
  obtain ⟨before, after, rfl, hlen⟩ := h
  exact ⟨before, after ++ more, append_assoc _ _ _, hlen⟩

section

variable {κ : Type} [DecidableEq κ] {gen : Bytes → κ} {root : Path} {ops : List VfsOp}
variable {b b' : VfsBuilder κ}

/-- The contents are stored where the table of checksums says. -/
structure StorageInv (gen : Bytes → κ) (b : VfsBuilder κ) : Prop where
  currentOffset : b.currentOffset = b.files.flatten.length
  fileOffsets : ∀ checksum offset, b.fileOffsets.lookup checksum = some offset →
    ∃ data, gen data = checksum ∧ Stored b.files.flatten data offset

variable {dir : VirtualDirectory}

def VfsOp.shape (root : Path) (files : Bytes) : VfsOp → Shape → Prop
  | .addDir _, shape => shape = .dir
  | .addFile _ data, shape => ∃ f, shape = .file f ∧ f.len = data.length ∧
      Stored files data f.offset
  | .addSymlink _ target, shape => ∃ name, shape = .symlink ⟨name, place root target⟩

/-- The builder holds what the operations added. -/
structure Built (gen : Bytes → κ) (root : Path) (ops : List VfsOp) (b : VfsBuilder κ) : Prop where
  rootPath : b.rootPath = root
  ordered : Ordered b.rootDir.entries
  storage : StorageInv gen b
  present : ∀ p, (shapeAt b.rootDir.entries p).isSome ↔
    p = [] ∨ ∃ op ∈ ops, p <+: place root op.path
  added : ∀ op ∈ ops, (op.path.stripPrefix root).isSome ∧
    ∃ shape, shapeAt b.rootDir.entries (place root op.path) = some shape ∧
      op.shape root b.files.flatten shape

variable {op : VfsOp}

lemma VfsOp.shape_append {files : Bytes} {shape : Shape}
    (h : op.shape root files shape) (more : Bytes) : op.shape root (files ++ more) shape := by
  cases op with
  | addDir path => exact h
  | addFile path data =>
    obtain ⟨f, hf, hlen, hstored⟩ := h
    exact ⟨f, hf, hlen, hstored.append more⟩
  | addSymlink path target => exact h

/-- One more operation: it adds its place to the tree and keeps what was there. -/
lemma Built.extend {added : List String → Option Shape} {shape : Shape}
    {more : Bytes} (h : Built gen root ops b) (hroot : b'.rootPath = root)
    (hspec : UpdateSpec b.rootDir.entries b'.rootDir.entries added)
    (hadded : ∀ p, (added p).isSome ↔ p <+: place root op.path)
    (hstrip : (op.path.stripPrefix root).isSome) (hstorage : StorageInv gen b')
    (hfiles : b'.files.flatten = b.files.flatten ++ more)
    (hat : shapeAt b'.rootDir.entries (place root op.path) = some shape)
    (hshape : op.shape root b'.files.flatten shape) : Built gen root (ops ++ [op]) b' where
  rootPath := hroot
  ordered := hspec.ordered
  storage := hstorage
  present p := by
    rw [hspec.shapeAt, Option.isSome_or, Bool.or_eq_true, hadded, h.present]
    simp only [mem_append, mem_singleton, or_and_right, exists_or, exists_eq_left]
    exact or_comm.trans or_assoc
  added op' hop := by
    rcases List.mem_append.mp hop with hop | hop
    · obtain ⟨hstrip', shape', hat', hshape'⟩ := h.added op' hop
      rw [hfiles]
      exact ⟨hstrip', shape', hspec.keeps _ _ hat', VfsOp.shape_append hshape' more⟩
    · obtain rfl := List.mem_singleton.mp hop
      exact ⟨hstrip, shape, hat, hshape⟩

omit [DecidableEq κ] in
lemma VfsBuilder.pathRelativeRoot_eq_ok {path rel : Path} :
    b.pathRelativeRoot path = .ok rel ↔ path.stripPrefix b.rootPath = some rel := by
  rw [VfsBuilder.pathRelativeRoot]
  cases path.stripPrefix b.rootPath <;> simp

variable {path : Path}

omit [DecidableEq κ] in
/-- The directory at a path is updated and nothing else. -/
lemma VfsBuilder.updateDirAt_spec {update : List VfsEntry → Except AnyError (List VfsEntry)}
    (added : List String → Option Shape) (hdir : added [] = some .dir)
    (hupdate : ∀ sub sub', Ordered sub → update sub = .ok sub' → UpdateSpec sub sub' added)
    (hold : Ordered b.rootDir.entries) (h : b.updateDirAt path update = .ok b') :
    ∃ rel dir, path.stripPrefix b.rootPath = some rel ∧ b' = { b with rootDir := dir } ∧
      UpdateSpec b.rootDir.entries dir.entries (under added (componentNames rel)) := by
  obtain ⟨rel, hrel, h⟩ := bind_eq_ok.mp h
  obtain ⟨entries, hentries, h⟩ := bind_eq_ok.mp h
  cases h
  exact ⟨rel, _, pathRelativeRoot_eq_ok.mp hrel, rfl, updateDir_spec hdir hupdate hold hentries⟩

lemma Built.addDir (h : Built gen root ops b) (hadd : b.addDir path = .ok b') :
    Built gen root (ops ++ [.addDir path]) b' := by
  obtain ⟨rel, dir, hrel, rfl, hspec⟩ :=
    VfsBuilder.updateDirAt_spec onlyDir rfl (fun sub sub' hsub hok => by cases hok; exact .refl hsub)
      h.ordered hadd
  rw [h.rootPath] at hrel
  have hplace : place root path = componentNames rel := place_of_stripPrefix hrel
  refine h.extend h.rootPath hspec (fun p => ?_) ?_
    ⟨h.storage.currentOffset, h.storage.fileOffsets⟩ (append_nil _).symm ?_ rfl
  · rw [isSome_under_onlyDir, VfsOp.path, hplace]
  · rw [VfsOp.path, hrel]
    rfl
  · have hself := under_append_self onlyDir (componentNames rel) []
    rw [append_nil] at hself
    rw [VfsOp.path, hplace, hspec.shapeAt, hself]
    rfl

omit [DecidableEq κ] in
lemma VfsBuilder.insertEntryAt_spec {path parent : Path} {name : String} {entry : VfsEntry}
    (hparent : path.parent = some parent) (hname : path.fileName = some name)
    (hentry : entry.name = name) (hleaf : entry.shape ≠ .dir) (hold : Ordered b.rootDir.entries)
    (h : b.updateDirAt parent (insertEntry entry) = .ok b') :
    ∃ dir added, b' = { b with rootDir := dir } ∧ (path.stripPrefix b.rootPath).isSome ∧
      UpdateSpec b.rootDir.entries dir.entries added ∧
      (∀ p, (added p).isSome ↔ p <+: place b.rootPath path) ∧
      shapeAt dir.entries (place b.rootPath path) = some entry.shape := by
  obtain ⟨rel, dir, hrel, rfl, hspec⟩ :=
    updateDirAt_spec (leafAt entry.name entry.shape) rfl
      (fun _ _ hsub hok => insertEntry_spec hleaf hsub hok) hold h
  have hplace : place b.rootPath path = componentNames rel ++ [entry.name] := by
    rw [place_eq_append hparent hname hrel, hentry]
  refine ⟨dir, _, rfl, ?_, hspec, fun p => ?_, ?_⟩
  · by_contra hnone
    rw [Option.not_isSome_iff_eq_none] at hnone
    rw [place, hnone] at hplace
    exact append_ne_nil_of_right_ne_nil _ (cons_ne_nil _ _) hplace.symm
  · rw [isSome_under_leafAt, hplace]
  · rw [hplace, hspec.shapeAt, under_append_self]
    simp [leafAt]

lemma Built.addSymlink {path target : Path} (h : Built gen root ops b)
    (hadd : b.addSymlink path target = .ok b') :
    Built gen root (ops ++ [.addSymlink path target]) b' := by
  obtain ⟨dest, hdest, hadd⟩ := bind_eq_ok.mp hadd
  obtain ⟨parent, hparent, hadd⟩ := bind_eq_ok.mp hadd
  obtain ⟨name, hname, hadd⟩ := bind_eq_ok.mp hadd
  rw [unwrapOption_eq_ok] at hparent hname
  rw [VfsBuilder.pathRelativeRoot_eq_ok, h.rootPath] at hdest
  obtain ⟨dir, added, rfl, hstrip, hspec, hadded, hat⟩ :=
    VfsBuilder.insertEntryAt_spec hparent hname rfl (by simp [VfsEntry.shape]) h.ordered hadd
  rw [h.rootPath] at hstrip hadded hat
  refine h.extend h.rootPath hspec hadded hstrip
    ⟨h.storage.currentOffset, h.storage.fileOffsets⟩ (append_nil _).symm hat ⟨name, ?_⟩
  rw [place_of_stripPrefix hdest]
  rfl

variable {fileOffsets : List (κ × ℕ)}

/-- The offset chosen for a content is the current one, or one at which it stands. -/
lemma StorageInv.offsetFor {data : Bytes} {offset : ℕ}
    (h : StorageInv gen b) (hgen : Function.Injective gen)
    (hfor : b.offsetFor (gen data) = (offset, fileOffsets)) :
    Stored b.files.flatten data offset ∨ offset = b.currentOffset := by
  rw [VfsBuilder.offsetFor] at hfor
  split at hfor
  · rename_i hlookup
    cases hfor
    obtain ⟨data', hdata', hstored⟩ := h.fileOffsets _ _ hlookup
    obtain rfl := hgen hdata'
    exact .inl hstored
  · cases hfor
    exact .inr rfl

/-- The table of checksums after a content was added, at the end of the files if it is new. -/
lemma StorageInv.addData {files : List Bytes} {data more : Bytes}
    {offset currentOffset : ℕ} (h : StorageInv gen b)
    (hfor : b.offsetFor (gen data) = (offset, fileOffsets))
    (hfiles : files.flatten = b.files.flatten ++ more)
    (hcurrent : currentOffset = files.flatten.length) (hstored : Stored files.flatten data offset) :
    StorageInv gen ⟨b.rootPath, dir, files, currentOffset, fileOffsets⟩ where
  currentOffset := hcurrent
  fileOffsets checksum offset' hlookup := by
    have hkept : b.fileOffsets.lookup checksum = some offset' →
        ∃ data', gen data' = checksum ∧ Stored files.flatten data' offset' := by
      intro hlookup'
      obtain ⟨data', hdata', hstored'⟩ := h.fileOffsets checksum offset' hlookup'
      exact ⟨data', hdata', hfiles ▸ hstored'.append more⟩
    rw [VfsBuilder.offsetFor] at hfor
    split at hfor
    · cases hfor
      exact hkept hlookup
    · cases hfor
      rw [List.lookup_cons] at hlookup
      split at hlookup
      · rename_i heq
        cases hlookup
        exact ⟨data, (eq_of_beq heq).symm, hstored⟩
      · exact hkept hlookup

lemma Built.addFile {data : Bytes} (h : Built gen root ops b)
    (hgen : Function.Injective gen) (hadd : b.addFile gen path data = .ok b') :
    Built gen root (ops ++ [.addFile path data]) b' := by
  have hcurrent := h.storage.currentOffset
  rw [VfsBuilder.addFile] at hadd
  rcases hfor : b.offsetFor (gen data) with ⟨offset, fileOffsets⟩
  rw [hfor] at hadd
  obtain ⟨parent, hparent, hadd⟩ := bind_eq_ok.mp hadd
  obtain ⟨name, hname, hadd⟩ := bind_eq_ok.mp hadd
  obtain ⟨b₁, hb₁, hadd⟩ := bind_eq_ok.mp hadd
  rw [unwrapOption_eq_ok] at hparent hname
  obtain ⟨dir, added, rfl, hstrip, hspec, hadded, hat⟩ :=
    VfsBuilder.insertEntryAt_spec hparent hname rfl (by simp [VfsEntry.shape]) h.ordered hb₁
  rw [h.rootPath] at hstrip hadded hat
  split_ifs at hadd with hnew
  · -- the content goes to the end of the files
    cases hadd
    obtain rfl : b.currentOffset = offset := hnew
    have hfiles : (b.files ++ [data]).flatten = b.files.flatten ++ data := by simp
    have hstored : Stored (b.files ++ [data]).flatten data b.currentOffset := by
      rw [hfiles, hcurrent]
      exact ⟨_, [], (append_nil _).symm, rfl⟩
    refine h.extend h.rootPath hspec hadded hstrip ?_ hfiles hat ⟨_, rfl, rfl, hstored⟩
    exact h.storage.addData hfor hfiles (by rw [hfiles, length_append, hcurrent]) hstored
  · -- the content is there already
    cases hadd
    have hstored := (h.storage.offsetFor hgen hfor).resolve_right fun heq => hnew heq.symm
    refine h.extend h.rootPath hspec hadded hstrip ?_ (append_nil _).symm hat ⟨_, rfl, rfl, hstored⟩
    exact h.storage.addData hfor (append_nil _).symm hcurrent hstored

lemma Built.apply (h : Built gen root ops b) (hgen : Function.Injective gen)
    (happly : b.apply gen op = .ok b') : Built gen root (ops ++ [op]) b' := by
  cases op with
  | addDir path => exact h.addDir happly
  | addFile path data => exact h.addFile hgen happly
  | addSymlink path target => exact h.addSymlink happly

lemma Built.foldlM {more : List VfsOp} (h : Built gen root ops b) (hgen : Function.Injective gen)
    (hfold : more.foldlM (VfsBuilder.apply gen) b = .ok b') :
    Built gen root (ops ++ more) b' := by
  induction more generalizing ops b with
  | nil =>
    cases hfold
    rw [append_nil]
    exact h
  | cons op more ih =>
    obtain ⟨b₁, hb₁, hfold⟩ := bind_eq_ok.mp hfold
    rw [append_cons]
    exact ih (h.apply hgen hb₁) hfold

lemma built_of_new (h : VfsBuilder.new κ root = .ok b) : Built gen root [] b := by
  obtain ⟨name, -, h⟩ := bind_eq_ok.mp h
  cases h
  refine ⟨rfl, ordered_nil, ⟨rfl, nofun⟩, fun p => ?_, nofun⟩
  cases p with
  | nil => simp [shapeAt]
  | cons x p => simp [shapeAt, child_nil]

/-- Whatever the operations, the builder holds what they added. -/
theorem built_of_buildVfs (hgen : Function.Injective gen) (h : buildVfs gen root ops = .ok b) :
    Built gen root ops b := by
  obtain ⟨b₀, hb₀, hfold⟩ := bind_eq_ok.mp h
  exact (built_of_new hb₀).foldlM hgen hfold

end

end Deno
