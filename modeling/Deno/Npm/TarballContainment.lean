import Deno.Npm.Tarball

/-!
# What extraction touches outside the output folder

A file is only ever written into a folder that was checked to lie in the output folder. A folder
is checked after it was created, though, so every location that is missing on the way to it has
become a directory by then. Nothing outside the output folder changes exactly if no entry that is
reached has a missing location outside on the way to its folder.
-/

namespace Deno

open Core List FileTree Path

variable {β : Type}

/-! ### Paths of entries -/

def entryLocation (outputFolder : Location) (path : Path) : Location :=
  outputFolder.locate (path.skip 1).comps

lemma absolutePath_comps (out : Location) (path : Path) :
    (absolutePath out path).comps = out.toPath.comps ++ (path.skip 1).comps := by
  refine comps_join _ fun c hc => path.wf c ?_
  rwa [skip_comps, drop_one] at hc

variable {path dir : Path}

lemma dirPath_origin {out : Location} {entryType : EntryType}
    (h : dirPath out entryType path = some dir) (cwd : Location) : dir.origin cwd = [] := by
  have hhead : (absolutePath out path).comps.head? = some .rootDir := by
    rw [absolutePath_comps]
    rfl
  unfold dirPath at h
  split_ifs at h
  · cases h
    simp [origin, isAbsolute, hhead]
  · obtain ⟨c, hc, hcomps⟩ := eq_append_of_parent h
    have hdir : dir.comps.head? = some .rootDir := by
      cases hd : dir.comps with
      | nil =>
        rw [hcomps, hd] at hhead
        exact absurd (Option.some.inj hhead) hc
      | cons c' cs =>
        rw [hcomps, hd] at hhead
        exact hhead
    simp [origin, isAbsolute, hdir]

/-- The folder of a file and its name make up its path. -/
lemma dirPath_regular {out : Location} (h : dirPath out .regular path = some dir) :
    ∃ c, (absolutePath out path).comps = dir.comps ++ [c] ∧
      ∀ cwd, (dir.locate cwd).move c = entryLocation out path := by
  obtain ⟨c, _, hcomps⟩ := eq_append_of_parent h
  refine ⟨c, hcomps, fun cwd => ?_⟩
  have hloc : Location.locate [] (absolutePath out path).comps = entryLocation out path := by
    rw [absolutePath_comps, Location.locate_append, Location.locate_toPath, entryLocation]
  rw [locate, dirPath_origin h, ← hloc, hcomps, Location.locate_append]
  rfl

/-! ### One entry -/

/-- Every folder met so far is there and was checked. -/
def DirsChecked (cwd out : Location) (s : ExtractState β) : Prop :=
  ∀ dir ∈ s.createdDirs, s.tree.resolve (dir.origin cwd) dir.comps = .ok (dir.locate cwd) ∧
    s.tree.node (dir.locate cwd) = some .dir ∧ out <+: dir.locate cwd

lemma DirsChecked.of_keeps {cwd out : Location} {s : ExtractState β} {tree : FileTree β}
    (h : DirsChecked cwd out s) (hkeep : ∀ d, s.tree.node d = some .dir → tree.node d = some .dir) :
    DirsChecked cwd out ⟨tree, s.createdDirs⟩ := by
  intro dir hdir
  obtain ⟨hres, hnode, hin⟩ := h dir hdir
  exact ⟨resolve_of_keeps hkeep hres hnode, hkeep _ hnode, hin⟩

section

variable (out l : Location)

def contentsAt : Except AnyError (Entry β) → Option β
  | .ok ⟨.ok path, .regular, contents⟩ =>
    if entryLocation out path = l then some contents else none
  | _ => none

/-- The contents of the last file among the entries that goes to a location. -/
def lastContents (entries : List (Except AnyError (Entry β))) : Option β :=
  (entries.filterMap (contentsAt out l)).getLast?

lemma lastContents_cons (entry : Except AnyError (Entry β))
    (entries : List (Except AnyError (Entry β))) : lastContents out l (entry :: entries) =
      (lastContents out l entries).or (contentsAt out l entry) := by
  unfold lastContents
  rw [filterMap_cons]
  cases contentsAt out l entry with
  | none => simp
  | some x =>
    rw [getLast?_cons]
    cases (entries.filterMap (contentsAt out l)).getLast? with
    | none | some y => rfl

end

variable {entries : List (Except AnyError (Entry β))}

lemma lastContents_eq_none {out l : Location} :
    lastContents out l entries = none ↔ ∀ entry ∈ entries, contentsAt out l entry = none := by
  rw [lastContents, getLast?_eq_none_iff, filterMap_eq_nil_iff]

/-- What is at a location once the given ones are directories. -/
def withDirs (t : FileTree β) (ls : List Location) (m : Location) : Option (Node β) :=
  if m ∈ ls then some .dir else t.node m

variable [DecidableEq β] {cwd out : Location} {s : ExtractState β}

/-- The locations that are missing on the way to the folder of an entry. -/
def missingFor (cwd out : Location) (t : FileTree β) : Except AnyError (Entry β) → List Location
  | .ok ⟨.ok path, entryType, _⟩ =>
    if entryType = .xGlobalHeader then []
    else (dirPath out entryType path).elim [] fun dir => t.missing (dir.origin cwd) dir.comps
  | _ => []

variable {entry : Except AnyError (Entry β)} {m : Location} {t : FileTree β}

lemma node_eq_none_of_mem_missingFor (h : m ∈ missingFor cwd out t entry) : t.node m = none := by
  rcases entry with e | ⟨e | path, entryType, contents⟩
  · cases h
  · cases h
  · simp only [missingFor] at h
    split_ifs at h
    · cases h
    · cases hdir : dirPath out entryType path with
      | none => simp [hdir] at h
      | some dir =>
        rw [hdir] at h
        exact node_eq_none_of_mem_missing h

/-- Everything `ensureDir` can do to a folder that was not met before. -/
lemma ensureDir_of_new (cwd out : Location) {dir : Path} (hnew : ¬ dir ∈ s.createdDirs) :
    (ensureDir cwd out s dir).2 =
        ⟨(s.tree.createDirAll (dir.origin cwd) dir.comps).2, s.createdDirs.insert dir⟩ ∧
      ((ensureDir cwd out s dir).1 = .ok () →
        (s.tree.createDirAll (dir.origin cwd) dir.comps).1 = .ok () ∧ out <+: dir.locate cwd) := by
  simp only [ensureDir, if_neg hnew, createDirAll, canonicalize]
  cases hmade : (s.tree.createDirAll (dir.origin cwd) dir.comps).1 with
  | error e => exact ⟨rfl, fun h => by cases h⟩
  | ok u =>
    have hres := (createDirAll_ok hmade).1
    simp only [ioResult, hres]
    split_ifs with hin
    · exact ⟨rfl, fun _ => ⟨trivial, Location.startsWith_toPath.mp hin⟩⟩
    · exact ⟨rfl, fun h => by cases h⟩

/-- What `ensureDir` does for the folder of an entry, and what it leaves behind. -/
lemma ensureDir_spec (hs : DirsChecked cwd out s) {dir : Path} (hdir : dir.origin cwd = []) :
    (∀ m, (ensureDir cwd out s dir).2.tree.node m =
      withDirs s.tree (s.tree.missing (dir.origin cwd) dir.comps) m) ∧
    ((ensureDir cwd out s dir).1 = .ok () → DirsChecked cwd out (ensureDir cwd out s dir).2 ∧
        dir ∈ (ensureDir cwd out s dir).2.createdDirs) := by
  have hroot : s.tree.node (dir.origin cwd) ≠ none := by
    rw [hdir, s.tree.root_dir]
    simp
  by_cases hseen : dir ∈ s.createdDirs
  · rw [ensureDir, if_pos hseen]
    refine ⟨fun m => ?_, fun _ => ⟨hs, hseen⟩⟩
    rw [withDirs, missing_eq_nil (hs dir hseen).1]
    simp
  · obtain ⟨hstate, hok⟩ := ensureDir_of_new cwd out hseen
    rw [hstate]
    refine ⟨createDirAll_node hroot dir.comps, fun h => ?_⟩
    obtain ⟨hmade, hin⟩ := hok h
    have hkeep : ∀ d, s.tree.node d = some .dir →
        (s.tree.createDirAll (dir.origin cwd) dir.comps).2.node d = some .dir := by
      intro d hd
      rw [createDirAll_keeps hroot dir.comps (by simp [hd]), hd]
    have hnew := createDirAll_ok hmade
    refine ⟨fun dir' hdir' => ?_, by simp⟩
    rcases HashSet.mem_insert.mp hdir' with h' | rfl
    · exact hs.of_keeps hkeep dir' h'
    · exact ⟨hnew.1, hnew.2, hin⟩

/-- What one entry does to the tree: the missing locations on the way to its folder become
directories, and then its contents are written, below the output folder. -/
structure EntrySpec (cwd out : Location) (s : ExtractState β) (entry : Except AnyError (Entry β))
    (r : Except AnyError Unit × ExtractState β) : Prop where
  error : ∀ e, r.1 = .error e →
    ∀ m, r.2.tree.node m = withDirs s.tree (missingFor cwd out s.tree entry) m
  ok : r.1 = .ok () → ∀ m, r.2.tree.node m =
    (contentsAt out m entry).elim (withDirs s.tree (missingFor cwd out s.tree entry) m)
      fun x => some (.file x)
  inside : r.1 = .ok () → ∀ m x, contentsAt out m entry = some x → out <+: m
  checked : r.1 = .ok () → DirsChecked cwd out r.2

lemma EntrySpec.of_error {e : AnyError}
    (h : missingFor cwd out s.tree entry = []) : EntrySpec cwd out s entry (.error e, s) where
  error := by
    simp [h, withDirs]
  ok h := by cases h
  inside h := by cases h
  checked h := by cases h

/-- A file is written where its entry says, if its folder was checked. -/
lemma unpack_spec (hs : DirsChecked cwd out s)
    (hdir : dirPath out .regular path = some dir) (hmem : dir ∈ s.createdDirs) (x : β) :
    (∃ e, unpack s.tree cwd (absolutePath out path) x = (.error e, s.tree)) ∨
      ((unpack s.tree cwd (absolutePath out path) x).1 = .ok () ∧
        (∀ m, (unpack s.tree cwd (absolutePath out path) x).2.node m =
          if m = entryLocation out path then some (.file x) else s.tree.node m) ∧
        s.tree.node (entryLocation out path) ≠ some .dir ∧ out <+: entryLocation out path) := by
  obtain ⟨c, hcomps, hmove⟩ := dirPath_regular hdir
  have horigin : (absolutePath out path).origin cwd = dir.origin cwd := by
    rw [dirPath_origin hdir, origin, isAbsolute, absolutePath_comps]
    rfl
  obtain ⟨hres, _, hin⟩ := hs dir hmem
  unfold unpack
  rw [horigin]
  generalize ho : s.tree.writeFile (dir.origin cwd) (absolutePath out path).comps x = o
  have hrule := FileTree.WriteRule.of_writeFile s.tree (dir.origin cwd)
    (absolutePath out path).comps x
  rw [ho] at hrule
  cases hrule with
  | failed e => exact Or.inl ⟨_, rfl⟩
  | written init n d hd hn hcs hres' =>
    obtain ⟨rfl, hc⟩ := append_inj' (hcomps.symm.trans hcs) rfl
    obtain rfl := List.cons.inj hc |>.1
    rw [hres] at hres'
    obtain rfl := Except.ok.inj hres'
    have hloc : dir.locate cwd ++ [n] = entryLocation out path := hmove cwd
    rw [hloc] at hn
    refine Or.inr ⟨rfl, fun m => ?_, hn, ?_⟩
    · rw [put_node, hloc]
    · rw [← hloc]
      exact hin.trans (prefix_append _ _)

theorem extractEntry_spec (hs : DirsChecked cwd out s) (entry : Except AnyError (Entry β)) :
    EntrySpec cwd out s entry (extractEntry cwd out s entry) := by
  rcases entry with e | ⟨path, entryType, contents⟩
  · exact .of_error rfl
  rcases path with e | path
  · exact .of_error rfl
  by_cases hglobal : entryType = .xGlobalHeader
  · subst hglobal
    constructor
    · intro e h
      cases h
    · intro _ m
      rfl
    · intro _ m x h
      cases h
    · intro _
      exact hs
  cases hdir : dirPath out entryType path with
  | none =>
    simp only [extractEntry, if_neg hglobal, hdir]
    exact .of_error (by simp [missingFor, hdir])
  | some dir =>
    have hmissing : missingFor cwd out s.tree (.ok ⟨.ok path, entryType, contents⟩) =
        s.tree.missing (dir.origin cwd) dir.comps := by
      simp [missingFor, hdir, hglobal]
    obtain ⟨hnode, hok⟩ := ensureDir_spec hs (dirPath_origin hdir cwd)
    rw [← hmissing] at hnode
    simp only [extractEntry, if_neg hglobal, hdir]
    rcases hens : ensureDir cwd out s dir with ⟨e | u, s'⟩
    · rw [hens] at hnode
      exact ⟨fun _ _ => hnode, by simp, by simp, by simp⟩
    rw [hens] at hnode hok
    obtain ⟨hchecked, hmem⟩ := hok rfl
    by_cases hregular : entryType = .regular
    · subst hregular
      simp only [if_true]
      rcases unpack_spec hchecked hdir hmem contents with ⟨e, hun⟩ | ⟨hun, hput, hfile, hin⟩
      · rw [hun]
        exact ⟨fun _ _ => hnode, by simp, by simp, by simp⟩
      · refine ⟨fun e h => ?_, fun _ m => ?_, fun _ m x hx => ?_, fun _ => ?_⟩
        · rw [hun] at h
          cases h
        · rw [hput, hnode, contentsAt]
          by_cases hm : entryLocation out path = m
          · rw [if_pos hm, if_pos hm.symm]
            rfl
          · rw [if_neg hm, if_neg (Ne.symm hm)]
            rfl
        · rw [contentsAt] at hx
          split_ifs at hx with hm
          exact hm ▸ hin
        · refine hchecked.of_keeps fun d hd => ?_
          rw [hput, if_neg, hd]
          rintro rfl
          exact hfile hd
    · simp only [if_neg hregular]
      have hnone : ∀ m, contentsAt out m (.ok ⟨.ok path, entryType, contents⟩) = none := by
        intro m
        cases entryType <;> first | rfl | exact absurd rfl hregular
      refine ⟨by simp, fun _ m => ?_, fun _ m x hx => ?_, fun _ => hchecked⟩
      · rw [hnone, hnode]
        rfl
      · rw [hnone] at hx
        cases hx

variable {r : Except AnyError Unit × ExtractState β}

lemma EntrySpec.node_ne_none (h : EntrySpec cwd out s entry r)
    (hm : s.tree.node m ≠ none ∨ m ∈ missingFor cwd out s.tree entry) : r.2.tree.node m ≠ none := by
  have hdirs : withDirs s.tree (missingFor cwd out s.tree entry) m ≠ none := by
    unfold withDirs
    split_ifs with h'
    · simp
    · exact hm.resolve_right h'
  cases hr : r.1 with
  | error e => rwa [h.error e hr]
  | ok u =>
    rw [h.ok hr]
    cases contentsAt out m entry with
    | none => exact hdirs
    | some x => simp

/-- Outside the output folder an entry only makes directories. -/
lemma EntrySpec.node_outside (h : EntrySpec cwd out s entry r)
    (hm : ¬ out <+: m) : r.2.tree.node m = withDirs s.tree (missingFor cwd out s.tree entry) m := by
  cases hr : r.1 with
  | error e => exact h.error e hr m
  | ok u =>
    rw [h.ok hr]
    cases hx : contentsAt out m entry with
    | none => rfl
    | some x => exact absurd (h.inside hr m x hx) hm

/-! ### All entries -/

/-- Every entry that is reached has all that is missing on the way to its folder inside the
output folder. -/
def EntriesContained (cwd out : Location) : ExtractState β → List (Except AnyError (Entry β)) → Prop
  | _, [] => True
  | s, entry :: entries =>
    (∀ m ∈ missingFor cwd out s.tree entry, out <+: m) ∧
      ((extractEntry cwd out s entry).1 = .ok () →
        EntriesContained cwd out (extractEntry cwd out s entry).2 entries)

lemma extractEntries_cons (cwd out : Location) (s : ExtractState β)
    (entry : Except AnyError (Entry β)) (entries : List (Except AnyError (Entry β))) :
    extractEntries cwd out s (entry :: entries) =
      if (extractEntry cwd out s entry).1 = .ok () then
        extractEntries cwd out (extractEntry cwd out s entry).2 entries
      else extractEntry cwd out s entry := by
  rw [extractEntries]
  rcases extractEntry cwd out s entry with ⟨e | u, s'⟩
  · rfl
  · rfl

lemma extractEntries_node_ne_none (hs : DirsChecked cwd out s)
    (entries : List (Except AnyError (Entry β))) (hm : s.tree.node m ≠ none) :
    (extractEntries cwd out s entries).2.tree.node m ≠ none := by
  induction entries generalizing s with
  | nil => exact hm
  | cons entry entries ih =>
    have hspec := extractEntry_spec hs entry
    rw [extractEntries_cons]
    split_ifs with hok
    · exact ih (hspec.checked hok) (hspec.node_ne_none (Or.inl hm))
    · exact hspec.node_ne_none (Or.inl hm)

/-- The loop leaves everything outside the output folder alone exactly if the entries are
contained. -/
theorem extractEntries_outside_iff (hs : DirsChecked cwd out s)
    (entries : List (Except AnyError (Entry β))) :
    (∀ m, ¬ out <+: m → (extractEntries cwd out s entries).2.tree.node m = s.tree.node m) ↔
      EntriesContained cwd out s entries := by
  induction entries generalizing s with
  | nil => simp [extractEntries, EntriesContained]
  | cons entry entries ih =>
    have hspec := extractEntry_spec hs entry
    -- once the entry itself is contained, the rest is compared with the tree it leaves
    have hrest : (∀ m ∈ missingFor cwd out s.tree entry, out <+: m) → ∀ m, ¬ out <+: m →
        (extractEntry cwd out s entry).2.tree.node m = s.tree.node m := by
      intro hin m hm
      rw [hspec.node_outside hm, withDirs, if_neg fun h => hm (hin m h)]
    rw [extractEntries_cons]
    constructor
    · intro h
      have hin : ∀ m ∈ missingFor cwd out s.tree entry, out <+: m := by
        intro m hmiss
        by_contra hm
        -- it was missing and is a directory now, and what is there stays there
        have hthere := hspec.node_ne_none (Or.inr hmiss)
        have hsame := (h m hm).trans (node_eq_none_of_mem_missingFor hmiss)
        split_ifs at hsame with hok
        · exact extractEntries_node_ne_none (hspec.checked hok) entries hthere hsame
        · exact hthere hsame
      refine ⟨hin, fun hok => (ih (hspec.checked hok)).mp fun m hm => ?_⟩
      rw [if_pos hok] at h
      rw [h m hm, hrest hin m hm]
    · rintro ⟨hin, hentries⟩ m hm
      split_ifs with hok
      · rw [(ih (hspec.checked hok)).mpr (hentries hok) m hm, hrest hin m hm]
      · exact hrest hin m hm

variable {l : Location}

/-- A file stays as it is as long as no entry goes to its location. -/
lemma extractEntries_keeps_file (hs : DirsChecked cwd out s)
    (hok : (extractEntries cwd out s entries).1 = .ok ()) {x : β}
    (hl : s.tree.node l = some (.file x))
    (hnone : ∀ entry ∈ entries, contentsAt out l entry = none) :
    (extractEntries cwd out s entries).2.tree.node l = some (.file x) := by
  induction entries generalizing s with
  | nil => exact hl
  | cons entry entries ih =>
    have hspec := extractEntry_spec hs entry
    rw [extractEntries_cons] at hok ⊢
    split_ifs at hok ⊢ with hentry
    · refine ih (hspec.checked hentry) hok ?_ fun e he => hnone e (mem_cons_of_mem _ he)
      have hnot : ¬ l ∈ missingFor cwd out s.tree entry := by
        intro h
        rw [node_eq_none_of_mem_missingFor h] at hl
        cases hl
      rw [hspec.ok hentry, hnone entry mem_cons_self, Option.elim_none, withDirs, if_neg hnot, hl]
    · exact absurd hok hentry

/-- After a loop without errors every location holds the last file that goes there. -/
theorem extractEntries_contents (hs : DirsChecked cwd out s)
    (hok : (extractEntries cwd out s entries).1 = .ok ()) {x : β}
    (hx : lastContents out l entries = some x) :
    out <+: l ∧ (extractEntries cwd out s entries).2.tree.node l = some (.file x) := by
  induction entries generalizing s with
  | nil => cases hx
  | cons entry entries ih =>
    have hspec := extractEntry_spec hs entry
    rw [extractEntries_cons] at hok ⊢
    split_ifs at hok ⊢ with hentry
    · rw [lastContents_cons] at hx
      cases hlast : lastContents out l entries with
      | some y =>
        -- a later entry goes there as well
        rw [hlast] at hx
        obtain rfl := Option.some.inj hx
        exact ih (hspec.checked hentry) hok hlast
      | none =>
        rw [hlast, Option.none_or] at hx
        refine ⟨hspec.inside hentry l x hx, ?_⟩
        refine extractEntries_keeps_file (hspec.checked hentry) hok ?_
          (lastContents_eq_none.mp hlast)
        rw [hspec.ok hentry, hx, Option.elim_some]
    · exact absurd hok hentry

/-! ### Extraction as a whole -/

lemma ioResult_eq_ok {α : Type} {r : Except FsError α} {a : α} (h : ioResult r = .ok a) :
    r = .ok a := by
  cases r with
  | error e => cases h
  | ok b => exact congrArg Except.ok (Except.ok.inj h)

/-- A folder that was created leads where its components lead. -/
lemma canonicalize_createDirAll {cwd : Location} {p : Path}
    (h : (createDirAll t cwd p).1 = .ok ()) :
    canonicalize (createDirAll t cwd p).2 cwd p = .ok (p.locate cwd) := by
  rw [canonicalize, createDirAll, (createDirAll_ok (ioResult_eq_ok h)).1]
  rfl

lemma extractTarball_eq (t : FileTree β) (cwd : Location)
    (archive : Except AnyError (List (Except AnyError (Entry β)))) (outputFolder : Path) :
    extractTarball t cwd archive outputFolder =
      match (createDirAll t cwd outputFolder).1, archive with
      | .error e, _ => (.error e, (createDirAll t cwd outputFolder).2)
      | .ok (), .error e => (.error e, (createDirAll t cwd outputFolder).2)
      | .ok (), .ok entries =>
        ((extractEntries cwd (outputFolder.locate cwd)
            ⟨(createDirAll t cwd outputFolder).2, .empty⟩ entries).1,
          (extractEntries cwd (outputFolder.locate cwd)
            ⟨(createDirAll t cwd outputFolder).2, .empty⟩ entries).2.tree) := by
  unfold extractTarball
  rcases hmade : createDirAll t cwd outputFolder with ⟨e | u, t'⟩
  · rfl
  · have hok : (createDirAll t cwd outputFolder).1 = .ok () := by rw [hmade]
    have hcan := canonicalize_createDirAll hok
    rw [hmade] at hcan
    simp only [hcan]
    cases archive with
    | error e | ok entries => rfl

/-- Making the folder itself touches nothing outside of it, if its parent is there. -/
lemma createDirAll_outside {outputFolder parent : Path}
    (hparent : outputFolder.parent = some parent) {d : Location}
    (hres : canonicalize t cwd parent = .ok d) (hd : t.node d = some .dir)
    (hl : ¬ outputFolder.locate cwd <+: l) :
    (createDirAll t cwd outputFolder).2.node l = t.node l := by
  obtain ⟨c, _, hcomps⟩ := eq_append_of_parent hparent
  have hresolve : t.resolve (outputFolder.origin cwd) parent.comps = .ok d := by
    rw [origin_parent hparent cwd]
    exact ioResult_eq_ok hres
  rw [createDirAll, createDirAll_node (node_of_resolve hresolve), if_neg]
  intro hmem
  rw [hcomps] at hmem
  have hloc : l = outputFolder.locate cwd := by
    rw [missing_append c hresolve hd l hmem, resolve_eq_ok hresolve,
      locate, hcomps, Location.locate_append]
    rfl
  exact hl (hloc ▸ prefix_refl _)

def ArchiveContained (t : FileTree β) (cwd : Location)
    (archive : Except AnyError (List (Except AnyError (Entry β)))) (outputFolder : Path) : Prop :=
  ∀ entries, archive = .ok entries → (createDirAll t cwd outputFolder).1 = .ok () →
    EntriesContained cwd (outputFolder.locate cwd)
      ⟨(createDirAll t cwd outputFolder).2, .empty⟩ entries

/-- Nothing outside the output folder is created, changed or removed, and after an extraction
without errors the folder holds every file of the archive, the last one where several go to the
same place. -/
structure ExtractsInto (t : FileTree β) (out : Location)
    (archive : Except AnyError (List (Except AnyError (Entry β))))
    (r : Except AnyError Unit × FileTree β) : Prop where
  outside : ∀ l, ¬ out <+: l → r.2.node l = t.node l
  contents : r.1 = .ok () → ∀ entries, archive = .ok entries →
    ∀ entry ∈ entries, ∀ l, contentsAt out l entry ≠ none →
      ∃ x, lastContents out l entries = some x ∧ out <+: l ∧ r.2.node l = some (.file x)

/-- **When extraction stays in its folder.** The output folder is any path whose parent is a
directory, the archive any sequence of entries. Extraction touches nothing outside the folder,
and fills it as the archive says, exactly if every entry that is reached has all that is missing
on the way to its own folder inside the output folder. -/
theorem extractsInto_iff (t : FileTree β) (cwd : Location)
    (archive : Except AnyError (List (Except AnyError (Entry β)))) (outputFolder parent : Path)
    (hparent : outputFolder.parent = some parent) (d : Location)
    (hres : canonicalize t cwd parent = .ok d) (hd : t.node d = some .dir) :
    ExtractsInto t (outputFolder.locate cwd) archive (extractTarball t cwd archive outputFolder) ↔
      ArchiveContained t cwd archive outputFolder := by
  have hfolder : ∀ l, ¬ outputFolder.locate cwd <+: l →
      (createDirAll t cwd outputFolder).2.node l = t.node l :=
    fun l => createDirAll_outside hparent hres hd
  rw [extractTarball_eq]
  cases hmade : (createDirAll t cwd outputFolder).1 with
  | error e =>
    refine ⟨fun _ _ _ hok => ?_, fun _ => ⟨hfolder, nofun⟩⟩
    rw [hmade] at hok
    cases hok
  | ok u =>
    cases archive with
    | error e => exact ⟨fun _ _ h => (nomatch h), fun _ => ⟨hfolder, nofun⟩⟩
    | ok entries =>
      have hs : DirsChecked cwd (outputFolder.locate cwd)
          (⟨(createDirAll t cwd outputFolder).2, .empty⟩ : ExtractState β) :=
        fun dir h => absurd h (HashSet.not_mem_empty dir)
      have hiff := extractEntries_outside_iff hs entries
      constructor
      · rintro ⟨hout, _⟩ entries' h _
        cases h
        refine hiff.mp fun m hm => ?_
        rw [hfolder m hm]
        exact hout m hm
      · intro hcont
        refine ⟨fun l hl => ?_, fun hok entries' h entry hentry l hx => ?_⟩
        · exact (hiff.mpr (hcont entries rfl hmade) l hl).trans (hfolder l hl)
        · cases h
          cases hlast : lastContents (outputFolder.locate cwd) l entries with
          | none => exact absurd (lastContents_eq_none.mp hlast entry hentry) hx
          | some x => exact ⟨x, rfl, extractEntries_contents hs hok hlast⟩

def cacheTree : FileTree String := (root.createDirAll [] [.normal "cache"]).2

/-- The entry of a file or directory with the given pieces between the separators of its path. -/
def entryAt (entryType : EntryType) (segments : List String) (contents : String) :
    Except AnyError (Entry String) :=
  .ok ⟨.ok (ofSegments segments), entryType, contents⟩

/-- A directory, a file in it, and the same file once more by a roundabout way. -/
theorem extractsInto_iff_package : ExtractsInto cacheTree ["cache", "pkg"]
      (.ok [entryAt .directory ["package", "lib"] "",
        entryAt .regular ["package", "lib", "a.js"] "old",
        entryAt .regular ["package", "lib", "..", "lib", "a.js"] "new"])
      (extractTarball cacheTree [] (.ok [entryAt .directory ["package", "lib"] "",
          entryAt .regular ["package", "lib", "a.js"] "old",
          entryAt .regular ["package", "lib", "..", "lib", "a.js"] "new"])
        (ofSegments ["", "cache", "pkg"])) := by
  refine (extractsInto_iff cacheTree [] _ (ofSegments ["", "cache", "pkg"])
    (ofSegments ["", "cache"]) (by decide) ["cache"] rfl (by decide)).mpr ?_
  intro entries h _
  cases h
  exact ⟨by decide, fun _ => ⟨by decide, fun _ => ⟨by decide, fun _ => trivial⟩⟩⟩

/-- A directory beside the output folder is created before the check rejects it, and another one
is created without any error when the path comes back. -/
theorem extractTarball_escapes :
    (extractTarball cacheTree [] (.ok [entryAt .directory ["package", "..", "evil"] ""])
        (ofSegments ["", "cache", "pkg"])).1.isOk = false ∧
      cacheTree.node ["cache", "evil"] = none ∧
      (extractTarball cacheTree [] (.ok [entryAt .directory ["package", "..", "evil"] ""])
        (ofSegments ["", "cache", "pkg"])).2.node ["cache", "evil"] = some .dir ∧
      (extractTarball cacheTree []
        (.ok [entryAt .regular ["package", "..", "evil", "..", "pkg", "a.js"] ""])
        (ofSegments ["", "cache", "pkg"])).1 = .ok () ∧
      (extractTarball cacheTree []
        (.ok [entryAt .regular ["package", "..", "evil", "..", "pkg", "a.js"] ""])
        (ofSegments ["", "cache", "pkg"])).2.node ["cache", "evil"] = some .dir := by
  refine ⟨by decide, by decide, by decide, rfl, by decide⟩

end Deno
