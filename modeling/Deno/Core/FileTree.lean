import Deno.Core.Path

/-!
# A tree of directories and files

A file system without links: every location, the list of names on the way from the root, holds a
directory, a file or nothing. Since there are no links, following a path is moving from location
to location by its components, whatever the tree holds; the tree only decides where a walk stops.
-/

namespace Core

open List

/-- A place in the tree: the names on the way from the root. -/
abbrev Location := List String

def Location.toPath (l : Location) : Path :=
  ⟨.rootDir :: l.map .normal, by simp⟩

/-- Where one component leads; the parent of the root is the root. -/
def Location.move (l : Location) : Component → Location
  | .rootDir => []
  | .curDir => l
  | .parentDir => l.dropLast
  | .normal name => l ++ [name]

def Location.locate (l : Location) (cs : List Component) : Location := cs.foldl Location.move l

@[simp] lemma Location.locate_nil (l : Location) : l.locate [] = l := rfl

@[simp] lemma Location.locate_cons (l : Location) (c : Component) (cs : List Component) :
    l.locate (c :: cs) = (l.move c).locate cs := rfl

@[simp] lemma Location.locate_append (l : Location) (cs ds : List Component) :
    l.locate (cs ++ ds) = (l.locate cs).locate ds := foldl_append

lemma Location.locate_map_normal (l k : Location) : k.locate (l.map .normal) = k ++ l := by
  induction l generalizing k with
  | nil => simp
  | cons n l ih => simp [Location.move, ih]

@[simp] lemma Location.locate_toPath (l k : Location) : k.locate l.toPath.comps = l := by
  simp [Location.toPath, Location.move, Location.locate_map_normal]

lemma Location.startsWith_toPath {l k : Location} :
    l.toPath.startsWith k.toPath = true ↔ k <+: l := by
  have hinj : Function.Injective Component.normal := fun a b h => Component.normal.inj h
  rw [Path.startsWith_iff, Location.toPath, Location.toPath, cons_prefix_cons,
    prefix_map_iff_of_injective hinj]
  simp

def Path.origin (cwd : Location) (p : Path) : Location := if p.isAbsolute then [] else cwd

def Path.locate (cwd : Location) (p : Path) : Location := (p.origin cwd).locate p.comps

lemma Path.origin_parent {p q : Path} (h : p.parent = some q) (cwd : Location) :
    p.origin cwd = q.origin cwd := by
  obtain ⟨c, hc, hcomps⟩ := Path.eq_append_of_parent h
  unfold Path.origin Path.isAbsolute
  rw [hcomps]
  cases q.comps with
  | nil => simp [hc]
  | cons c' cs => rfl

inductive Node (β : Type*) where
  | dir
  | file (contents : β)
  deriving DecidableEq

inductive FsError where
  | notFound
  | alreadyExists
  | notADirectory
  | isADirectory
  deriving DecidableEq

/-- The text of an error, as the operating system words it. -/
def FsError.text : FsError → String
  | .notFound => "No such file or directory (os error 2)"
  | .alreadyExists => "File exists (os error 17)"
  | .notADirectory => "Not a directory (os error 20)"
  | .isADirectory => "Is a directory (os error 21)"

/-- A tree: the root is a directory, and what holds something is a directory. -/
structure FileTree (β : Type*) where
  node : Location → Option (Node β)
  root_dir : node [] = some .dir
  parent_dir : ∀ {l n}, node (l ++ [n]) ≠ none → node l = some .dir

namespace FileTree

variable {β : Type*}

def root : FileTree β where
  node l := if l = [] then some .dir else none
  root_dir := rfl
  parent_dir := by simp

/-- The tree with `x` as the entry `n` of the directory `d`, in place of nothing or of a file. -/
def put (t : FileTree β) (d : Location) (n : String) (x : Node β) (hd : t.node d = some .dir)
    (hn : t.node (d ++ [n]) ≠ some .dir) : FileTree β where
  node l := if l = d ++ [n] then some x else t.node l
  root_dir := by simpa using t.root_dir
  parent_dir := by
    intro l m h
    by_cases hl : l ++ [m] = d ++ [n]
    · obtain ⟨rfl, _⟩ := append_inj' hl rfl
      simpa using hd
    · rw [if_neg hl] at h
      have hdir := t.parent_dir h
      have hne : l ≠ d ++ [n] := by
        rintro rfl
        exact hn hdir
      rw [if_neg hne]
      exact hdir

variable {t : FileTree β}

lemma put_node {d : Location} {n : String} {x : Node β}
    {hd : t.node d = some .dir} {hn : t.node (d ++ [n]) ≠ some .dir} (l : Location) :
    (t.put d n x hd hn).node l = if l = d ++ [n] then some x else t.node l := rfl

lemma dir_dropLast {l : Location} (h : t.node l = some .dir) : t.node l.dropLast = some .dir := by
  rcases eq_nil_or_concat l with rfl | ⟨d, n, rfl⟩
  · exact h
  · rw [concat_eq_append, dropLast_concat]
    refine t.parent_dir (n := n) ?_
    rw [← concat_eq_append, h]
    simp

/-! ### Walking -/

/-- `canonicalize`: the location a path leads to, through directories only. -/
def resolve (t : FileTree β) (l : Location) : List Component → Except FsError Location
  | [] => if (t.node l).isSome then .ok l else .error .notFound
  | c :: cs =>
    match t.node l with
    | some .dir => resolve t (l.move c) cs
    | some (.file _) => .error .notADirectory
    | none => .error .notFound

/-- The tree in which the location behind the component is there, as a directory if it was
missing. -/
def enter [DecidableEq β] (t : FileTree β) (l : Location) (hl : t.node l = some .dir) :
    Component → FileTree β
  | .normal n => if hn : t.node (l ++ [n]) = none then t.put l n .dir hl (by simp [hn]) else t
  | _ => t

/-- `create_dir_all`: create every missing directory along the path, up to the first file. -/
def createDirAll [DecidableEq β] (t : FileTree β) (l : Location) :
    List Component → Except FsError Unit × FileTree β
  | [] => if t.node l = some .dir then (.ok (), t) else (.error .alreadyExists, t)
  | c :: cs =>
    if hl : t.node l = some .dir then createDirAll (t.enter l hl c) (l.move c) cs
    else (.error .notADirectory, t)

/-- Write a file: a new one, or in place of another file. Its directory has to be there. -/
def writeFile [DecidableEq β] (t : FileTree β) (l : Location) (cs : List Component) (x : β) :
    Except FsError Unit × FileTree β :=
  match cs.getLast? with
  | some (.normal n) =>
    match t.resolve l cs.dropLast with
    | .error e => (.error e, t)
    | .ok d =>
      if hd : t.node d = some .dir then
        if hn : t.node (d ++ [n]) = some .dir then (.error .isADirectory, t)
        else (.ok (), t.put d n (.file x) hd hn)
      else (.error .notADirectory, t)
  -- the root, `.` and `..` are directories wherever they lead
  | _ =>
    match t.resolve l cs with
    | .error e => (.error e, t)
    | .ok _ => (.error .isADirectory, t)

/-- The locations along the path, up to the first file, that hold nothing. -/
def missing [DecidableEq β] (t : FileTree β) (l : Location) : List Component → List Location
  | [] => []
  | c :: cs =>
    match t.node l with
    | some (.file _) => []
    | _ =>
      if t.node (l.move c) = none then l.move c :: missing t (l.move c) cs
      else missing t (l.move c) cs

/-! ### What a walk finds -/

variable {cs : List Component} {l m : Location}

lemma resolve_eq_ok (h : t.resolve l cs = .ok m) : m = l.locate cs := by
  induction cs generalizing l with
  | nil =>
    simp only [resolve] at h
    split_ifs at h
    exact (Except.ok.inj h).symm
  | cons c cs ih =>
    simp only [resolve] at h
    split at h
    · exact ih h
    · cases h
    · cases h

lemma node_of_resolve (h : t.resolve l cs = .ok m) : t.node l ≠ none := by
  intro hn
  cases cs with
  | nil | cons c cs => simp [resolve, hn] at h

/-- A walk to a directory is the same in every tree that keeps the directories. -/
lemma resolve_of_keeps {t t' : FileTree β}
    (hkeep : ∀ d, t.node d = some .dir → t'.node d = some .dir) (h : t.resolve l cs = .ok m)
    (hm : t.node m = some .dir) : t'.resolve l cs = .ok m := by
  induction cs generalizing l with
  | nil =>
    obtain rfl := resolve_eq_ok h
    simp [resolve, hkeep _ hm]
  | cons c cs ih =>
    simp only [resolve] at h ⊢
    split at h
    · rename_i hl
      rw [hkeep l hl]
      exact ih h
    · cases h
    · cases h

section

variable [DecidableEq β] {l : Location} (hl : t.node l = some .dir)

lemma enter_node (c : Component) (m : Location) : (t.enter l hl c).node m =
      if m = l.move c ∧ t.node m = none then some .dir else t.node m := by
  have hexists : ∀ {k}, t.node k = some .dir → ¬ (m = k ∧ t.node m = none) := by
    rintro k hk ⟨rfl, hn⟩
    rw [hk] at hn
    cases hn
  cases c with
  | rootDir => exact (if_neg (hexists t.root_dir)).symm
  | curDir => exact (if_neg (hexists hl)).symm
  | parentDir => exact (if_neg (hexists (dir_dropLast hl))).symm
  | normal n =>
    by_cases hn : t.node (l ++ [n]) = none
    · simp only [enter, Location.move, dif_pos hn, put_node]
      by_cases hm : m = l ++ [n]
      · simp [hm, hn]
      · simp [hm]
    · have hne : ¬ (m = l.move (.normal n) ∧ t.node m = none) := by
        rintro ⟨rfl, hm⟩
        exact hn hm
      rw [if_neg hne, enter, dif_neg hn]

lemma enter_move (c : Component) : (t.enter l hl c).node (l.move c) ≠ none := by
  rw [enter_node]
  split_ifs with h
  · simp
  · simpa using h

/-- Making a missing directory takes it off the list of missing locations, and no other. -/
lemma mem_missing_of_made {t t' : FileTree β} {a : Location} (ha : t.node a = none)
    (hmade : ∀ m, t'.node m = if m = a then some .dir else t.node m)
    (cs : List Component) : m ∈ t'.missing l cs ∨ m = a ↔ m ∈ t.missing l cs ∨ m = a := by
  induction cs generalizing l with
  | nil => simp [missing]
  | cons c cs ih =>
    -- a file is a file in both trees
    have hfile : ∀ x, t'.node l = some (.file x) ↔ t.node l = some (.file x) := by
      intro x
      rw [hmade]
      split_ifs with h
      · simp [h, ha]
      · rfl
    by_cases hf : ∃ x, t.node l = some (.file x)
    · obtain ⟨x, hx⟩ := hf
      simp [missing, hx, (hfile x).mpr hx]
    · have hcons : ∀ u : FileTree β, (¬ ∃ x, u.node l = some (.file x)) →
          u.missing l (c :: cs) = if u.node (l.move c) = none
            then l.move c :: u.missing (l.move c) cs else u.missing (l.move c) cs := by
        intro u hu
        simp only [missing]
        split
        · exact absurd ⟨_, ‹_›⟩ hu
        · rfl
      rw [hcons t hf, hcons t' (fun ⟨x, hx⟩ => hf ⟨x, (hfile x).mp hx⟩), hmade (l.move c)]
      have ih' := @ih (l.move c)
      by_cases hmove : l.move c = a
      · simp only [hmove, if_true, reduceCtorEq, if_false, ha, mem_cons] at ih' ⊢
        tauto
      · split_ifs
        · simp only [mem_cons]
          tauto
        · exact ih'

/-- `create_dir_all` makes exactly the missing locations directories, whether it succeeds or
not. -/
theorem createDirAll_node (hl : t.node l ≠ none)
    (cs : List Component) (m : Location) : (t.createDirAll l cs).2.node m =
      if m ∈ t.missing l cs then some .dir else t.node m := by
  induction cs generalizing t l with
  | nil =>
    simp only [createDirAll, missing]
    split_ifs <;> simp_all
  | cons c cs ih =>
    by_cases hd : t.node l = some .dir
    · rw [createDirAll, dif_pos hd, ih (enter_move hd c)]
      simp only [missing, hd]
      by_cases hnone : t.node (l.move c) = none
      · have hmade : ∀ k, (t.enter l hd c).node k =
            if k = l.move c then some .dir else t.node k := by
          intro k
          rw [enter_node]
          by_cases hk : k = l.move c
          · simp [hk, hnone]
          · simp [hk]
        have hmem := mem_missing_of_made hnone hmade cs (l := l.move c) (m := m)
        rw [if_pos hnone, enter_node]
        by_cases hm : m = l.move c
        · simp [hm, hnone]
        · simp only [hm, or_false, false_and, if_false, mem_cons, false_or] at hmem ⊢
          rw [if_congr hmem rfl rfl]
      · have hsame : t.enter l hd c = t := by
          cases c with
          | normal n => exact dif_neg hnone
          | rootDir | curDir | parentDir => rfl
        rw [if_neg hnone, hsame]
    · cases hnode : t.node l with
      | none => exact absurd hnode hl
      | some x =>
        cases x with
        | dir => exact absurd hnode hd
        | file y => simp [createDirAll, missing, hnode]

lemma node_eq_none_of_mem_missing (h : m ∈ t.missing l cs) : t.node m = none := by
  induction cs generalizing l with
  | nil => cases h
  | cons c cs ih =>
    simp only [missing] at h
    split at h
    · cases h
    · split_ifs at h with hmove
      · rcases List.mem_cons.mp h with rfl | h
        · exact hmove
        · exact ih h
      · exact ih h

lemma createDirAll_keeps (hl : t.node l ≠ none)
    (cs : List Component) {m : Location} (hm : t.node m ≠ none) :
    (t.createDirAll l cs).2.node m = t.node m := by
  rw [createDirAll_node hl, if_neg fun h => hm (node_eq_none_of_mem_missing h)]

lemma createDirAll_ok (h : (t.createDirAll l cs).1 = .ok ()) :
    (t.createDirAll l cs).2.resolve l cs = .ok (l.locate cs) ∧
      (t.createDirAll l cs).2.node (l.locate cs) = some .dir := by
  induction cs generalizing t l with
  | nil =>
    simp only [createDirAll] at h ⊢
    split_ifs at h ⊢ with hd
    simp [resolve, hd]
  | cons c cs ih =>
    by_cases hd : t.node l = some .dir
    · rw [createDirAll, dif_pos hd] at h ⊢
      obtain ⟨hres, hdir⟩ := ih h
      refine ⟨?_, hdir⟩
      have hl : (t.enter l hd c).node l = some .dir := by
        rw [enter_node, if_neg, hd]
        rw [hd]
        simp
      have hkept := createDirAll_keeps (enter_move hd c) cs (by rw [hl]; simp)
      rw [resolve, hkept, hl]
      exact hres
    · rw [createDirAll, dif_neg hd] at h
      cases h

lemma missing_eq_nil (h : t.resolve l cs = .ok m) : t.missing l cs = [] := by
  induction cs generalizing l with
  | nil => rfl
  | cons c cs ih =>
    simp only [resolve] at h
    split at h
    · rename_i hl
      simp only [missing, hl]
      rw [if_neg (node_of_resolve h), ih h]
    · cases h
    · cases h

/-- Below an existing directory at most the last location is missing. -/
lemma missing_append {l d : Location} (c : Component)
    (h : t.resolve l cs = .ok d) (hd : t.node d = some .dir) :
    ∀ m ∈ t.missing l (cs ++ [c]), m = d.move c := by
  induction cs generalizing l with
  | nil =>
    obtain rfl := resolve_eq_ok h
    intro m hm
    simp only [nil_append, missing, hd] at hm ⊢
    split_ifs at hm
    · exact List.mem_singleton.mp hm
    · cases hm
  | cons c' cs ih =>
    simp only [resolve] at h
    split at h
    · rename_i hl
      simp only [cons_append, missing, hl]
      rw [if_neg (node_of_resolve h)]
      exact ih h
    · cases h
    · cases h

/-- Everything `writeFile` can do: fail and change nothing, or put a file into a directory. -/
inductive WriteRule (t : FileTree β) (l : Location) (cs : List Component) (x : β) :
    Except FsError Unit × FileTree β → Prop where
  | failed (e : FsError) : WriteRule t l cs x (.error e, t)
  | written (init : List Component) (n : String) (d : Location) (hd : t.node d = some .dir)
      (hn : t.node (d ++ [n]) ≠ some .dir) : cs = init ++ [.normal n] →
      t.resolve l init = .ok d → WriteRule t l cs x (.ok (), t.put d n (.file x) hd hn)

theorem WriteRule.of_writeFile (t : FileTree β) (l : Location) (cs : List Component) (x : β) :
    WriteRule t l cs x (t.writeFile l cs x) := by
  unfold writeFile
  split
  · rename_i n hlast
    split
    · exact .failed _
    · rename_i d hres
      split_ifs with hd hn
      · exact .failed _
      · exact .written _ n d hd hn (dropLast_append_getLast? _ hlast).symm hres
      · exact .failed _
  · split
    · exact .failed _
    · exact .failed _

end

end FileTree

end Core
