import Mathlib.Algebra.Ring.Nat
import Mathlib.Data.List.Basic

/-!
# Paths by components

A path is compared, hashed and matched against a base path component by component, so it is held
as the sequence of its components: a leading root or `.`, then names and `..`. Interior `.`
components and repeated separators never show up in that sequence.
-/

namespace Core

open List

inductive Component where
  | rootDir
  | curDir
  | parentDir
  | normal (name : String)
  deriving DecidableEq

def Component.text : Component → String
  | .rootDir => ""
  | .curDir => "."
  | .parentDir => ".."
  | .normal name => name

/-- A path: its components, of which only the first can be the root or `.`. -/
structure Path where
  comps : List Component
  wf : ∀ c ∈ comps.tail, c ≠ .rootDir ∧ c ≠ .curDir
  deriving DecidableEq

namespace Path

def empty : Path := ⟨[], by simp⟩

def isEmpty (p : Path) : Bool := p.comps.isEmpty

def isAbsolute (p : Path) : Bool := p.comps.head? == some .rootDir

/-- `p` starts with `base`: the components of `base` are the first ones of `p`. -/
def startsWith (p base : Path) : Bool := base.comps.isPrefixOf p.comps

lemma startsWith_iff {p base : Path} : p.startsWith base = true ↔ base.comps <+: p.comps :=
  isPrefixOf_iff_prefix

/-- The component a piece between two separators stands for, away from the front of a path. -/
def componentOfSegment (s : String) : Option Component :=
  if s = "" ∨ s = "." then none
  else if s = ".." then some .parentDir
  else some (.normal s)

variable {c : Component}

lemma componentOfSegment_ne {s : String} (h : componentOfSegment s = some c) :
    c ≠ .rootDir ∧ c ≠ .curDir := by
  unfold componentOfSegment at h
  split_ifs at h <;> cases h <;> simp

/-- Components away from the front are names and `..`. -/
lemma filterMap_segment_ne {ss : List String}
    (h : c ∈ ss.filterMap componentOfSegment) : c ≠ .rootDir ∧ c ≠ .curDir := by
  obtain ⟨s, _, hs⟩ := List.mem_filterMap.mp h
  exact componentOfSegment_ne hs

/-- The path written with the given pieces between its separators. -/
def ofSegments : List String → Path
  | [] => empty
  | s :: ss =>
    if s = "" then
      if ss = [] then empty
      else ⟨.rootDir :: ss.filterMap componentOfSegment, fun _ hc => filterMap_segment_ne hc⟩
    else if s = "." then
      ⟨.curDir :: ss.filterMap componentOfSegment, fun _ hc => filterMap_segment_ne hc⟩
    else
      ⟨(s :: ss).filterMap componentOfSegment,
        fun _ hc => filterMap_segment_ne (mem_of_mem_tail hc)⟩

def ofString (s : String) : Path := ofSegments ((s.toList.splitOn '/').map String.ofList)

def display (p : Path) : String :=
  if p.comps = [.rootDir] then "/" else "/".intercalate (p.comps.map Component.text)

/-- The components of a relative path as they appear behind another path. -/
def interior (p : Path) : List Component := p.comps.filter fun c => c ≠ .rootDir ∧ c ≠ .curDir

lemma interior_ne {p : Path} (h : c ∈ p.interior) : c ≠ .rootDir ∧ c ≠ .curDir := by
  simpa [interior] using (List.mem_filter.mp h).2

/-- `p` followed by `q`; an absolute `q` replaces `p`. -/
def join (p q : Path) : Path :=
  if q.isAbsolute ∨ p.isEmpty then q
  else ⟨p.comps ++ q.interior, by
    intro c hc
    rw [tail_append] at hc
    split_ifs at hc with hp
    · exact interior_ne (mem_of_mem_tail hc)
    · rcases List.mem_append.mp hc with hc | hc
      · exact p.wf c hc
      · exact interior_ne hc⟩

variable {p q : Path}

lemma join_comps (hq : q.isAbsolute = false) (hp : p.isEmpty = false) :
    (p.join q).comps = p.comps ++ q.interior := by
  rw [join, if_neg (by simp [hq, hp])]

/-- The path without its last component; the root and the empty path have no parent. -/
def parent (p : Path) : Option Path :=
  match p.comps.getLast? with
  | none | some .rootDir => none
  | some _ => some ⟨p.comps.dropLast, by
      intro c hc
      rw [tail_dropLast] at hc
      exact p.wf c (dropLast_subset _ hc)⟩

def skip (n : ℕ) (p : Path) : Path :=
  ⟨p.comps.drop n, by
    intro c hc
    rw [tail_drop, Nat.add_comm, ← drop_drop, drop_one] at hc
    exact p.wf c (mem_of_mem_drop hc)⟩

lemma skip_comps (n : ℕ) (p : Path) : (p.skip n).comps = p.comps.drop n := rfl

def stripPrefix (p base : Path) : Option Path :=
  if p.startsWith base then some (p.skip base.comps.length) else none

variable {p base rest : Path}

lemma eq_append_of_stripPrefix (h : p.stripPrefix base = some rest) :
    p.comps = base.comps ++ rest.comps := by
  unfold stripPrefix at h
  split_ifs at h with hstarts
  cases h
  obtain ⟨tail, htail⟩ := startsWith_iff.mp hstarts
  rw [skip_comps, ← htail, drop_left]

lemma stripPrefix_of_eq_append (h : p.comps = base.comps ++ rest.comps) :
    p.stripPrefix base = some rest := by
  have hstarts : p.startsWith base = true := startsWith_iff.mpr ⟨rest.comps, h.symm⟩
  have hrest : p.skip base.comps.length = rest := by
    simp [skip, h]
  rw [stripPrefix, if_pos hstarts, hrest]

lemma comps_join (base : Path) {rest : Path}
    (hrest : ∀ c ∈ rest.comps, c ≠ .rootDir ∧ c ≠ .curDir) :
    (base.join rest).comps = base.comps ++ rest.comps := by
  have habs : rest.isAbsolute = false := by
    rcases hcomps : rest.comps with _ | ⟨c, cs⟩
    · simp [isAbsolute, hcomps]
    · have := hrest c (by rw [hcomps]; exact mem_cons_self)
      simp [isAbsolute, hcomps, this.1]
  by_cases hbase : base.isEmpty
  · have hnil : base.comps = [] := List.isEmpty_iff.mp hbase
    rw [join, if_pos (.inr hbase), hnil, nil_append]
  · have hinterior : rest.interior = rest.comps :=
      List.filter_eq_self.mpr fun c hc => by simpa using hrest c hc
    rw [join_comps habs (Bool.eq_false_iff.mpr hbase), hinterior]

/-- What remains behind a path that is not empty are names and `..`. -/
lemma ne_of_mem_stripPrefix (h : p.stripPrefix base = some rest)
    (hbase : base.comps ≠ []) : ∀ c ∈ rest.comps, c ≠ .rootDir ∧ c ≠ .curDir := by
  intro c hc
  refine p.wf c ?_
  rw [eq_append_of_stripPrefix h, tail_append_of_ne_nil hbase]
  exact mem_append_right _ hc

def fileName (p : Path) : Option String :=
  match p.comps.getLast? with
  | some (.normal name) => some name
  | _ => none

lemma eq_append_of_fileName {p : Path} {name : String} (h : p.fileName = some name) :
    ∃ init, p.comps = init ++ [.normal name] := by
  unfold fileName at h
  split at h
  · rename_i last hlast
    cases h
    exact ⟨_, (dropLast_append_getLast? _ hlast).symm⟩
  · cases h

/-- A name without its extension: the text before the last dot that is not its first character. -/
def stem (name : String) : String :=
  match name.toList.reverse.dropWhile (· ≠ '.') with
  | [] | [_] => name
  | _ :: (c :: before) => String.ofList (c :: before).reverse

def fileStem (p : Path) : Option String := p.fileName.map stem

lemma eq_append_of_parent (h : p.parent = some q) :
    ∃ c, c ≠ .rootDir ∧ p.comps = q.comps ++ [c] := by
  unfold parent at h
  split at h
  · cases h
  · cases h
  · rename_i c hne hc
    cases h
    exact ⟨c, hne, (dropLast_append_getLast? c hc).symm⟩

lemma length_parent (h : p.parent = some q) : q.comps.length < p.comps.length := by
  obtain ⟨_, -, hcomps⟩ := eq_append_of_parent h
  simp [hcomps]

/-- Induction along the directories above a path. -/
@[elab_as_elim]
theorem parent_induction {motive : Path → Prop}
    (step : ∀ p, (∀ q, p.parent = some q → motive q) → motive p) (p : Path) : motive p :=
  step p fun q _h => parent_induction step q
termination_by p.comps.length
decreasing_by exact length_parent _h

end Path

end Core
