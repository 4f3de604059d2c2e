import Mathlib.Data.List.Nodup
import Mathlib.Data.List.Perm.Basic

/-!
# Hash sets

A hash set is a list without repetitions. The list order stands for nothing: whoever iterates
over a set says in which order, by an `IterOrder`, and no result may depend on it.
-/

namespace Core

/-- The order in which an unordered collection happens to be iterated. -/
structure IterOrder (α : Type*) where
  run : List α → List α
  perm : ∀ l, (run l).Perm l

def IterOrder.insertion (α : Type*) : IterOrder α := ⟨id, fun l => List.Perm.refl l⟩

/-- A finite set, held as a list without repetitions. -/
structure HashSet (α : Type*) where
  elems : List α
  nodup : elems.Nodup
  deriving DecidableEq

namespace HashSet

variable {α : Type*}

instance : Membership α (HashSet α) := ⟨fun s x => x ∈ s.elems⟩

variable {s : HashSet α} {x : α}

lemma mem_def : x ∈ s ↔ x ∈ s.elems := Iff.rfl

instance [DecidableEq α] (s : HashSet α) (x : α) : Decidable (x ∈ s) :=
  inferInstanceAs (Decidable (x ∈ s.elems))

def empty : HashSet α := ⟨[], List.nodup_nil⟩

@[simp] lemma not_mem_empty (x : α) : ¬ x ∈ (empty : HashSet α) := List.not_mem_nil

def isEmpty (s : HashSet α) : Bool := s.elems.isEmpty

def any (s : HashSet α) (p : α → Bool) : Bool := s.elems.any p

lemma any_eq_true {p : α → Bool} : s.any p = true ↔ ∃ x ∈ s, p x = true := by
  simp [any, mem_def]

lemma isEmpty_eq_false_of_mem (h : x ∈ s) : s.isEmpty = false := by
  rw [mem_def] at h
  cases hs : s.elems with
  | nil => simp [hs] at h
  | cons y ys => simp [isEmpty, hs]

lemma not_mem_of_isEmpty (h : s.isEmpty = true) (x : α) : ¬ x ∈ s := by
  intro hx
  rw [isEmpty_eq_false_of_mem hx] at h
  cases h

lemma isEmpty_of_subset {s t : HashSet α} (h : ∀ x ∈ s, x ∈ t) (ht : t.isEmpty = true) :
    s.isEmpty = true := by
  cases hs : s.elems with
  | nil => simp [isEmpty, hs]
  | cons y ys =>
    have hy : y ∈ s := by simp [mem_def, hs]
    exact absurd (h y hy) (not_mem_of_isEmpty ht y)

lemma any_of_isEmpty (h : s.isEmpty = true) (p : α → Bool) : s.any p = false := by
  rw [Bool.eq_false_iff]
  intro hp
  obtain ⟨x, hx, _⟩ := any_eq_true.mp hp
  exact not_mem_of_isEmpty h x hx

/-- Insertion; an element that is already present is left where it is. -/
def insert [DecidableEq α] (s : HashSet α) (x : α) : HashSet α :=
  if h : x ∈ s.elems then s
  else ⟨s.elems ++ [x], by
    rw [List.nodup_append]
    refine ⟨s.nodup, List.nodup_singleton x, ?_⟩
    intro a ha b hb
    rw [List.mem_singleton] at hb
    rintro rfl
    exact h (hb ▸ ha)⟩

@[simp] lemma mem_insert [DecidableEq α] {s : HashSet α} {x y : α} :
    y ∈ s.insert x ↔ y ∈ s ∨ y = x := by
  unfold insert
  split_ifs with h
  · constructor
    · exact Or.inl
    · rintro (hy | rfl)
      · exact hy
      · exact h
  · simp [mem_def]

/-- Insertion of several elements, in the order of the list. -/
def extend [DecidableEq α] (s : HashSet α) (xs : List α) : HashSet α := xs.foldl insert s

@[simp] lemma mem_extend [DecidableEq α] {s : HashSet α} {xs : List α} {y : α} :
    y ∈ s.extend xs ↔ y ∈ s ∨ y ∈ xs := by
  unfold extend
  induction xs generalizing s with
  | nil => simp
  | cons x xs ih => rw [List.foldl_cons, ih, mem_insert, List.mem_cons, or_assoc]

def ofList [DecidableEq α] (xs : List α) : HashSet α := empty.extend xs

@[simp] lemma mem_ofList [DecidableEq α] {xs : List α} {y : α} : y ∈ ofList xs ↔ y ∈ xs := by
  simp [ofList]

def retain (s : HashSet α) (p : α → Bool) : HashSet α := ⟨s.elems.filter p, s.nodup.filter p⟩

/-- The elements in the order in which an iteration meets them. -/
def iter (s : HashSet α) (ord : IterOrder α) : List α := ord.run s.elems

@[simp] lemma mem_iter {ord : IterOrder α} : x ∈ s.iter ord ↔ x ∈ s :=
  (ord.perm s.elems).mem_iff

end HashSet

end Core
