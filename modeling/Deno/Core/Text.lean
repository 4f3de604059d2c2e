import Mathlib.Algebra.Ring.Nat
import Mathlib.Algebra.BigOperators.Group.List.Basic
import Mathlib.Data.String.Basic
import Mathlib.Order.Nat

/-!
# Texts and positions

A text is a list of characters. An offset into it counts the bytes of its UTF-8 encoding; a
position is a line and a column, the column in units of UTF-16. Only some offsets and some
positions lie between two characters; a text can be split at those. Positions grow along a text,
so a position belongs to one place in it at most.
-/

namespace Core

open String (utf8Len)

/-! ### Lengths -/

variable (c : Char)

def charUtf16 : ℕ := if c.val ≤ 0xFFFF then 1 else 2

def utf16Len (cs : List Char) : ℕ := (cs.map charUtf16).sum

@[simp] lemma utf16Len_cons (cs : List Char) :
    utf16Len (c :: cs) = charUtf16 c + utf16Len cs := List.sum_cons

lemma charUtf16_pos : 0 < charUtf16 c := by
  unfold charUtf16
  split_ifs <;> decide

lemma charUtf16_eq : charUtf16 c = if c.utf8Size = 4 then 2 else 1 := by
  unfold charUtf16 Char.utf8Size
  simp only [UInt32.le_iff_toNat_le]
  split_ifs <;> simp_all <;> omega

/-! ### Splitting at an offset -/

/-- Split a text behind the given number of bytes, if a character ends there. -/
def splitBytes : ℕ → List Char → Option (List Char × List Char)
  | n, [] => if n = 0 then some ([], []) else none
  | n, c :: cs =>
    if n = 0 then some ([], c :: cs)
    else if c.utf8Size ≤ n then
      (splitBytes (n - c.utf8Size) cs).map fun (before, after) => (c :: before, after)
    else none

lemma splitBytes_append (before after : List Char) :
    splitBytes (utf8Len before) (before ++ after) = some (before, after) := by
  induction before with
  | nil => cases after <;> rfl
  | cons c cs ih =>
    have hpos := c.utf8Size_pos
    rw [List.cons_append, splitBytes, String.utf8Len_cons, if_neg (by omega), if_pos (by omega),
      Nat.add_sub_cancel, ih]
    rfl

lemma eq_of_splitBytes {n : ℕ} {cs before after : List Char}
    (h : splitBytes n cs = some (before, after)) : cs = before ++ after ∧ utf8Len before = n := by
  induction cs generalizing n before with
  | nil =>
    unfold splitBytes at h
    split_ifs at h with hn
    cases h
    exact ⟨rfl, hn.symm⟩
  | cons c cs ih =>
    unfold splitBytes at h
    split_ifs at h with hn hc
    · cases h
      exact ⟨rfl, hn.symm⟩
    · obtain ⟨⟨before', after'⟩, hsplit, heq⟩ := Option.map_eq_some_iff.mp h
      cases heq
      obtain ⟨rfl, hlen⟩ := ih hsplit
      refine ⟨rfl, ?_⟩
      rw [String.utf8Len_cons]
      omega

/-! ### Positions -/

structure Position where
  line : ℕ
  character : ℕ
  deriving DecidableEq

namespace Position

def advance (p : Position) (c : Char) : Position :=
  if c = '\n' then ⟨p.line + 1, 0⟩ else ⟨p.line, p.character + charUtf16 c⟩

def after (p : Position) (cs : List Char) : Position := cs.foldl advance p

/-- Positions are ordered by their lines and then by their columns. -/
def Precedes (p q : Position) : Prop :=
  p.line < q.line ∨ (p.line = q.line ∧ p.character ≤ q.character)

instance (p q : Position) : Decidable (p.Precedes q) := inferInstanceAs (Decidable (_ ∨ _))

variable (p : Position)

@[simp] lemma after_nil : p.after [] = p := rfl

@[simp] lemma after_cons (c : Char) (cs : List Char) :
    p.after (c :: cs) = (p.advance c).after cs := rfl

lemma after_append (cs ds : List Char) :
    p.after (cs ++ ds) = (p.after cs).after ds := List.foldl_append

/-- Behind some text the position is a later one. -/
lemma not_after_precedes {cs : List Char} (hcs : cs ≠ []) (p : Position) :
    ¬ (p.after cs).Precedes p := by
  have hadvance : ∀ (p : Position) (c : Char), p.line < (p.advance c).line ∨
      (p.line = (p.advance c).line ∧ p.character < (p.advance c).character) := by
    intro p c
    have := charUtf16_pos c
    unfold advance
    split_ifs
    · exact Or.inl (Nat.lt_succ_self _)
    · exact Or.inr ⟨rfl, Nat.lt_add_of_pos_right this⟩
  induction cs generalizing p with
  | nil => exact absurd rfl hcs
  | cons c cs ih =>
    have hfirst := hadvance p c
    rw [after_cons]
    by_cases hnil : cs = []
    · subst hnil
      rw [after_nil]
      unfold Precedes
      omega
    · have hrest := ih hnil (p.advance c)
      unfold Precedes at hrest ⊢
      omega

lemma precedes_refl : p.Precedes p := Or.inr ⟨rfl, le_rfl⟩

lemma precedes_after (cs : List Char) : p.Precedes (p.after cs) := by
  by_cases h : cs = []
  · rw [h]
    exact p.precedes_refl
  · have := not_after_precedes h p
    unfold Precedes at this ⊢
    omega

/-- Two places of one text are in the order of their positions. -/
lemma exists_append_of_precedes {p : Position} {a b c d : List Char} (h : a ++ b = c ++ d)
    (hle : (p.after a).Precedes (p.after c)) : ∃ m, c = a ++ m := by
  rcases List.append_eq_append_iff.mp h with ⟨m, hc, _⟩ | ⟨m, ha, _⟩
  · exact ⟨m, hc⟩
  · by_cases hm : m = []
    · subst hm
      exact ⟨[], by rw [ha, List.append_nil, List.append_nil]⟩
    · rw [ha, after_append] at hle
      exact absurd hle (not_after_precedes hm _)

end Position

def positionAfter (cs : List Char) : Position := Position.after ⟨0, 0⟩ cs

/-- Split a text at a position, the text starting at the given one. -/
def splitFrom (target : Position) : Position → List Char → Option (List Char × List Char)
  | p, [] => if p = target then some ([], []) else none
  | p, c :: cs =>
    if p = target then some ([], c :: cs)
    else (splitFrom target (p.advance c) cs).map fun (before, after) => (c :: before, after)

def splitAtPosition (target : Position) (text : List Char) : Option (List Char × List Char) :=
  splitFrom target ⟨0, 0⟩ text

lemma eq_of_splitFrom {target p : Position} {cs before after : List Char}
    (h : splitFrom target p cs = some (before, after)) :
    cs = before ++ after ∧ p.after before = target := by
  induction cs generalizing p before with
  | nil =>
    unfold splitFrom at h
    split_ifs at h with hp
    cases h
    exact ⟨rfl, hp⟩
  | cons c cs ih =>
    unfold splitFrom at h
    split_ifs at h with hp
    · cases h
      exact ⟨rfl, hp⟩
    · obtain ⟨⟨before', after'⟩, hsplit, heq⟩ := Option.map_eq_some_iff.mp h
      cases heq
      obtain ⟨rfl, htarget⟩ := ih hsplit
      exact ⟨rfl, htarget⟩

lemma splitFrom_append (p : Position) (before after : List Char) :
    splitFrom (p.after before) p (before ++ after) = some (before, after) := by
  induction before generalizing p with
  | nil => cases after <;> simp [splitFrom]
  | cons c cs ih =>
    -- the text is not split before, since positions grow
    have hne : ¬ p = p.after (c :: cs) := by
      intro heq
      refine Position.not_after_precedes (List.cons_ne_nil c cs) p ?_
      rw [← heq]
      exact p.precedes_refl
    rw [List.cons_append, splitFrom, if_neg hne, Position.after_cons, ih]
    rfl

/-- A text splits at a position exactly into what is in front of it and what is behind. -/
lemma splitAtPosition_eq_some {target : Position} {text before after : List Char} :
    splitAtPosition target text = some (before, after) ↔
      text = before ++ after ∧ positionAfter before = target := by
  constructor
  · exact eq_of_splitFrom
  · rintro ⟨rfl, rfl⟩
    exact splitFrom_append _ before after

end Core
