import Deno.Core.Split
import Deno.Core.Text
import Mathlib.Data.Prod.Lex

/-!
# Patterns with one star

A pattern is a text with exactly one star. It fits a text that is its part before the star, some
characters, and its part behind the star. Of two patterns for one text the more specific one has
the longer part before the star, or the same and the longer part behind it. How lengths are
counted, in bytes or in units of UTF-16, makes no difference for patterns of one text.
-/

namespace Core

open List

open String (utf8Len)

/-- A text with one star, and its parts. -/
structure StarKey (key pre post : List Char) : Prop where
  eq : key = pre ++ '*' :: post
  pre : '*' ∉ pre
  post : '*' ∉ post

/-- `m` stands for the star in the text. -/
def Fits (key text m : List Char) : Prop :=
  m ≠ [] ∧ ∃ pre post, StarKey key pre post ∧ text = pre ++ (m ++ post)

/-- A way to count: characters add up, and a star counts one. -/
structure TextLength where
  len : List Char → ℕ
  append : ∀ a b, len (a ++ b) = len a + len b
  pos : ∀ a, a ≠ [] → 0 < len a
  star : len ['*'] = 1

def utf8Length : TextLength where
  len := utf8Len
  append := String.utf8Len_append
  pos _ ha := Nat.pos_of_ne_zero fun h => ha (String.utf8Len_eq_zero.mp h)
  star := rfl

def utf16Length : TextLength where
  len := utf16Len
  append a b := by rw [utf16Len, map_append, sum_append]; rfl
  pos a ha := by
    cases a with
    | nil => exact absurd rfl ha
    | cons c cs =>
      rw [utf16Len_cons]
      exact Nat.add_pos_left (charUtf16_pos c) _
  star := rfl

variable {key key' text m m' pre post pre' post' : List Char}

section

variable (h : StarKey key pre post)

include h

lemma StarKey.unique (h' : StarKey key pre' post') : pre = pre' ∧ post = post' := by
  have heq : pre ++ '*' :: post = pre' ++ '*' :: post' := h.eq.symm.trans h'.eq
  obtain ⟨hpre, -, hpost⟩ := (append_cons_inj_of_notMem h.pre h.post).mp heq
  exact ⟨hpre, hpost⟩

lemma StarKey.mem_star : '*' ∈ key := by
  rw [h.eq]
  exact mem_append_right _ mem_cons_self

lemma StarKey.takeWhile_eq : key.takeWhile (· ≠ '*') = pre := by
  rw [h.eq, takeWhile_ne_append h.pre]

end

lemma Fits.eq_of_append (h : Fits key text m) (hkey : StarKey key pre post)
    (htext : text = pre ++ (m' ++ post)) : m = m' := by
  obtain ⟨-, pre', post', hkey', htext'⟩ := h
  obtain ⟨rfl, rfl⟩ := hkey.unique hkey'
  exact append_cancel_right (append_cancel_left (htext'.symm.trans htext))

lemma Fits.unique (h : Fits key text m) (h' : Fits key text m') : m = m' := by
  obtain ⟨-, pre, post, hkey, htext⟩ := h'
  exact h.eq_of_append hkey htext

namespace TextLength

variable (L : TextLength)

lemma len_nil : L.len [] = 0 := by
  have := L.append [] []
  rw [append_nil] at this
  omega

lemma len_starKey (h : StarKey key pre post) : L.len key = L.len pre + 1 + L.len post := by
  rw [h.eq, ← singleton_append, L.append, L.append, L.star, Nat.add_assoc]

/-- A pattern fits a text that begins and ends as it does and is no shorter. -/
lemma fits_iff (h : StarKey key pre post) :
    (∃ m, Fits key text m) ↔ pre <+: text ∧ post <:+ text ∧ L.len key ≤ L.len text := by
  rw [L.len_starKey h]
  constructor
  · rintro ⟨m, hm, pre', post', h', rfl⟩
    obtain ⟨rfl, rfl⟩ := h.unique h'
    have := L.pos m hm
    refine ⟨prefix_append _ _, ⟨pre ++ m, append_assoc _ _ _⟩, ?_⟩
    rw [L.append, L.append]
    omega
  · rintro ⟨⟨rest, rfl⟩, hpost, hlen⟩
    -- the part behind the star cannot reach into the part before it
    rw [L.append] at hlen
    obtain ⟨m, hm⟩ : post <:+ rest := by
      rcases suffix_or_suffix_of_suffix hpost (suffix_append pre rest) with hs | ⟨d, rfl⟩
      · exact hs
      · rw [L.append] at hlen
        omega
    refine ⟨m, ?_, pre, post, h, by rw [hm]⟩
    rintro rfl
    rw [nil_append] at hm
    rw [hm] at hlen
    omega

lemma len_pos_iff (a : List Char) : 0 < L.len a ↔ 0 < a.length := by
  cases a with
  | nil => simp [L.len_nil]
  | cons c cs => simp [L.pos]

/-- Of two beginnings of one text the longer one has the greater length, however it is counted. -/
lemma len_lt_iff_of_prefix {a b : List Char} (ha : a <+: text) (hb : b <+: text) :
    L.len a < L.len b ↔ a.length < b.length := by
  rcases prefix_or_prefix_of_prefix ha hb with ⟨d, rfl⟩ | ⟨d, rfl⟩
  · have := L.len_pos_iff d
    rw [L.append, length_append]
    omega
  · rw [L.append, length_append]
    exact iff_of_false (by omega) (by omega)

lemma len_lt_iff_of_suffix {a b : List Char} (ha : a <:+ text) (hb : b <:+ text) :
    L.len a < L.len b ↔ a.length < b.length := by
  rcases suffix_or_suffix_of_suffix ha hb with ⟨d, rfl⟩ | ⟨d, rfl⟩
  · have := L.len_pos_iff d
    rw [L.append, length_append]
    omega
  · rw [L.append, length_append]
    exact iff_of_false (by omega) (by omega)

end TextLength

/-! ### Specificity -/

/-- Which of two patterns is more specific, by the lengths of their parts: `-1` for the first, `1`
for the second. -/
def compareParts (len : List Char → ℕ) (pre post pre' post' : List Char) : ℤ :=
  if len pre > len pre' then -1
  else if len pre' > len pre then 1
  else if len post > len post' then -1
  else if len post' > len post then 1
  else 0

/-- The lengths of the parts of a pattern, the one before the star counting first. -/
def rank (key : List Char) : ℕ ×ₗ ℕ :=
  toLex ((key.takeWhile (· ≠ '*')).length, (key.dropWhile (· ≠ '*')).length)

lemma StarKey.rank_eq (h : StarKey key pre post) :
    rank key = toLex (pre.length, post.length + 1) := by
  rw [rank, h.takeWhile_eq, h.eq, dropWhile_ne_append h.pre, length_cons]

section

variable (L : TextLength) (h : StarKey key pre post) (h' : StarKey key' pre' post')
variable (hfits : Fits key text m) (hfits' : Fits key' text m')

include h h' hfits hfits'

/-- For patterns of one text it does not matter how lengths are counted. -/
lemma TextLength.compareParts_eq_length :
    compareParts L.len pre post pre' post' = compareParts List.length pre post pre' post' := by
  obtain ⟨hpre, hpost, -⟩ := (L.fits_iff h).mp ⟨m, hfits⟩
  obtain ⟨hpre', hpost', -⟩ := (L.fits_iff h').mp ⟨m', hfits'⟩
  simp [compareParts, L.len_lt_iff_of_prefix hpre hpre', L.len_lt_iff_of_prefix hpre' hpre,
    L.len_lt_iff_of_suffix hpost hpost', L.len_lt_iff_of_suffix hpost' hpost]

lemma TextLength.compareParts_eq_iff :
    (compareParts L.len pre post pre' post' = 1 ↔ rank key < rank key') ∧
      (compareParts L.len pre post pre' post' = -1 ↔ rank key' < rank key) := by
  rw [L.compareParts_eq_length h h' hfits hfits', h.rank_eq, h'.rank_eq, Prod.Lex.toLex_lt_toLex,
    Prod.Lex.toLex_lt_toLex]
  unfold compareParts
  split_ifs <;> simp <;> omega

end

/-- Patterns of one text are told apart by their ranks. -/
lemma eq_of_rank_eq (hfits : Fits key text m) (hfits' : Fits key' text m')
    (hrank : rank key = rank key') : key = key' := by
  obtain ⟨-, pre, post, h, htext⟩ := hfits
  obtain ⟨-, pre', post', h', htext'⟩ := hfits'
  rw [h.rank_eq, h'.rank_eq] at hrank
  obtain ⟨hpre, hpost⟩ := Prod.mk.inj (toLex.injective hrank)
  have heq := htext.symm.trans htext'
  obtain ⟨rfl, hrest⟩ := append_inj heq hpre
  obtain ⟨-, rfl⟩ := append_inj' hrest (Nat.succ.inj hpost)
  rw [h.eq, h'.eq]

end Core
