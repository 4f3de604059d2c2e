import Deno.Core.Bytes

/-!
# UTF-8

Characters are written in one to four bytes. The decoder reads bytes one at a time; it replaces
each maximal part that no character starts with by U+FFFD.
-/

namespace Core

open List

def utf8 (c : Char) : Bytes :=
  let v := c.toNat
  if v < 0x80 then [.ofNat v]
  else if v < 0x800 then [.ofNat (0xC0 + v / 64), .ofNat (0x80 + v % 64)]
  else if v < 0x10000 then
    [.ofNat (0xE0 + v / 4096), .ofNat (0x80 + v / 64 % 64), .ofNat (0x80 + v % 64)]
  else
    [.ofNat (0xF0 + v / 262144), .ofNat (0x80 + v / 4096 % 64), .ofNat (0x80 + v / 64 % 64),
      .ofNat (0x80 + v % 64)]

def encodeUtf8 (cs : List Char) : Bytes := cs.flatMap utf8

lemma char_valid (c : Char) : c.toNat < 0xD800 ∨ 0xDFFF < c.toNat ∧ c.toNat < 0x110000 := c.valid

/-! ### The decoder -/

def replacementChar : Char := '\uFFFD'

/-- The state of the decoder: between characters, or within one, with the code point so far, how
many bytes it still needs, and the range of the next one. -/
inductive Utf8State where
  | ground
  | pending (codePoint left : ℕ) (lower upper : UInt8)
  deriving DecidableEq

namespace Utf8State

def start (b : UInt8) : Utf8State × List Char :=
  if b < 0x80 then (.ground, [Char.ofNat b.toNat])
  else if 0xC2 ≤ b ∧ b ≤ 0xDF then (.pending (b.toNat - 0xC0) 1 0x80 0xBF, [])
  else if 0xE0 ≤ b ∧ b ≤ 0xEF then
    (.pending (b.toNat - 0xE0) 2 (if b = 0xE0 then 0xA0 else 0x80)
      (if b = 0xED then 0x9F else 0xBF), [])
  else if 0xF0 ≤ b ∧ b ≤ 0xF4 then
    (.pending (b.toNat - 0xF0) 3 (if b = 0xF0 then 0x90 else 0x80)
      (if b = 0xF4 then 0x8F else 0xBF), [])
  else (.ground, [replacementChar])

def next : Utf8State → UInt8 → Utf8State × List Char
  | .ground, b => start b
  | .pending codePoint left lower upper, b =>
    if lower ≤ b ∧ b ≤ upper then
      let codePoint := codePoint * 64 + (b.toNat - 0x80)
      if left = 1 then (.ground, [Char.ofNat codePoint])
      else (.pending codePoint (left - 1) 0x80 0xBF, [])
    else ((start b).1, replacementChar :: (start b).2)

def run : Utf8State → Bytes → Utf8State × List Char
  | s, [] => (s, [])
  | s, b :: bs =>
    let (s, out) := s.next b
    let (s', out') := run s bs
    (s', out ++ out')

def finish : Utf8State → List Char
  | .ground => []
  | .pending _ _ _ _ => [replacementChar]

end Utf8State

def decodeUtf8 (bytes : Bytes) : List Char :=
  let (s, out) := Utf8State.ground.run bytes
  out ++ s.finish

namespace Utf8State

variable {s : Utf8State} {a b : Bytes} {c : UInt8}

@[simp] lemma next_ground : Utf8State.ground.next c = start c := rfl

@[simp] lemma run_nil : s.run [] = (s, []) := rfl

lemma run_cons : s.run (c :: b) =
    (((s.next c).1.run b).1, (s.next c).2 ++ ((s.next c).1.run b).2) := rfl

lemma run_append : s.run (a ++ b) =
    (((s.run a).1.run b).1, (s.run a).2 ++ ((s.run a).1.run b).2) := by
  induction a generalizing s with
  | nil => simp
  | cons c a ih => simp [run_cons, ih]

end Utf8State

/-! ### Continuation bytes -/

lemma forall_byte {P : UInt8 → Prop} (h : ∀ n : Fin 256, P (.ofNat n.val)) (b : UInt8) : P b := by
  have hb := h ⟨b.toNat, b.toNat_lt⟩
  rwa [UInt8.ofNat_toNat] at hb

def isContinuation (b : UInt8) : Bool := 0x80 ≤ b && b ≤ 0xBF

namespace Utf8State

/-- Within a character some bytes are missing, and only continuation bytes are accepted. -/
def Ok : Utf8State → Prop
  | .ground => True
  | .pending _ left lower upper => left ≠ 0 ∧ 0x80 ≤ lower ∧ upper ≤ 0xBF

variable {s : Utf8State} {a b : Bytes} {c : UInt8}

lemma start_ok (c : UInt8) : (start c).1.Ok := by
  unfold start
  split_ifs <;> simp [Ok]

lemma next_ok (h : s.Ok) (c : UInt8) : (s.next c).1.Ok := by
  cases s with
  | ground => exact start_ok c
  | pending codePoint left lower upper =>
    simp only [next]
    split_ifs with hrange hlast
    · exact trivial
    · exact ⟨Nat.sub_ne_zero_of_lt (Nat.lt_of_le_of_ne (Nat.pos_of_ne_zero h.1) (Ne.symm hlast)),
        by decide, by decide⟩
    · exact start_ok c

lemma run_ok (h : s.Ok) (a : Bytes) : (s.run a).1.Ok := by
  induction a generalizing s with
  | nil => exact h
  | cons c a ih => exact ih (next_ok h c)

lemma next_of_not_continuation (h : s.Ok) (hc : isContinuation c = false) :
    s.next c = ((start c).1, s.finish ++ (start c).2) := by
  cases s with
  | ground => rfl
  | pending codePoint left lower upper =>
    have hrange : ¬(lower ≤ c ∧ c ≤ upper) := by
      rintro ⟨hge, hle⟩
      have hcont : isContinuation c = true := by
        simp only [isContinuation, Bool.and_eq_true, decide_eq_true_eq]
        exact ⟨UInt8.le_trans h.2.1 hge, UInt8.le_trans hle h.2.2⟩
      rw [hc] at hcont
      cases hcont
    exact if_neg hrange

end Utf8State

/-! ### Cutting bytes -/

section

variable {a b : Bytes}

/-- The bytes can be cut between the two parts: the first one ends between characters, or the
second one does not go on with a continuation byte. -/
def Utf8Cut (a b : Bytes) : Prop :=
  (Utf8State.ground.run a).1 = .ground ∨ ∃ c rest, b = c :: rest ∧ isContinuation c = false

/-- Parts that the bytes can be cut into are decoded on their own. -/
lemma decodeUtf8_append (h : Utf8Cut a b) : decodeUtf8 (a ++ b) = decodeUtf8 a ++ decodeUtf8 b := by
  rcases h with hground | ⟨c, rest, rfl, hc⟩
  · simp [decodeUtf8, Utf8State.run_append, hground, Utf8State.finish]
  · have hok := Utf8State.run_ok (s := .ground) trivial a
    have hnext := Utf8State.next_of_not_continuation hok hc
    simp [decodeUtf8, Utf8State.run_append, Utf8State.run_cons, hnext]

end

/-! ### Decoding what was encoded -/

section

variable {n : ℕ}

lemma char_toNat_of_lt (h : n < 0xD800) : (Char.ofNat n).toNat = n := by
  rw [Char.ofNat, dif_pos (.inl h)]
  rfl

lemma toNat_ofNat_of_lt (h : n < 256) : (UInt8.ofNat n).toNat = n := by
  exact Nat.mod_eq_of_lt h

variable {codePoint left n : ℕ}

lemma next_continuation {lower upper : UInt8} (hn : n < 64)
    (hlower : lower.toNat ≤ 0x80 + n) (hupper : 0x80 + n ≤ upper.toNat) :
    (Utf8State.pending codePoint left lower upper).next (.ofNat (0x80 + n)) =
      if left = 1 then (.ground, [Char.ofNat (codePoint * 64 + n)])
      else (.pending (codePoint * 64 + n) (left - 1) 0x80 0xBF, []) := by
  have hbyte : (UInt8.ofNat (0x80 + n)).toNat = 0x80 + n := toNat_ofNat_of_lt (by omega)
  have hrange : lower ≤ .ofNat (0x80 + n) ∧ .ofNat (0x80 + n) ≤ upper := by
    rw [UInt8.le_iff_toNat_le, UInt8.le_iff_toNat_le, hbyte]
    exact ⟨hlower, hupper⟩
  simp only [Utf8State.next, if_pos hrange, hbyte, Nat.add_sub_cancel_left]

lemma next_middle (hleft : left ≠ 0) (hn : n < 64) :
    (Utf8State.pending codePoint (left + 1) 0x80 0xBF).next (.ofNat (0x80 + n)) =
      (.pending (codePoint * 64 + n) left 0x80 0xBF, []) := by
  rw [next_continuation hn (Nat.le_add_right _ _) (Nat.add_le_add_left (Nat.le_of_lt_succ hn) _),
    if_neg (by omega), Nat.add_sub_cancel]

lemma next_last {codePoint n : ℕ} (hn : n < 64) :
    (Utf8State.pending codePoint 1 0x80 0xBF).next (.ofNat (0x80 + n)) =
      (.ground, [Char.ofNat (codePoint * 64 + n)]) := by
  rw [next_continuation hn (Nat.le_add_right _ _) (Nat.add_le_add_left (Nat.le_of_lt_succ hn) _),
    if_pos rfl]

lemma start_one {v : ℕ} (h : v < 0x80) :
    Utf8State.start (.ofNat v) = (.ground, [Char.ofNat v]) := by
  have hbyte : (UInt8.ofNat v).toNat = v := toNat_ofNat_of_lt (by omega)
  have hlt : UInt8.ofNat v < 0x80 := by
    rw [UInt8.lt_iff_toNat_lt, hbyte]
    exact h
  rw [Utf8State.start, if_pos hlt, hbyte]

lemma start_two : ∀ n < 32, 2 ≤ n →
    Utf8State.start (.ofNat (0xC0 + n)) = (.pending n 1 0x80 0xBF, []) := by decide

lemma start_three : ∀ n < 16, Utf8State.start (.ofNat (0xE0 + n)) =
    (.pending n 2 (if n = 0 then 0xA0 else 0x80) (if n = 0xD then 0x9F else 0xBF), []) := by decide

lemma start_four : ∀ n < 5, Utf8State.start (.ofNat (0xF0 + n)) =
    (.pending n 3 (if n = 0 then 0x90 else 0x80) (if n = 4 then 0x8F else 0xBF), []) := by decide

lemma run_utf8 (c : Char) : Utf8State.ground.run (utf8 c) = (.ground, [c]) := by
  have hvalid := char_valid c
  have hchar := Char.ofNat_toNat c
  unfold utf8
  generalize c.toNat = v at hvalid hchar
  dsimp only
  split_ifs with h₁ h₂ h₃
  · simp [Utf8State.run_cons, start_one h₁, hchar]
  · have hv : v / 64 * 64 + v % 64 = v := by omega
    have hlead := start_two (v / 64) (by omega) (by omega)
    have hlast := @next_last (v / 64) (v % 64) (by omega)
    simp only [Utf8State.run_cons, Utf8State.next_ground, hlead, hlast, Utf8State.run_nil, hv,
      hchar, nil_append, append_nil]
  · have hv : (v / 4096 * 64 + v / 64 % 64) * 64 + v % 64 = v := by omega
    have hlead := start_three (v / 4096) (by omega)
    have hmiddle := (@next_continuation (v / 4096) 2 (v / 64 % 64)
      (if v / 4096 = 0 then 0xA0 else 0x80) (if v / 4096 = 0xD then 0x9F else 0xBF) (by omega)
      (by split_ifs <;> simp only [UInt8.reduceToNat] <;> omega)
      (by split_ifs <;> simp only [UInt8.reduceToNat] <;> omega)).trans (if_neg (by decide))
    have hlast := @next_last (v / 4096 * 64 + v / 64 % 64) (v % 64) (by omega)
    simp only [Utf8State.run_cons, Utf8State.next_ground, hlead, hmiddle, hlast,
      Utf8State.run_nil, hv, hchar, nil_append, append_nil]
  · have hv : ((v / 262144 * 64 + v / 4096 % 64) * 64 + v / 64 % 64) * 64 + v % 64 = v := by omega
    have hlead := start_four (v / 262144) (by omega)
    have hsecond := (@next_continuation (v / 262144) 3 (v / 4096 % 64)
      (if v / 262144 = 0 then 0x90 else 0x80) (if v / 262144 = 4 then 0x8F else 0xBF) (by omega)
      (by split_ifs <;> simp only [UInt8.reduceToNat] <;> omega)
      (by split_ifs <;> simp only [UInt8.reduceToNat] <;> omega)).trans (if_neg (by decide))
    have hthird := @next_middle (v / 262144 * 64 + v / 4096 % 64) 1 (v / 64 % 64) (by omega)
      (by omega)
    have hlast := @next_last ((v / 262144 * 64 + v / 4096 % 64) * 64 + v / 64 % 64) (v % 64)
      (by omega)
    simp only [Utf8State.run_cons, Utf8State.next_ground, hlead, hsecond, hthird, hlast,
      Utf8State.run_nil, hv, hchar, nil_append, append_nil]

variable (cs : List Char)

lemma run_encodeUtf8 : Utf8State.ground.run (encodeUtf8 cs) = (.ground, cs) := by
  induction cs with
  | nil => rfl
  | cons c cs ih =>
    rw [encodeUtf8, flatMap_cons, Utf8State.run_append, run_utf8]
    exact congrArg (fun r => (r.1, [c] ++ r.2)) ih

lemma decodeUtf8_encodeUtf8_append (bytes : Bytes) :
    decodeUtf8 (encodeUtf8 cs ++ bytes) = cs ++ decodeUtf8 bytes := by
  have hcut : Utf8Cut (encodeUtf8 cs) bytes := .inl (by rw [run_encodeUtf8])
  rw [decodeUtf8_append hcut, decodeUtf8, run_encodeUtf8]
  simp [Utf8State.finish]

lemma decodeUtf8_encodeUtf8 : decodeUtf8 (encodeUtf8 cs) = cs := by
  have h := decodeUtf8_encodeUtf8_append cs []
  rwa [append_nil, show decodeUtf8 [] = [] from rfl, append_nil] at h

end

/-! ### Valid bytes -/

/-- The text of bytes that are valid: nothing in them is replaced. -/
def fromUtf8 (bytes : Bytes) : Option (List Char) :=
  if encodeUtf8 (decodeUtf8 bytes) = bytes then some (decodeUtf8 bytes) else none

def chars (bytes : Bytes) : List Char := bytes.map fun b => Char.ofNat b.toNat

lemma encodeUtf8_chars {bytes : Bytes} (h : ∀ b ∈ bytes, b < 0x80) :
    encodeUtf8 (chars bytes) = bytes := by
  induction bytes with
  | nil => rfl
  | cons b bytes ih =>
    rw [forall_mem_cons] at h
    have hb : b.toNat < 0x80 := UInt8.lt_iff_toNat_lt.mp h.1
    have hutf8 : utf8 (Char.ofNat b.toNat) = [b] := by
      simp only [utf8]
      rw [char_toNat_of_lt (by omega), if_pos hb, UInt8.ofNat_toNat]
    rw [chars, map_cons, encodeUtf8, flatMap_cons, hutf8]
    exact congrArg (b :: ·) (ih h.2)

lemma fromUtf8_of_ascii {bytes : Bytes} (h : ∀ b ∈ bytes, b < 0x80) :
    fromUtf8 bytes = some (chars bytes) := by
  have hdecode : decodeUtf8 bytes = chars bytes := by
    rw [← encodeUtf8_chars h, decodeUtf8_encodeUtf8, encodeUtf8_chars h]
  rw [fromUtf8, hdecode, if_pos (encodeUtf8_chars h)]

end Core
