import Deno.Core.Transport

/-!
# Buffered readers

A buffered reader keeps what it has read until it is consumed, and reads again when nothing is left.
What is asked of one is the rule for filling its buffer; the reader of a transport follows it.
-/

namespace Core

/-- The operations of a buffered reader. It is in order if it has room and does not fail. -/
class AsyncBufRead (R : Type*) (ε : outParam Type*) where
  pollFillBuf : R → Poll ε × R
  consume : R → ℕ → R
  /-- The bytes at the start of the buffer are replaced. -/
  overwrite : R → Bytes → R
  buffer : R → Bytes
  /-- What is still to be read, beginning with the buffer. -/
  rest : R → Bytes
  /-- A bound on the number of times the buffer is filled. -/
  weight : R → ℕ
  InOrder : R → Prop

open AsyncBufRead

inductive FillRule {R ε : Type*} [AsyncBufRead R ε] (r : R) : Poll ε → R → Prop where
  | pending (r' : R) (horder : InOrder r → InOrder r') (hrest : rest r' = rest r)
      (hweight : weight r' < weight r) : FillRule r .pending r'
  | data (r' : R) (horder : InOrder r → InOrder r') (hrest : rest r' = rest r)
      (hne : buffer r' ≠ []) (hweight : weight r' ≤ weight r) : FillRule r (.ready (buffer r')) r'
  | closed (hrest : InOrder r → rest r = []) : FillRule r (.ready []) r
  | failed (r' : R) (error : ε) (horder : ¬ InOrder r) : FillRule r (.failed error) r'

class LawfulBufRead (R : Type*) (ε : outParam Type*) extends AsyncBufRead R ε where
  fillRule : ∀ {r r' : R} {poll : Poll ε}, pollFillBuf r = (poll, r') → FillRule r poll r'
  buffer_isPrefix : ∀ r : R, buffer r <+: rest r
  rest_consume : ∀ {r : R} {n : ℕ}, n ≤ (buffer r).length → rest (consume r n) = (rest r).drop n
  consume_zero : ∀ r : R, consume r 0 = r
  inOrder_consume : ∀ {r : R} (n : ℕ), InOrder r → InOrder (consume r n)
  weight_consume_lt : ∀ {r : R}, buffer r ≠ [] → weight (consume r (buffer r).length) < weight r
  length_rest_overwrite : ∀ {r : R} {bytes : Bytes}, bytes.length ≤ (buffer r).length →
    (rest (overwrite r bytes)).length = (rest r).length
  overwrite_consume : ∀ {r : R} {bytes : Bytes} {n : ℕ}, bytes.length = n →
    consume (overwrite r bytes) n = consume r n

export LawfulBufRead (fillRule buffer_isPrefix rest_consume consume_zero inOrder_consume
  weight_consume_lt length_rest_overwrite overwrite_consume)

/-- What the buffer is filled with next. -/
def nextFill {R ε : Type*} [LawfulBufRead R ε] (r : R) : Bytes :=
  match _hpoll : pollFillBuf r with
  | (.pending, r') => nextFill r'
  | (.ready available, _) => available
  | (.failed _, _) => []
termination_by weight r
decreasing_by
  cases fillRule _hpoll with
  | pending _ _ _ hweight => exact hweight

/-! ### The reader of a transport -/

structure BufReader (ε : Type*) where
  inner : Transport ε
  capacity : ℕ
  buffer : Bytes

namespace BufReader

variable {ε : Type*}

def withCapacity (capacity : ℕ) (inner : Transport ε) : BufReader ε := ⟨inner, capacity, []⟩

/-- The contents of the buffer, which is filled if it is empty. -/
def pollFillBuf (r : BufReader ε) : Poll ε × BufReader ε :=
  if r.buffer = [] then
    match r.inner.pollRead r.capacity with
    | (.pending, inner) => (.pending, { r with inner := inner })
    | (.ready bytes, inner) => (.ready bytes, { r with inner := inner, buffer := bytes })
    | (.failed error, inner) => (.failed error, { r with inner := inner })
  else (.ready r.buffer, r)

instance : AsyncBufRead (BufReader ε) ε where
  pollFillBuf := pollFillBuf
  consume r n := { r with buffer := r.buffer.drop n }
  overwrite r bytes := { r with buffer := bytes ++ r.buffer.drop bytes.length }
  buffer := buffer
  rest r := r.buffer ++ r.inner.bytes
  weight r := r.buffer.length + r.inner.weight
  InOrder r := 0 < r.capacity ∧ r.inner.failure = none

theorem fillRule_of_pollFillBuf {r r' : BufReader ε} {poll : Poll ε}
    (h : r.pollFillBuf = (poll, r')) : FillRule r poll r' := by
  unfold pollFillBuf at h
  split_ifs at h with hbuffer
  · cases hpoll : r.inner.pollRead r.capacity with
    | mk answer inner =>
      rw [hpoll] at h
      have hself : { r with buffer := [] } = r := by rw [← hbuffer]
      cases Transport.PollRule.of_pollRead hpoll with
      | pending _ hbytes hfailure hweight =>
        cases h
        refine .pending _ (And.imp_right hfailure.trans) ?_ ?_
        · simp [rest, hbytes]
        · simp only [weight]
          omega
      | data piece _ hne _ hbytes hfailure hweight =>
        cases h
        refine .data { r with inner := inner, buffer := piece }
          (And.imp_right hfailure.trans) ?_ hne ?_
        · simp [rest, hbuffer, hbytes]
        · simp only [weight]
          omega
      | noRoom hroom =>
        cases h
        rw [hself]
        exact .closed fun horder => absurd hroom (Nat.ne_of_gt horder.1)
      | closed hbytes hfailure =>
        cases h
        rw [hself]
        exact .closed fun _ => by simp [rest, hbuffer, hbytes]
      | failed error _ hfailure =>
        cases h
        exact .failed _ error fun horder => by simp [horder.2] at hfailure
  · cases h
    exact .data r id rfl hbuffer (Nat.le_refl _)

instance : LawfulBufRead (BufReader ε) ε where
  fillRule := fillRule_of_pollFillBuf
  buffer_isPrefix r := List.prefix_append _ _
  rest_consume h := (List.drop_append_of_le_length h).symm
  consume_zero _ := rfl
  inOrder_consume _ h := h
  weight_consume_lt {r} h := by
    have := List.length_pos_iff.mpr h
    simp only [weight, consume, AsyncBufRead.buffer, List.drop_length, List.length_nil] at *
    omega
  length_rest_overwrite {r bytes} h := by
    simp only [rest, overwrite, AsyncBufRead.buffer, List.length_append, List.length_drop] at *
    omega
  overwrite_consume {r bytes n} h := by
    subst h
    simp [overwrite, consume]

lemma inOrder_withCapacity {capacity : ℕ} {inner : Transport ε} (hcapacity : 0 < capacity)
    (hfailure : inner.failure = none) : InOrder (withCapacity capacity inner) :=
  ⟨hcapacity, hfailure⟩

end BufReader

end Core
