import Deno.Core.Bytes

/-!
# Buffers

A buffer has a fixed number of bytes. Parts of it are read, and written in place.
-/

namespace Core

open List

/-- The part of a buffer that a view with the given offset and length shows. -/
def slice (buffer : Bytes) (offset length : ℕ) : Bytes := (buffer.drop offset).take length

def writeAt (buffer : Bytes) (offset : ℕ) (data : Bytes) : Bytes :=
  buffer.take offset ++ data ++ buffer.drop (offset + data.length)

variable {buffer data : Bytes} {offset start m n : ℕ}

@[simp] lemma slice_zero : slice buffer offset 0 = [] := take_zero

lemma length_slice (h : offset + n ≤ buffer.length) : (slice buffer offset n).length = n := by
  rw [slice, length_take, length_drop]
  omega

lemma length_writeAt (h : offset + data.length ≤ buffer.length) :
    (writeAt buffer offset data).length = buffer.length := by
  rw [writeAt, length_append, length_append, length_take, length_drop]
  omega

lemma slice_add : slice buffer offset (m + n) = slice buffer offset m ++ slice buffer (offset + m) n := by
  rw [slice, take_add, drop_drop, slice, slice]

variable {rest : Bytes}

lemma slice_append_left (h : offset + n ≤ buffer.length) :
    slice (buffer ++ rest) offset n = slice buffer offset n := by
  rw [slice, drop_append_of_le_length (by omega), take_append_of_le_length, slice]
  rw [length_drop]
  omega

lemma slice_append_right (h : buffer.length ≤ offset) :
    slice (buffer ++ rest) offset n = slice rest (offset - buffer.length) n := by
  rw [slice, drop_append, drop_eq_nil_of_le h, nil_append, slice]

lemma slice_append (h : offset ≤ buffer.length) :
    slice (buffer ++ rest) offset (buffer.length - offset + n) =
      slice buffer offset (buffer.length - offset) ++ slice rest 0 n := by
  rw [slice_add, slice_append_left (by omega), slice_append_right (by omega)]
  congr 2
  omega

lemma slice_congr {other : Bytes} (h : buffer.take n = other.take n) (hle : offset + m ≤ n) :
    slice buffer offset m = slice other offset m := by
  have hpart : ∀ b : Bytes, slice b offset m = ((b.take n).drop offset).take m := by
    intro b
    rw [drop_take, take_take, Nat.min_eq_left (by omega), slice]
  rw [hpart buffer, hpart other, h]

lemma slice_writeAt (h : offset ≤ buffer.length) :
    slice (writeAt buffer offset data) offset data.length = data := by
  have htake : (buffer.take offset).length = offset := by
    rw [length_take, Nat.min_eq_left h]
  rw [slice, writeAt, append_assoc, drop_left' htake, take_left' rfl]

@[simp] lemma writeAt_nil : writeAt buffer offset [] = buffer := by
  rw [writeAt, append_nil, length_nil, Nat.add_zero, take_append_drop]

lemma writeAt_append {more : Bytes} (h : offset ≤ buffer.length) :
    writeAt (writeAt buffer offset data) (offset + data.length) more =
      writeAt buffer offset (data ++ more) := by
  have hlength : (buffer.take offset ++ data).length = offset + data.length := by
    rw [length_append, length_take, Nat.min_eq_left h]
  rw [writeAt, writeAt, take_left' hlength, ← drop_drop, drop_left' hlength,
    drop_drop, writeAt, length_append, append_assoc (buffer.take offset),
    Nat.add_assoc]

lemma take_writeAt (h : offset ≤ buffer.length) :
    (writeAt buffer offset data).take offset = buffer.take offset := by
  rw [writeAt, append_assoc]
  exact take_left' (by rw [length_take, Nat.min_eq_left h])

lemma slice_writeAt_add (h : start + n ≤ buffer.length) :
    slice (writeAt buffer (start + n) data) start (n + data.length) = slice buffer start n ++ data := by
  rw [slice_add, slice_writeAt h, slice_congr (take_writeAt h) (Nat.le_refl _)]

end Core
