import Deno.Core.Bytes
import Mathlib.Logic.Equiv.Defs

/-!
# Block ciphers

A block cipher permutes the blocks of one length. A mode of operation chains the blocks of a
message, and the message is padded with bytes that say how many of them there are.
-/

namespace Core

open List

variable {n : ℕ}

/-! ### Blocks -/

abbrev Block (n : ℕ) := {b : Bytes // b.length = n}

namespace Block

lemma length_zipWith_xor (a b : Block n) : (List.zipWith (· ^^^ ·) a.1 b.1).length = n := by
  rw [length_zipWith, a.2, b.2, Nat.min_self]

def xor (a b : Block n) : Block n := ⟨List.zipWith (· ^^^ ·) a.1 b.1, length_zipWith_xor a b⟩

@[simp] lemma xor_xor_cancel (a b : Block n) : (a.xor b).xor b = a := by
  apply Subtype.ext
  apply ext_getElem
  · rw [((a.xor b).xor b).2, a.2]
  · intro i _ _
    simp only [xor, getElem_zipWith]
    rw [UInt8.xor_assoc, UInt8.xor_self, UInt8.xor_zero]

def bytes (bs : List (Block n)) : Bytes := (bs.map Subtype.val).flatten

@[simp] lemma bytes_nil : bytes ([] : List (Block n)) = [] := rfl

@[simp] lemma bytes_cons (b : Block n) (bs : List (Block n)) :
    bytes (b :: bs) = b.1 ++ bytes bs := rfl

@[simp] lemma bytes_append (as bs : List (Block n)) : bytes (as ++ bs) = bytes as ++ bytes bs := by
  simp [bytes]

@[simp] lemma length_bytes (bs : List (Block n)) : (bytes bs).length = n * bs.length := by
  induction bs with
  | nil => simp
  | cons b bs ih => rw [bytes_cons, length_append, ih, b.2, length_cons, Nat.mul_succ,
      Nat.add_comm]

end Block

variable {b : Bytes}

lemma exists_bytes_eq (h : n ∣ b.length) : ∃ bs : List (Block n), Block.bytes bs = b := by
  obtain ⟨k, hk⟩ := h
  induction k generalizing b with
  | zero => exact ⟨[], (List.length_eq_zero_iff.mp hk).symm⟩
  | succ k ih =>
    rw [Nat.mul_succ] at hk
    obtain ⟨bs, hbs⟩ := ih (by rw [length_drop, hk, Nat.add_sub_cancel])
    have hle : n ≤ b.length := hk ▸ Nat.le_add_left n _
    refine ⟨⟨b.take n, length_take_of_le hle⟩ :: bs, ?_⟩
    rw [Block.bytes_cons, hbs, take_append_drop]

section

variable [NeZero n]

def blocks (n : ℕ) [NeZero n] (b : Bytes) : List (Block n) :=
  if h : n ≤ b.length then ⟨b.take n, length_take_of_le h⟩ :: blocks n (b.drop n) else []
termination_by b.length
decreasing_by
  have hpos := Nat.pos_of_neZero n
  rw [length_drop]
  omega

lemma blocks_of_lt (h : b.length < n) : blocks n b = [] := by
  rw [blocks, dif_neg (not_le.mpr h)]

@[simp] lemma blocks_nil : blocks n [] = [] := blocks_of_lt (Nat.pos_of_neZero n)

@[simp] lemma blocks_block_append (b : Block n) (rest : Bytes) :
    blocks n (b.1 ++ rest) = b :: blocks n rest := by
  have hle : n ≤ (b.1 ++ rest).length := by
    rw [length_append, b.2]
    exact Nat.le_add_right n _
  rw [blocks, dif_pos hle]
  congr 1
  · exact Subtype.ext (take_left' b.2)
  · rw [drop_left' b.2]

@[simp] lemma blocks_bytes_append (bs : List (Block n)) (rest : Bytes) :
    blocks n (Block.bytes bs ++ rest) = bs ++ blocks n rest := by
  induction bs with
  | nil => rfl
  | cons b bs ih => rw [Block.bytes_cons, append_assoc, blocks_block_append, ih,
      cons_append]

@[simp] lemma blocks_bytes (bs : List (Block n)) : blocks n (Block.bytes bs) = bs := by
  rw [← append_nil (Block.bytes bs), blocks_bytes_append, blocks_nil, append_nil]

@[simp] lemma blocks_block (b : Block n) : blocks n b.1 = [b] := by
  rw [← append_nil b.1, blocks_block_append, blocks_nil]

end

/-! ### Modes of operation -/

/-- A block cipher under a mode, with what the mode keeps of the blocks before. -/
inductive Mode (n : ℕ) where
  | cbc (cipher : Equiv.Perm (Block n)) (iv : Block n)
  | ecb (cipher : Equiv.Perm (Block n))

namespace Mode

def encryptBlock : Mode n → Block n → Block n × Mode n
  | cbc cipher iv, b => (cipher (b.xor iv), cbc cipher (cipher (b.xor iv)))
  | ecb cipher, b => (cipher b, ecb cipher)

def decryptBlock : Mode n → Block n → Block n × Mode n
  | cbc cipher iv, b => ((cipher.symm b).xor iv, cbc cipher b)
  | ecb cipher, b => (cipher.symm b, ecb cipher)

@[simp] lemma decryptBlock_encryptBlock (m : Mode n) (b : Block n) :
    m.decryptBlock (m.encryptBlock b).1 = (b, (m.encryptBlock b).2) := by
  cases m with
  | cbc cipher iv | ecb cipher => simp [encryptBlock, decryptBlock]

def chain (step : Mode n → Block n → Block n × Mode n) :
    Mode n → List (Block n) → List (Block n) × Mode n
  | m, [] => ([], m)
  | m, b :: bs =>
    ((step m b).1 :: (chain step (step m b).2 bs).1, (chain step (step m b).2 bs).2)

variable (step : Mode n → Block n → Block n × Mode n) (m : Mode n)

lemma chain_append (as bs : List (Block n)) :
    chain step m (as ++ bs) = ((chain step m as).1 ++ (chain step (chain step m as).2 bs).1,
      (chain step (chain step m as).2 bs).2) := by
  induction as generalizing m with
  | nil => rfl
  | cons a as ih => simp [chain, ih]

variable (bs : List (Block n))

lemma length_chain : (chain step m bs).1.length = bs.length := by
  induction bs generalizing m with
  | nil => rfl
  | cons b bs ih => rw [chain, length_cons, length_cons, ih]

def encryptBlocks : List (Block n) × Mode n :=
  chain encryptBlock m bs

def decryptBlocks : List (Block n) × Mode n :=
  chain decryptBlock m bs

/-- The mode that decrypts goes through the same states. -/
@[simp] lemma decryptBlocks_encryptBlocks :
    m.decryptBlocks (m.encryptBlocks bs).1 = (bs, (m.encryptBlocks bs).2) := by
  induction bs generalizing m with
  | nil => rfl
  | cons b bs ih =>
    simp only [encryptBlocks, decryptBlocks] at ih
    simp [encryptBlocks, decryptBlocks, chain, ih]

end Mode

/-! ### Padding -/

/-- A message is filled up to whole blocks, and by one more block if it is made of them. -/
def padding (n length : ℕ) : Bytes :=
  List.replicate (n - length % n) (UInt8.ofNat (n - length % n))

def pad (n : ℕ) (b : Bytes) : Bytes := b ++ padding n b.length

/-- The message without its padding, if this is one. -/
def unpad (n : ℕ) (b : Bytes) : Option Bytes :=
  match b.getLast? with
  | none => none
  | some p =>
    if 0 < p.toNat ∧ p.toNat ≤ n ∧ b.drop (b.length - p.toNat) = List.replicate p.toNat p then
      some (b.take (b.length - p.toNat))
    else none

lemma pad_append {a : Bytes} (h : n ∣ a.length) (b : Bytes) : pad n (a ++ b) = a ++ pad n b := by
  obtain ⟨k, hk⟩ := h
  rw [pad, pad, padding, padding, length_append, hk, Nat.mul_add_mod, append_assoc]

lemma length_pad_of_lt (h : b.length < n) : (pad n b).length = n := by
  rw [pad, padding, length_append, length_replicate, Nat.mod_eq_of_lt h]
  omega

lemma pad_eq_of_lt (h : b.length < n) :
    pad n b = b ++ List.replicate (n - b.length) (UInt8.ofNat (n - b.length)) := by
  rw [pad, padding, Nat.mod_eq_of_lt h]

lemma getLast?_pad (h : b.length < n) : (pad n b).getLast? = some (UInt8.ofNat (n - b.length)) := by
  rw [pad_eq_of_lt h, getLast?_append, getLast?_replicate, if_neg (by omega)]
  rfl

lemma toNat_ofNat_sub (hn : n < 256) : (UInt8.ofNat (n - b.length)).toNat = n - b.length := by
  exact Nat.mod_eq_of_lt (by omega)

lemma unpad_pad (hn : n < 256) (h : b.length < n) : unpad n (pad n b) = some b := by
  have hsub : n - (n - b.length) = b.length := by omega
  simp only [unpad, getLast?_pad h, toNat_ofNat_sub hn, length_pad_of_lt h, hsub]
  rw [if_pos, pad_eq_of_lt h, take_left]
  refine ⟨by omega, by omega, ?_⟩
  rw [pad_eq_of_lt h, drop_left]

/-! ### Messages -/

namespace Mode

variable [NeZero n]

def encryptPadded (m : Mode n) (message : Bytes) : Bytes :=
  Block.bytes (m.encryptBlocks (blocks n (pad n message))).1

/-- Blocks are decrypted, and the padding is checked: the blocks, and the message if there is
one. -/
def decryptPadded (m : Mode n) (message : Bytes) : Bytes × Option Bytes :=
  let output := Block.bytes (m.decryptBlocks (blocks n message)).1
  (output, unpad n output)

end Mode

end Core
