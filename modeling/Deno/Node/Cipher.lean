import Deno.Core.BlockCipher
import Deno.Core.ExceptLoop
import Deno.Error

/-!
# Ciphers

The classes `Cipheriv` and `Decipheriv` take a message in pieces. They keep what does not fill a
block, and pass whole blocks to the native side, which asserts that it is given these. The one that
decrypts keeps the last block back, since it may hold the padding.
-/

namespace Deno.Node.Crypto

open Core

/-! ### The native side -/

inductive Algorithm where
  | aes128Cbc
  | aes128Ecb
  | aes192Ecb
  | aes256Ecb
  -- also under the name `aes256`
  | aes256Cbc
  deriving DecidableEq

/-- A slice as an array of a fixed size. -/
def genericArray (size : ℕ) (slice : Bytes) : Except AnyError (Block size) :=
  if h : slice.length = size then .ok ⟨slice, h⟩
  else .error (.panic "assertion `left == right` failed")

section

-- The block cipher under a key.
variable (aes : Bytes → Equiv.Perm (Block 16))

def newCbc (keySize : ℕ) (key iv : Bytes) : Except AnyError (Mode 16) := do
  let key ← genericArray keySize key
  let iv ← genericArray 16 iv
  return .cbc (aes key.1) iv

def newEcb (keySize : ℕ) (key : Bytes) : Except AnyError (Mode 16) := do
  let key ← genericArray keySize key
  return .ecb (aes key.1)

def newMode : Algorithm → Bytes → Bytes → Except AnyError (Mode 16)
  | .aes128Cbc, key, iv => newCbc aes 16 key iv
  | .aes128Ecb, key, _ => newEcb aes 16 key
  | .aes192Ecb, key, _ => newEcb aes 24 key
  | .aes256Ecb, key, _ => newEcb aes 32 key
  | .aes256Cbc, key, iv => newCbc aes 32 key iv

variable (algorithm : Algorithm)

def Cipher.new (key iv : Bytes) : Except AnyError (Mode 16) :=
  newMode aes algorithm key iv

def Decipher.new (key iv : Bytes) : Except AnyError (Mode 16) :=
  newMode aes algorithm key iv

end

def eachBlock (step : Mode 16 → Block 16 → Block 16 × Mode 16) (mode : Mode 16) (input : Bytes) :
    Except AnyError (Bytes × Mode 16) :=
  if input.length % 16 = 0 then
    let (output, mode) := Mode.chain step mode (blocks 16 input)
    .ok (Block.bytes output, mode)
  else .error (.panic "assertion failed: input.len() % 16 == 0")

variable (encryptor : Mode 16)

def Cipher.encrypt (input : Bytes) : Except AnyError (Bytes × Mode 16) :=
  eachBlock Mode.encryptBlock encryptor input

variable (decryptor : Mode 16) (input : Bytes)

def Decipher.decrypt : Except AnyError (Bytes × Mode 16) :=
  eachBlock Mode.decryptBlock decryptor input

/-- The rest of a message, padded, in a buffer of the given size. -/
def Cipher.final (size : ℕ) : Except AnyError Bytes :=
  if input.length < 16 then
    if (pad 16 input).length ≤ size then .ok (encryptor.encryptPadded input)
    else .error (typeError "Cannot pad the input data")
  else .error (.panic "assertion failed: input.len() < 16")

/-- The last block of a message. The buffer has the block with its padding. -/
def Decipher.final : Except AnyError Bytes :=
  if input.length = 16 then
    match decryptor.decryptPadded input with
    | (output, some _) => .ok output
    | (_, none) => .error (typeError "Cannot unpad the input data")
  else .error (.panic "assertion failed: input.len() == 16")

/-! ### The classes -/

structure BlockModeCache where
  cache : Bytes
  lastChunkIsNonZero : Bool

namespace BlockModeCache

def add (c : BlockModeCache) (data : Bytes) : BlockModeCache := { c with cache := c.cache ++ data }

def get (c : BlockModeCache) : Option Bytes × BlockModeCache :=
  let len := if c.lastChunkIsNonZero then c.cache.length - 1 else c.cache.length
  if len < 16 then (none, c)
  else
    let len := len / 16 * 16
    (some (c.cache.take len), { c with cache := c.cache.drop len })

end BlockModeCache

/-- An object of one of the classes. -/
structure BlockTransform where
  context : Mode 16
  cache : BlockModeCache

namespace BlockTransform

def update (op : Mode 16 → Bytes → Except AnyError (Bytes × Mode 16)) (t : BlockTransform)
    (data : Bytes) : Except AnyError (Bytes × BlockTransform) :=
  match (t.cache.add data).get with
  | (none, cache) => .ok ([], { t with cache })
  | (some input, cache) => do
    let (output, context) ← op t.context input
    return (output, ⟨context, cache⟩)

end BlockTransform

abbrev Cipheriv := BlockTransform

namespace Cipheriv

def new (aes : Bytes → Equiv.Perm (Block 16)) (algorithm : Algorithm) (key iv : Bytes) :
    Except AnyError Cipheriv := do
  let context ← Cipher.new aes algorithm key iv
  return ⟨context, [], false⟩

def update (c : Cipheriv) (data : Bytes) : Except AnyError (Bytes × Cipheriv) :=
  BlockTransform.update Cipher.encrypt c data

def final (c : Cipheriv) : Except AnyError Bytes := Cipher.final c.context c.cache.cache 16

def run (aes : Bytes → Equiv.Perm (Block 16)) (algorithm : Algorithm) (key iv : Bytes)
    (pieces : List Bytes) : Except AnyError Bytes := do
  let c ← new aes algorithm key iv
  let (output, c) ← collect update c pieces
  let last ← final c
  return output ++ last

end Cipheriv

abbrev Decipheriv := BlockTransform

namespace Decipheriv

def new (aes : Bytes → Equiv.Perm (Block 16)) (algorithm : Algorithm) (key iv : Bytes) :
    Except AnyError Decipheriv := do
  let context ← Decipher.new aes algorithm key iv
  return ⟨context, [], true⟩

def update (d : Decipheriv) (data : Bytes) : Except AnyError (Bytes × Decipheriv) :=
  BlockTransform.update Decipher.decrypt d data

def final (d : Decipheriv) : Except AnyError Bytes := do
  let buf ← Decipher.final d.context d.cache.cache
  -- the padding has been checked, so it is not longer than the block
  return buf.take (16 - (buf.getLast?.getD 0).toNat)

def run (aes : Bytes → Equiv.Perm (Block 16)) (algorithm : Algorithm) (key iv : Bytes)
    (pieces : List Bytes) : Except AnyError Bytes := do
  let d ← new aes algorithm key iv
  let (output, d) ← collect update d pieces
  let last ← final d
  return output ++ last

end Decipheriv

def encryptMessage (aes : Bytes → Equiv.Perm (Block 16)) (algorithm : Algorithm) (key iv : Bytes)
    (message : Bytes) : Except AnyError Bytes := do
  let encryptor ← Cipher.new aes algorithm key iv
  return encryptor.encryptPadded message

end Deno.Node.Crypto
