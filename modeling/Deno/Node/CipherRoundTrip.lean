import Deno.Node.Cipher

/-!
# What ciphers give out

The pieces of a message are consumed as whole blocks and a rest that is in the cache. So the output
of all pieces is that of the whole message, and what has been encrypted is decrypted. The native
side is given a last block exactly if the message is not empty and consists of whole blocks.
-/

namespace Deno.Node.Crypto

open Core List Mode Block Cipheriv

/-! ### The cache -/

/-- The cache is cut in whole blocks and the rest. If the last chunk is kept back, there is a rest
of every message that is not empty. -/
lemma BlockModeCache.get_spec (c : BlockModeCache) :
    ∃ bs : List (Block 16), c.get.1.getD [] = bytes bs ∧ c.cache = bytes bs ++ c.get.2.cache ∧
      c.get.2.lastChunkIsNonZero = c.lastChunkIsNonZero ∧
      c.get.2.cache.length < 16 + c.lastChunkIsNonZero.toNat ∧
      (c.lastChunkIsNonZero → c.cache ≠ [] → c.get.2.cache ≠ []) := by
  obtain ⟨cache, flag⟩ := c
  simp only [get]
  generalize hlen : (if flag = true then cache.length - 1 else cache.length) = len
  have hbound : cache.length ≤ len + flag.toNat ∧ len ≤ cache.length ∧
      (flag = true → cache ≠ [] → len < cache.length) := by
    cases flag with
    | false => simp_all
    | true =>
      simp only [if_true, Bool.toNat_true] at hlen ⊢
      refine ⟨by omega, by omega, fun _ hne => ?_⟩
      have hpos := List.length_pos_iff.mpr hne
      omega
  split_ifs with hlt
  · exact ⟨[], rfl, rfl, rfl, by simp only; omega, fun _ hne => hne⟩
  · have hdvd : 16 ∣ (cache.take (len / 16 * 16)).length := by
      rw [length_take, Nat.min_eq_left (by omega)]
      exact Nat.dvd_mul_left 16 _
    obtain ⟨bs, hbs⟩ := exists_bytes_eq hdvd
    refine ⟨bs, hbs.symm, by rw [hbs, take_append_drop], rfl, ?_, fun hflag hne => ?_⟩
    · simp only [length_drop]
      omega
    · have hlast := hbound.2.2 hflag hne
      simp only [ne_eq, drop_eq_nil_iff]
      omega

/-! ### Pieces -/

variable {mode : Mode 16}

section

variable {step : Mode 16 → Block 16 → Block 16 × Mode 16}

lemma eachBlock_bytes (mode : Mode 16) (bs : List (Block 16)) : eachBlock step mode (bytes bs) =
      .ok (bytes (chain step mode bs).1, (chain step mode bs).2) := by
  rw [eachBlock, if_pos (by rw [length_bytes, Nat.mul_mod_right]), blocks_bytes]

/-- The bytes consumed are the blocks that have been processed and the rest in the cache. -/
structure Consumed (step : Mode 16 → Block 16 → Block 16 × Mode 16) (mode : Mode 16) (flag : Bool)
    (message output : Bytes) (t : BlockTransform) (bs : List (Block 16)) : Prop where
  message_eq : message = bytes bs ++ t.cache.cache
  output_eq : output = bytes (chain step mode bs).1
  context_eq : t.context = (chain step mode bs).2
  flag_eq : t.cache.lastChunkIsNonZero = flag
  length_lt : t.cache.cache.length < 16 + flag.toNat
  cache_ne_nil : flag → message ≠ [] → t.cache.cache ≠ []

lemma consumed_nil (step : Mode 16 → Block 16 → Block 16 × Mode 16) (mode : Mode 16) (flag : Bool) :
    Consumed step mode flag [] [] ⟨mode, [], flag⟩ [] where
  message_eq := rfl
  output_eq := rfl
  context_eq := rfl
  flag_eq := rfl
  length_lt := by simp only [length_nil]; omega
  cache_ne_nil _ hne := absurd rfl hne

/-- A piece does not fail, and its whole blocks are processed. -/
lemma Consumed.update {flag : Bool} {message output : Bytes} {t : BlockTransform}
    {bs : List (Block 16)} (h : Consumed step mode flag message output t bs) (data : Bytes) :
    ∃ out t' bs', t.update (eachBlock step) data = .ok (out, t') ∧
      Consumed step mode flag (message ++ data) (output ++ out) t' bs' := by
  obtain ⟨cs, hinput, hcut, hflag, hlength, hkept⟩ := (t.cache.add data).get_spec
  have hadd : (t.cache.add data).cache = t.cache.cache ++ data := rfl
  have hflag' : (t.cache.add data).lastChunkIsNonZero = flag := h.flag_eq
  rw [hflag'] at hflag hlength hkept
  have hupdate : t.update (eachBlock step) data = .ok (bytes (chain step t.context cs).1,
      ⟨(chain step t.context cs).2, (t.cache.add data).get.2⟩) := by
    unfold BlockTransform.update
    rcases hget : (t.cache.add data).get with ⟨_ | input, cache⟩
    · rw [hget, Option.getD_none] at hinput
      have hcs : cs = [] := by
        rw [← blocks_bytes cs, ← hinput, blocks_nil]
      rw [hcs]
      rfl
    · rw [hget, Option.getD_some] at hinput
      simp only [hinput, eachBlock_bytes]
      rfl
  refine ⟨_, _, bs ++ cs, hupdate, ?_, ?_, ?_, hflag, hlength, fun hf hne => hkept hf ?_⟩
  · rw [h.message_eq, append_assoc, ← hadd, hcut, bytes_append, append_assoc]
  · rw [h.output_eq, chain_append, bytes_append, h.context_eq]
  · rw [chain_append, h.context_eq]
  · intro hnil
    obtain ⟨hcache, hdata⟩ := List.append_eq_nil_iff.mp hnil
    refine h.cache_ne_nil hf (fun hmessage => hne ?_) hcache
    rw [hmessage, hdata, append_nil]

lemma Consumed.collect (step : Mode 16 → Block 16 → Block 16 × Mode 16) (mode : Mode 16)
    (flag : Bool) (pieces : List Bytes) :
    ∃ out t bs, Core.collect (BlockTransform.update (eachBlock step)) ⟨mode, [], flag⟩ pieces =
        .ok (out, t) ∧
      Consumed step mode flag pieces.flatten out t bs := by
  have hinit : ∃ bs, Consumed step mode flag ([] : List Bytes).flatten [] ⟨mode, [], flag⟩ bs :=
    ⟨[], consumed_nil step mode flag⟩
  obtain ⟨out, t, hcollect, bs, h⟩ := collect_invariant
    (P := fun pieces out t => ∃ bs, Consumed step mode flag pieces.flatten out t bs)
    (fun pieces out t data ⟨bs, h⟩ => by
      obtain ⟨out', t', bs', hupdate, h'⟩ := h.update data
      refine ⟨out', t', hupdate, bs', ?_⟩
      rwa [flatten_append, flatten_singleton])
    hinit pieces
  exact ⟨out, t, bs, hcollect, h⟩

end

/-! ### The last block -/

lemma exists_blocks_and_rest (message : Bytes) : ∃ (bs : List (Block 16)) (rest : Bytes),
      message = bytes bs ++ rest ∧ rest.length < 16 := by
  have hdvd : 16 ∣ (message.take (message.length / 16 * 16)).length := by
    rw [length_take, Nat.min_eq_left (by omega)]
    exact Nat.dvd_mul_left 16 _
  obtain ⟨bs, hbs⟩ := exists_bytes_eq hdvd
  refine ⟨bs, message.drop (message.length / 16 * 16), ?_, ?_⟩
  · rw [hbs, take_append_drop]
  · rw [length_drop]
    omega

def lastBlock {rest : Bytes} (h : rest.length < 16) : Block 16 := ⟨pad 16 rest, length_pad_of_lt h⟩

variable {rest : Bytes}

lemma blocks_pad (bs : List (Block 16)) (h : rest.length < 16) :
    blocks 16 (pad 16 (bytes bs ++ rest)) = bs ++ [lastBlock h] := by
  rw [pad_append ⟨_, length_bytes bs⟩, blocks_bytes_append]
  exact congrArg (bs ++ ·) (blocks_block (lastBlock h))

lemma cipher_final_eq (h : rest.length < 16) :
    Cipher.final mode rest 16 = .ok (mode.encryptBlock (lastBlock h)).1.1 := by
  have hblocks : blocks 16 (pad 16 rest) = [lastBlock h] := blocks_pad [] h
  rw [Cipher.final, if_pos h, if_pos (Nat.le_of_eq (length_pad_of_lt h)), encryptPadded, hblocks]
  simp [encryptBlocks, chain]

lemma decipher_final_eq {b : Block 16} (h : rest.length < 16)
    (hb : (mode.decryptBlock b).1 = lastBlock h) : Decipher.final mode b.1 = .ok (pad 16 rest) := by
  have hpadded : mode.decryptPadded b.1 = (pad 16 rest, some rest) := by
    have hblock : (lastBlock h).1 = pad 16 rest := rfl
    rw [decryptPadded, blocks_block, decryptBlocks]
    simp only [chain, bytes_cons, bytes_nil, append_nil, hb, hblock]
    rw [unpad_pad (by decide) h]
  rw [Decipher.final, if_pos b.2, hpadded]

lemma take_pad (h : rest.length < 16) :
    (pad 16 rest).take (16 - ((pad 16 rest).getLast?.getD 0).toNat) = rest := by
  rw [getLast?_pad h, Option.getD_some, toNat_ofNat_sub (by decide), pad_eq_of_lt h,
    show 16 - (16 - rest.length) = rest.length by omega, take_left]

/-! ### Whole messages -/

/-- The key, and the initialization vector where there is one, have the length of the algorithm. -/
def Algorithm.Fits : Algorithm → Bytes → Bytes → Prop
  | aes128Cbc, key, iv => key.length = 16 ∧ iv.length = 16
  | aes128Ecb, key, _ => key.length = 16
  | aes192Ecb, key, _ => key.length = 24
  | aes256Ecb, key, _ => key.length = 32
  | aes256Cbc, key, iv => key.length = 32 ∧ iv.length = 16

section

variable {aes : Bytes → Equiv.Perm (Block 16)} {algorithm : Algorithm} {key iv : Bytes}

lemma genericArray_eq_ok {size : ℕ} {slice : Bytes} (h : slice.length = size) :
    genericArray size slice = .ok ⟨slice, h⟩ := dif_pos h

lemma newCbc_spec (keySize : ℕ) (key iv : Bytes) :
    (key.length = keySize ∧ iv.length = 16 → ∃ mode, newCbc aes keySize key iv = .ok mode) ∧
      (¬ (key.length = keySize ∧ iv.length = 16) →
        ∃ text, newCbc aes keySize key iv = .error (.panic text)) := by
  unfold newCbc
  constructor
  · rintro ⟨hkey, hiv⟩
    rw [genericArray_eq_ok hkey, genericArray_eq_ok hiv]
    exact ⟨_, rfl⟩
  · intro h
    by_cases hkey : key.length = keySize
    · rw [genericArray_eq_ok hkey, genericArray, dif_neg fun hiv => h ⟨hkey, hiv⟩]
      exact ⟨_, rfl⟩
    · rw [genericArray, dif_neg hkey]
      exact ⟨_, rfl⟩

lemma newEcb_spec (keySize : ℕ) (key : Bytes) :
    (key.length = keySize → ∃ mode, newEcb aes keySize key = .ok mode) ∧
      (key.length ≠ keySize → ∃ text, newEcb aes keySize key = .error (.panic text)) := by
  unfold newEcb
  constructor
  · intro hkey
    rw [genericArray_eq_ok hkey]
    exact ⟨_, rfl⟩
  · intro hkey
    rw [genericArray, dif_neg hkey]
    exact ⟨_, rfl⟩

/-- A key or an initialization vector of another length panics. -/
lemma newMode_spec : (algorithm.Fits key iv → ∃ mode, newMode aes algorithm key iv = .ok mode) ∧
    (¬ algorithm.Fits key iv → ∃ text, newMode aes algorithm key iv = .error (.panic text)) := by
  cases algorithm with
  | aes128Cbc => exact newCbc_spec 16 key iv
  | aes128Ecb => exact newEcb_spec 16 key
  | aes192Ecb => exact newEcb_spec 24 key
  | aes256Ecb => exact newEcb_spec 32 key
  | aes256Cbc => exact newCbc_spec 32 key iv

/-- What is given out does not depend on the pieces. -/
lemma Cipheriv.run_eq (hnew : newMode aes algorithm key iv = .ok mode) (pieces : List Bytes) :
    run aes algorithm key iv pieces = .ok (mode.encryptPadded pieces.flatten) := by
  obtain ⟨out, t, bs, hcollect, h⟩ := Consumed.collect encryptBlock mode false pieces
  have hlt : t.cache.cache.length < 16 := h.length_lt
  have hwhole : mode.encryptPadded pieces.flatten =
      out ++ (t.context.encryptBlock (lastBlock hlt)).1.1 := by
    rw [encryptPadded, h.message_eq, blocks_pad bs hlt, encryptBlocks,
      chain_append, h.output_eq, h.context_eq]
    simp [chain]
  have hcollect' : collect update ⟨mode, [], false⟩ pieces = .ok (out, t) := hcollect
  simp [run, new, Cipher.new, hnew, hcollect', final,
    cipher_final_eq hlt, hwhole, bind, Except.bind, pure, Except.pure]

/-- The pieces leave a last block exactly if the message is not empty and consists of whole
blocks. -/
lemma Consumed.length_eq_iff {step : Mode 16 → Block 16 → Block 16 × Mode 16}
    {message output : Bytes} {t : BlockTransform} {bs : List (Block 16)}
    (h : Consumed step mode true message output t bs) :
    t.cache.cache.length = 16 ↔ message ≠ [] ∧ 16 ∣ message.length := by
  have hlt := h.length_lt
  have hmessage : message.length = 16 * bs.length + t.cache.cache.length := by
    rw [h.message_eq, length_append, length_bytes]
  simp only [Bool.toNat_true] at hlt
  constructor
  · intro hlength
    refine ⟨fun hnil => ?_, by omega⟩
    rw [hnil, length_nil] at hmessage
    omega
  · rintro ⟨hne, hdvd⟩
    have hpos := List.length_pos_iff.mpr (h.cache_ne_nil rfl hne)
    omega

/-- What has been encrypted is decrypted, in whatever pieces it comes. -/
lemma Decipheriv.run_eq (hnew : newMode aes algorithm key iv = .ok mode)
    {message : Bytes} {pieces : List Bytes}
    (hpieces : pieces.flatten = mode.encryptPadded message) :
    Decipheriv.run aes algorithm key iv pieces = .ok message := by
  obtain ⟨ps, rest, rfl, hrest⟩ := exists_blocks_and_rest message
  obtain ⟨out, t, bs, hcollect, h⟩ := Consumed.collect decryptBlock mode true pieces
  rw [encryptPadded, blocks_pad ps hrest] at hpieces
  have hplain := decryptBlocks_encryptBlocks mode (ps ++ [lastBlock hrest])
  have hlength : (mode.encryptBlocks (ps ++ [lastBlock hrest])).1.length = ps.length + 1 := by
    rw [encryptBlocks, length_chain, length_append, length_singleton]
  generalize (mode.encryptBlocks (ps ++ [lastBlock hrest])).1 = cs at hpieces hplain hlength
  have hlast : t.cache.cache.length = 16 := by
    have hbytes : pieces.flatten.length = 16 * (ps.length + 1) := by
      rw [hpieces, length_bytes, hlength]
    refine h.length_eq_iff.mpr ⟨fun hnil => ?_, _, hbytes⟩
    rw [hnil, length_nil] at hbytes
    omega
  have hcs : cs = bs ++ [⟨t.cache.cache, hlast⟩] := by
    rw [← blocks_bytes cs, ← hpieces, h.message_eq, blocks_bytes_append]
    exact congrArg (bs ++ ·) (blocks_block ⟨t.cache.cache, hlast⟩)
  rw [hcs, decryptBlocks, chain_append] at hplain
  obtain ⟨hps, hb⟩ := append_inj' (congrArg Prod.fst hplain) rfl
  rw [← h.context_eq, chain, List.cons.injEq] at hb
  have hfinal : Decipheriv.final t = .ok rest := by
    simp [Decipheriv.final, decipher_final_eq hrest hb.1, take_pad hrest, bind, Except.bind, pure,
      Except.pure]
  have hcollect' : collect Decipheriv.update ⟨mode, [], true⟩ pieces = .ok (out, t) := hcollect
  simp [Decipheriv.run, Decipheriv.new, Decipher.new, hnew, hcollect', hfinal, h.output_eq, hps,
    bind, Except.bind, pure, Except.pure]

end

/-- What is given out for the pieces of a plaintext is its encryption, and what is given out for the
pieces of that is the plaintext. -/
theorem Cipheriv.decipheriv_run (aes : Bytes → Equiv.Perm (Block 16)) (algorithm : Algorithm)
    (key iv : Bytes) (hfits : algorithm.Fits key iv) (plaintext : Bytes) :
    ∃ ciphertext, encryptMessage aes algorithm key iv plaintext = .ok ciphertext ∧
      (∀ pieces : List Bytes, pieces.flatten = plaintext →
        run aes algorithm key iv pieces = .ok ciphertext) ∧
      ∀ pieces : List Bytes, pieces.flatten = ciphertext →
        Decipheriv.run aes algorithm key iv pieces = .ok plaintext := by
  obtain ⟨mode, hnew⟩ := newMode_spec.1 hfits
  refine ⟨mode.encryptPadded plaintext, ?_, fun pieces hpieces => ?_, fun pieces hpieces => ?_⟩
  · rw [encryptMessage, Cipher.new, hnew]
    rfl
  · rw [run_eq hnew, hpieces]
  · exact Decipheriv.run_eq hnew hpieces

theorem Cipheriv.decipheriv_run_hi :
    Algorithm.aes128Cbc.Fits (List.replicate 16 0) (List.replicate 16 7) ∧
      ∃ ciphertext, run (fun _ => Equiv.refl _) .aes128Cbc (List.replicate 16 0)
          (List.replicate 16 7) [[104], [105]] = .ok ciphertext ∧
        Decipheriv.run (fun _ => Equiv.refl _) .aes128Cbc (List.replicate 16 0)
          (List.replicate 16 7) [[], ciphertext] = .ok [104, 105] := by
  have hfits : Algorithm.aes128Cbc.Fits (List.replicate 16 0) (List.replicate 16 7) := ⟨rfl, rfl⟩
  obtain ⟨ciphertext, -, hencrypt, hdecrypt⟩ :=
    decipheriv_run (fun _ => Equiv.refl _) _ _ _ hfits [104, 105]
  exact ⟨hfits, ciphertext, hencrypt _ rfl, hdecrypt _ (by simp)⟩

/-- However a message is cut, its ciphertext is one block longer than the whole blocks of it. -/
theorem Cipheriv.run_length (aes : Bytes → Equiv.Perm (Block 16)) {algorithm : Algorithm}
    {key iv : Bytes} (hfits : algorithm.Fits key iv) (pieces : List Bytes) :
    ∃ ciphertext, run aes algorithm key iv pieces = .ok ciphertext ∧
      ciphertext.length = 16 * (pieces.flatten.length / 16 + 1) := by
  obtain ⟨mode, hnew⟩ := newMode_spec.1 hfits
  refine ⟨_, run_eq hnew pieces, ?_⟩
  obtain ⟨ps, rest, hmessage, hrest⟩ := exists_blocks_and_rest pieces.flatten
  rw [hmessage, encryptPadded, blocks_pad ps hrest, length_bytes, encryptBlocks, length_chain,
    length_append, length_append, length_bytes, length_singleton]
  omega

theorem Cipheriv.run_length_whole : ∃ ciphertext, run (fun _ => Equiv.refl _) .aes128Ecb
    (List.replicate 16 0) [] [List.replicate 16 1] = .ok ciphertext ∧ ciphertext.length = 32 :=
  have hfits : Algorithm.aes128Ecb.Fits (List.replicate 16 0) [] := rfl
  run_length _ hfits _

/-! ### Panics -/

/-- The native side panics on a last block that is not one. -/
lemma decipheriv_final_panics_iff (d : Decipheriv) :
    (∃ text, Decipheriv.final d = .error (.panic text)) ↔ d.cache.cache.length ≠ 16 := by
  unfold Decipheriv.final Decipher.final
  by_cases hlength : d.cache.cache.length = 16
  · rcases d.context.decryptPadded d.cache.cache with ⟨output, _ | rest⟩
    · simp [hlength, typeError, bind, Except.bind]
    · simp [hlength, bind, Except.bind, pure, Except.pure]
  · simp [hlength, bind, Except.bind]

/-- No piece of a ciphertext panics. In the end there is a panic unless the ciphertext is not empty
and consists of whole blocks (or if there was one because of the key). -/
theorem Decipheriv.run_panics_iff (aes : Bytes → Equiv.Perm (Block 16)) (algorithm : Algorithm)
    (key iv : Bytes) (pieces : List Bytes) :
    (∀ d, Decipheriv.new aes algorithm key iv = .ok d →
        ∃ output d', collect Decipheriv.update d pieces = .ok (output, d')) ∧
      ((∃ text, Decipheriv.run aes algorithm key iv pieces = .error (.panic text)) ↔
        ¬ (algorithm.Fits key iv ∧ pieces.flatten ≠ [] ∧ 16 ∣ pieces.flatten.length)) := by
  by_cases hfits : algorithm.Fits key iv
  · obtain ⟨mode, hnew⟩ := newMode_spec.1 hfits
    obtain ⟨out, t, bs, hcollect, h⟩ := Consumed.collect decryptBlock mode true pieces
    have hstart : Decipheriv.new aes algorithm key iv = .ok ⟨mode, [], true⟩ := by
      rw [Decipheriv.new, Decipher.new, hnew]
      rfl
    have hcollect' : collect Decipheriv.update ⟨mode, [], true⟩ pieces = .ok (out, t) := hcollect
    have hrun : (∃ text, Decipheriv.run aes algorithm key iv pieces = .error (.panic text)) ↔
        ∃ text, Decipheriv.final t = .error (.panic text) := by
      simp only [Decipheriv.run, hstart, hcollect', bind, Except.bind, pure, Except.pure]
      cases Decipheriv.final t with
      | error e | ok last => simp
    refine ⟨fun d hd => ?_, ?_⟩
    · rw [hstart] at hd
      cases hd
      exact ⟨out, t, hcollect'⟩
    · rw [hrun, decipheriv_final_panics_iff, not_iff_not, h.length_eq_iff]
      exact (and_iff_right hfits).symm
  · obtain ⟨text, hnew⟩ := newMode_spec.2 hfits
    have hstart : Decipheriv.new aes algorithm key iv = .error (.panic text) := by
      rw [Decipheriv.new, Decipher.new, hnew]
      rfl
    refine ⟨fun d hd => ?_, ?_⟩
    · rw [hstart] at hd
      cases hd
    · rw [Decipheriv.run, hstart]
      exact iff_of_true ⟨text, rfl⟩ fun h => hfits h.1

/-- An empty ciphertext is never a last block, and neither is a single byte. -/
theorem Decipheriv.run_panics_empty :
    Decipheriv.run (fun _ => Equiv.refl _) .aes128Ecb (List.replicate 16 0) [] [] =
        .error (.panic "assertion failed: input.len() == 16") ∧
      Decipheriv.run (fun _ => Equiv.refl _) .aes128Ecb (List.replicate 16 0) [] [[1]] =
        .error (.panic "assertion failed: input.len() == 16") :=
  ⟨rfl, rfl⟩

end Deno.Node.Crypto
