import Deno.Core.Bytes
import Deno.Core.LexOrder
import Deno.Error

/-!
# Selectors and cursors of the key-value store

A listing reads a range of encoded keys, in byte order. A cursor is the end of a key, without the
part that all keys of the range have in common, and becomes a bound of the range again. Whatever the
cursor is, no key outside the range can be read with it.
-/

namespace Deno.Kv

open Core List

/-! ### Keys -/

/-- How the parts of keys are written: with their own end, and with a first byte that is neither
`0x00` nor `0xff`. -/
structure Codec (Part : Type) where
  encodePart : Part → Except AnyError Bytes
  first_byte : ∀ {p : Part} {a : Bytes}, encodePart p = .ok a →
    ∃ b rest, a = b :: rest ∧ 1 ≤ b ∧ b ≤ 0xfe
  delimited : ∀ {p q : Part} {a b x y : Bytes}, encodePart p = .ok a → encodePart q = .ok b →
    a ++ x = b ++ y → p = q ∧ x = y

variable {Part : Type}

namespace Codec

variable (codec : Codec Part)

def encodeKey : List Part → Except AnyError Bytes
  | [] => .ok []
  | p :: ps => do
    let a ← codec.encodePart p
    let rest ← encodeKey ps
    return a ++ rest

def encodeOption : Option (List Part) → Except AnyError (Option Bytes)
  | none => .ok none
  | some key => do
    let bytes ← codec.encodeKey key
    return some bytes

variable {codec} {p : Part} {ps qs : List Part} {a b x : Bytes}

lemma encodeKey_cons_eq_ok : codec.encodeKey (p :: ps) = .ok b ↔
    ∃ a rest, codec.encodePart p = .ok a ∧ codec.encodeKey ps = .ok rest ∧ b = a ++ rest := by
  simp only [encodeKey, bind_eq_ok, pure, Except.pure, Except.ok.injEq]
  constructor
  · rintro ⟨a, ha, rest, hrest, rfl⟩
    exact ⟨a, rest, ha, hrest, rfl⟩
  · rintro ⟨a, rest, ha, hrest, rfl⟩
    exact ⟨a, ha, rest, hrest, rfl⟩

variable {key : Option (List Part)}

lemma encodeOption_eq_none (h : codec.encodeOption key = .ok none) : key = none := by
  cases key with
  | none => rfl
  | some k =>
    obtain ⟨b, -, hb⟩ := bind_eq_ok.mp h
    cases hb

lemma encodeOption_eq_some (h : codec.encodeOption key = .ok (some b)) :
    ∃ k, key = some k ∧ codec.encodeKey k = .ok b := by
  cases key with
  | none => cases h
  | some k =>
    obtain ⟨b, hk, ⟨⟩⟩ := bind_eq_ok.mp h
    exact ⟨k, rfl, hk⟩

/-- What follows the code of a key in that of another one is the code of further parts. -/
lemma exists_of_encodeKey_append (hps : codec.encodeKey ps = .ok a)
    (hqs : codec.encodeKey qs = .ok (a ++ x)) :
    ∃ rs, qs = ps ++ rs ∧ codec.encodeKey rs = .ok x := by
  induction ps generalizing qs a with
  | nil =>
    cases hps
    exact ⟨qs, rfl, hqs⟩
  | cons p ps ih =>
    obtain ⟨c, a, hc, ha, rfl⟩ := encodeKey_cons_eq_ok.mp hps
    cases qs with
    | nil =>
      obtain ⟨b, rest, rfl, -⟩ := codec.first_byte hc
      cases hqs
    | cons q qs =>
      obtain ⟨d, b, hd, hb, heq⟩ := encodeKey_cons_eq_ok.mp hqs
      rw [append_assoc] at heq
      obtain ⟨rfl, rfl⟩ := codec.delimited hc hd heq
      obtain ⟨rs, rfl, hrs⟩ := ih ha hb
      exact ⟨rs, rfl, hrs⟩

lemma encodeKey_append_eq_ok : codec.encodeKey (ps ++ qs) = .ok b ↔
    ∃ a x, codec.encodeKey ps = .ok a ∧ codec.encodeKey qs = .ok x ∧ b = a ++ x := by
  induction ps generalizing b with
  | nil => simp [encodeKey]
  | cons p ps ih =>
    simp only [cons_append, encodeKey_cons_eq_ok, ih]
    constructor
    · rintro ⟨c, _, hc, ⟨a, x, ha, hx, rfl⟩, rfl⟩
      exact ⟨c ++ a, x, ⟨c, a, hc, ha, rfl⟩, hx, (append_assoc c a x).symm⟩
    · rintro ⟨_, x, ⟨c, a, hc, ha, rfl⟩, hx, rfl⟩
      exact ⟨c, a ++ x, hc, ⟨a, x, ha, hx, rfl⟩, append_assoc c a x⟩

/-- The code of a key lies between the bytes that no part starts with. -/
lemma encodeKey_between (hps : codec.encodeKey ps = .ok a) : a < [0xff] ∧ (ps ≠ [] → [0] ≤ a) := by
  cases ps with
  | nil =>
    cases hps
    exact ⟨by decide, fun h => absurd rfl h⟩
  | cons p ps =>
    obtain ⟨c, rest, hc, -, rfl⟩ := encodeKey_cons_eq_ok.mp hps
    obtain ⟨b, c, rfl, hpos, hle⟩ := codec.first_byte hc
    have hlt : b < 0xff := Std.lt_of_le_of_lt hle (by decide)
    have hzero : (0 : UInt8) < b := Std.lt_of_lt_of_le (by decide) hpos
    refine ⟨?_, fun _ => ?_⟩
    · rw [cons_append, cons_lt_cons_iff]
      exact .inl hlt
    · rw [cons_append, cons_le_cons_iff]
      exact .inl hzero

end Codec

/-! ### Selectors -/

inductive RawSelector where
  | prefixed (pre : Bytes) (start stop : Option Bytes)
  | range (start stop : Bytes)
  deriving DecidableEq

namespace RawSelector

def ofEncoded : Option Bytes → Option Bytes → Option Bytes → Except AnyError RawSelector
  | some pre, none, none => .ok (prefixed pre none none)
  | some pre, some start, none =>
    if !pre.isPrefixOf start || start.length = pre.length then
      .error (typeError "start key is not in the keyspace defined by prefix")
    else .ok (prefixed pre (some start) none)
  | some pre, none, some stop =>
    if !pre.isPrefixOf stop || stop.length = pre.length then
      .error (typeError "end key is not in the keyspace defined by prefix")
    else .ok (prefixed pre none (some stop))
  | none, some start, some stop =>
    if start > stop then .error (typeError "start key is greater than end key")
    else .ok (range start stop)
  | none, some start, none => .ok (range start (start ++ [0]))
  | _, _, _ => .error (typeError "invalid range")

def fromTuple (codec : Codec Part) (pre start stop : Option (List Part)) :
    Except AnyError RawSelector := do
  let pre ← codec.encodeOption pre
  let start ← codec.encodeOption start
  let stop ← codec.encodeOption stop
  ofEncoded pre start stop

def start : RawSelector → Option Bytes
  | prefixed _ start _ => start
  | range start _ => some start

def stop : RawSelector → Option Bytes
  | prefixed _ _ stop => stop
  | range _ stop => some stop

def commonPrefixForBytes : Bytes → Bytes → Bytes
  | a :: as, b :: bs => if a = b then a :: commonPrefixForBytes as bs else []
  | _, _ => []

def commonPrefix : RawSelector → Bytes
  | prefixed pre _ _ => pre
  | range start stop => commonPrefixForBytes start stop

def rangeStartKey : RawSelector → Bytes
  | prefixed _ (some start) _ => start
  | range start _ => start
  | prefixed pre none _ => pre ++ [0]

def rangeEndKey : RawSelector → Bytes
  | prefixed _ _ (some stop) => stop
  | range _ stop => stop
  | prefixed pre _ none => pre ++ [0xff]

end RawSelector

open RawSelector

structure Base64 where
  encode : Bytes → String
  decode : String → Option Bytes
  decode_encode : ∀ b, decode (encode b) = some b
  encode_eq_empty : ∀ b, encode b = "" ↔ b = []

def encodeCursor (encode : Bytes → String) (selector : RawSelector) (boundaryKey : Bytes) :
    Except AnyError String :=
  if !selector.commonPrefix.isPrefixOf boundaryKey then .error (typeError "invalid boundary key")
  else .ok (encode (boundaryKey.drop selector.commonPrefix.length))

/-- The bounds are checked against the ends that the selector names. -/
def checkBounds (selector : RawSelector) (firstKey lastKey : Bytes) :
    Except AnyError (Bytes × Bytes) :=
  if selector.start.any (firstKey < ·) then .error (typeError "cursor out of bounds")
  else if selector.stop.any (lastKey > ·) then .error (typeError "cursor out of bounds")
  else .ok (firstKey, lastKey)

def decodeSelectorAndCursor (decode : String → Option Bytes) (selector : RawSelector)
    (reverse : Bool) : Option String → Except AnyError (Bytes × Bytes)
  | none => .ok (selector.rangeStartKey, selector.rangeEndKey)
  | some cursor =>
    match decode cursor with
    | none => .error (typeError "invalid cursor")
    | some cursor =>
      if reverse then checkBounds selector selector.rangeStartKey (selector.commonPrefix ++ cursor)
      else checkBounds selector (selector.commonPrefix ++ cursor ++ [0]) selector.rangeEndKey

/-! ### Accepted selectors -/

variable {selector : RawSelector}

namespace RawSelector

/-- The named ends are below the prefix, and a range is not upside down. -/
def Valid (codec : Codec Part) : RawSelector → Prop
  | prefixed pre start stop => (∃ parts, codec.encodeKey parts = .ok pre) ∧
      (∀ s ∈ start, pre <+: s ∧ pre < s) ∧ ∀ e ∈ stop, pre <+: e ∧ pre < e
  | range start stop => start ≤ stop

lemma below_of_check {pre key : Bytes}
    (h : ¬ (!pre.isPrefixOf key || key.length = pre.length) = true) :
    pre <+: key ∧ pre < key := by
  simp only [Bool.or_eq_true, Bool.not_eq_true', decide_eq_true_eq, not_or, Bool.not_eq_false,
    isPrefixOf_iff_prefix] at h
  obtain ⟨⟨rest, rfl⟩, hlength⟩ := h
  cases rest with
  | nil => simp at hlength
  | cons b rest =>
    refine ⟨prefix_append _ _, ?_⟩
    have hlt : pre ++ [] < pre ++ b :: rest := append_lt_append_left_iff.mpr (nil_lt_cons b rest)
    rwa [append_nil] at hlt

lemma valid_of_ofEncoded {codec : Codec Part} {pre start stop : Option Bytes}
    (hpre : ∀ p ∈ pre, ∃ parts, codec.encodeKey parts = .ok p)
    (h : ofEncoded pre start stop = .ok selector) : selector.Valid codec := by
  revert h
  fun_cases ofEncoded pre start stop with
  | case1 pre =>
    rintro ⟨⟩
    exact ⟨hpre pre rfl, by simp, by simp⟩
  | case2 => simp
  | case3 pre start hcheck =>
    rintro ⟨⟩
    refine ⟨hpre pre rfl, ?_, by simp⟩
    rintro _ ⟨⟩
    exact below_of_check hcheck
  | case4 => simp
  | case5 pre stop hcheck =>
    rintro ⟨⟩
    refine ⟨hpre pre rfl, by simp, ?_⟩
    rintro _ ⟨⟩
    exact below_of_check hcheck
  | case6 => simp
  | case7 start stop hle =>
    rintro ⟨⟩
    exact List.not_lt.mp hle
  | case8 start =>
    rintro ⟨⟩
    exact le_append_left
  | case9 => simp

lemma valid_of_fromTuple {codec : Codec Part} {pre start stop : Option (List Part)}
    (h : fromTuple codec pre start stop = .ok selector) : selector.Valid codec := by
  obtain ⟨p, hp, hrest⟩ := bind_eq_ok.mp h
  obtain ⟨s, -, hrest⟩ := bind_eq_ok.mp hrest
  obtain ⟨e, -, hselector⟩ := bind_eq_ok.mp hrest
  refine valid_of_ofEncoded ?_ hselector
  rintro b ⟨⟩
  obtain ⟨k, -, hk⟩ := Codec.encodeOption_eq_some hp
  exact ⟨k, hk⟩

end RawSelector

/-! ### Cursors stay inside the range -/

lemma checkBounds_eq_ok {firstKey lastKey s e : Bytes} :
    checkBounds selector firstKey lastKey = .ok (s, e) ↔
      ((∀ start ∈ selector.start, start ≤ firstKey) ∧ ∀ stop ∈ selector.stop, lastKey ≤ stop) ∧
        firstKey = s ∧ lastKey = e := by
  unfold checkBounds
  split_ifs with hstart hstop
  · obtain ⟨start, hmem, hlt⟩ := (Option.any_eq_true _ _).mp hstart
    simp only [false_iff]
    rintro ⟨⟨hle, -⟩, -⟩
    exact List.not_lt.mpr (hle start hmem) (of_decide_eq_true hlt)
  · obtain ⟨stop, hmem, hlt⟩ := (Option.any_eq_true _ _).mp hstop
    simp only [false_iff]
    rintro ⟨⟨-, hle⟩, -⟩
    exact List.not_lt.mpr (hle stop hmem) (of_decide_eq_true hlt)
  · rw [Except.ok.injEq, Prod.mk.injEq]
    refine (and_iff_right ⟨fun start hmem => ?_, fun stop hmem => ?_⟩).symm
    · refine List.not_lt.mp fun hlt => hstart ((Option.any_eq_true _ _).mpr ?_)
      exact ⟨start, hmem, decide_eq_true hlt⟩
    · refine List.not_lt.mp fun hlt => hstop ((Option.any_eq_true _ _).mpr ?_)
      exact ⟨stop, hmem, decide_eq_true hlt⟩

namespace RawSelector

variable {codec : Codec Part} {selector : RawSelector} {key : List Part} {k cursor : Bytes}

lemma zero_le (b : UInt8) : 0 ≤ b := UInt8.zero_le

lemma rangeStartKey_le
    (h : ∀ start ∈ selector.start, start ≤ selector.commonPrefix ++ cursor ++ [0]) :
    selector.rangeStartKey ≤ selector.commonPrefix ++ cursor ++ [0] := by
  cases selector with
  | range start stop => exact h start rfl
  | prefixed pre start stop =>
    cases start with
    | some start => exact h start rfl
    | none =>
      simp only [rangeStartKey, commonPrefix, append_assoc]
      rw [append_le_append_left_iff]
      refine (append_bot_le_iff (k := []) zero_le).mpr ?_
      cases cursor with
      | nil => exact nil_lt_cons 0 []
      | cons b cursor => exact nil_lt_cons b (cursor ++ [0])

/-- A key below a cursor cannot be behind all keys with the prefix, since a part of a key does not
start with `0xff`. -/
lemma lt_rangeEndKey (hvalid : selector.Valid codec) (hkey : codec.encodeKey key = .ok k)
    (h : ∀ stop ∈ selector.stop, selector.commonPrefix ++ cursor ≤ stop)
    (hk : k < selector.commonPrefix ++ cursor) : k < selector.rangeEndKey := by
  cases selector with
  | range start stop => exact Std.lt_of_lt_of_le hk (h stop rfl)
  | prefixed pre start stop =>
    cases stop with
    | some stop => exact Std.lt_of_lt_of_le hk (h stop rfl)
    | none =>
      by_contra hend
      obtain ⟨⟨parts, hparts⟩, -⟩ := hvalid
      obtain ⟨x, rfl⟩ := prefix_of_between (prefix_append pre [0xff])
        (prefix_append pre cursor) (List.not_lt.mp hend) (List.le_of_lt hk)
      obtain ⟨rs, -, hrs⟩ := Codec.exists_of_encodeKey_append hparts hkey
      exact hend (append_lt_append_left_iff.mpr (Codec.encodeKey_between hrs).1)

end RawSelector

/-- Whatever the cursor is, the keys between the bounds are in the range of the selector. -/
theorem decodeSelectorAndCursor_within (codec : Codec Part) (decode : String → Option Bytes)
    {pre start stop : Option (List Part)} {selector : RawSelector}
    (hselector : fromTuple codec pre start stop = .ok selector) {reverse : Bool}
    {cursor : Option String} {s e : Bytes}
    (hdecode : decodeSelectorAndCursor decode selector reverse cursor = .ok (s, e))
    {key : List Part} {k : Bytes} (hkey : codec.encodeKey key = .ok k) (hs : s ≤ k) (he : k < e) :
    selector.rangeStartKey ≤ k ∧ k < selector.rangeEndKey := by
  have hvalid := valid_of_fromTuple hselector
  revert hdecode
  fun_cases decodeSelectorAndCursor decode selector reverse cursor with
  | case1 =>
    rintro ⟨⟩
    exact ⟨hs, he⟩
  | case2 => simp
  | case3 cursor bytes _ hreverse =>
    intro hbounds
    obtain ⟨⟨-, hstop⟩, rfl, rfl⟩ := checkBounds_eq_ok.mp hbounds
    exact ⟨hs, lt_rangeEndKey hvalid hkey hstop he⟩
  | case4 cursor bytes _ hreverse =>
    intro hbounds
    obtain ⟨⟨hstart, -⟩, rfl, rfl⟩ := checkBounds_eq_ok.mp hbounds
    exact ⟨List.le_trans (rangeStartKey_le hstart) hs, he⟩

/-- Parts that are single bytes, marked by a byte. -/
def sampleCodec : Codec UInt8 where
  encodePart p := .ok [1, p]
  first_byte := by
    rintro p _ ⟨⟩
    exact ⟨1, [p], rfl, by decide, by decide⟩
  delimited := by
    rintro p q _ _ x y ⟨⟩ ⟨⟩ h
    simpa using h

theorem decodeSelectorAndCursor_within_sample :
    fromTuple sampleCodec (some [97]) none none = .ok (prefixed [1, 97] none none) ∧
      decodeSelectorAndCursor (fun _ => some [0xff, 0xff]) (prefixed [1, 97] none none) true
        (some "") = .ok ([1, 97, 0], [1, 97, 0xff, 0xff]) ∧
      (prefixed [1, 97] none none).rangeStartKey ≤ [1, 97, 1, 98] ∧
      [1, 97, 1, 98] < (prefixed [1, 97] none none).rangeEndKey := by
  have hselector :
      fromTuple sampleCodec (some [97]) none none = .ok (prefixed [1, 97] none none) := rfl
  have hdecode : decodeSelectorAndCursor (fun _ => some [0xff, 0xff]) (prefixed [1, 97] none none)
      true (some "") = .ok ([1, 97, 0], [1, 97, 0xff, 0xff]) := rfl
  have hkey : sampleCodec.encodeKey [97, 98] = .ok [1, 97, 1, 98] := rfl
  exact ⟨hselector, hdecode,
    decodeSelectorAndCursor_within _ _ hselector hdecode hkey (by decide) (by decide)⟩

end Deno.Kv
