import Mathlib.Data.List.Forall2
import Deno.Web.Blob

/-!
# What blobs hold

Each blob has a content: the bytes of its parts, one after the other. The parts that a blob refers to
stay in the store under their ids.
-/

namespace Deno.Web

open Core List BlobStore

/-! ### Contents -/

/-- The bytes of the blobs and under the URLs of a program. -/
structure Contents where
  blobs : List Bytes
  urls : List Bytes
  deriving DecidableEq

/-- Where a bound is in a content of some length: a negative one is counted from the end. -/
def boundIn (length : ℕ) (bound : Option ℤ) (missing : ℕ) : ℕ :=
  match bound with
  | none => missing
  | some bound => if bound < 0 then (length + bound).toNat else min bound.toNat length

namespace Contents

def blobAt (contents : Contents) (index : ℕ) : Bytes := contents.blobs.getD index []

def argument (contents : Contents) (endings : EndingType) : BlobPartArgument → Bytes
  | .arrayBuffer buffer => buffer
  | .view buffer byteOffset byteLength _ => slice buffer byteOffset byteLength
  | .blob index => contents.blobAt index
  | .string text => encodeString endings text

def sliceOf (content : Bytes) (start stop : Option ℤ) : Bytes :=
  let first := boundIn content.length start 0
  slice content first (boundIn content.length stop content.length - first)

def step {Uuid : Type} (contents : Contents) : BlobCall Uuid → Contents
  | .new parts endings _ =>
    { contents with blobs := contents.blobs ++ [parts.flatMap (contents.argument endings)] }
  | .slice index start stop _ =>
    { contents with blobs := contents.blobs ++ [sliceOf (contents.blobAt index) start stop] }
  | .createObjectURL index => { contents with urls := contents.urls ++ [contents.blobAt index] }
  | .fromObjectURL index =>
    { contents with blobs := contents.blobs ++ contents.urls[index]?.toList }
  | .drop index => { contents with blobs := contents.blobs.set index [] }
  | .collect _ => contents

def run {Uuid : Type} (calls : List (BlobCall Uuid)) : Contents := calls.foldl step ⟨[], []⟩

end Contents

/-! ### Parts in the store -/

structure BlobPart.Holds (part : BlobPart) (content : Bytes) : Prop where
  read : part.read = .ok content
  size : part.size = content.length

lemma BlobPart.Holds.sliced {part : BlobPart} {content : Bytes} (h : part.Holds content)
    {start len : ℕ} (hle : start + len ≤ content.length) :
    (BlobPart.sliced part start len).Holds (slice content start len) where
  read := by
    rw [BlobPart.read, h.read]
    exact if_pos hle
  size := (length_slice hle).symm

section

variable {Uuid Url : Type} {uuids : UuidSource Uuid} {urls : UrlLibrary Uuid Url}
  {origin : JsString} {store store' : BlobStore Uuid Url}

/-- Nothing is under an id that is still to be drawn. -/
structure Fresh (uuids : UuidSource Uuid) (urls : UrlLibrary Uuid Url) (origin : JsString)
    (store : BlobStore Uuid Url) : Prop where
  parts : ∀ k, store.drawn ≤ k → store.parts (uuids.newV4 k) = none
  objectUrls : ∀ k, store.drawn ≤ k → store.objectUrls (urls.objectUrl origin (uuids.newV4 k)) = none

/-- A later store: everything is still there. -/
structure Extends (store store' : BlobStore Uuid Url) : Prop where
  parts : ∀ id part, store.parts id = some part → store'.parts id = some part
  objectUrls : ∀ url blob, store.objectUrls url = some blob → store'.objectUrls url = some blob

lemma Extends.refl : Extends store store := ⟨fun _ _ h => h, fun _ _ h => h⟩

variable {store'' : BlobStore Uuid Url}

lemma Extends.trans (h : Extends store store')
    (h' : Extends store' store'') : Extends store store'' where
  parts := fun id part hpart => h'.parts id part (h.parts id part hpart)
  objectUrls := fun url blob hblob => h'.objectUrls url blob (h.objectUrls url blob hblob)

lemma Fresh.insertPart [DecidableEq Uuid] (h : Fresh uuids urls origin store) (part : BlobPart) :
    Fresh uuids urls origin (store.insertPart uuids part).2 ∧
      Extends store (store.insertPart uuids part).2 ∧
      (store.insertPart uuids part).2.parts (store.insertPart uuids part).1 = some part := by
  refine ⟨⟨fun k hk => ?_, fun k hk => h.objectUrls k (Nat.le_of_succ_le hk)⟩,
    ⟨fun id other hother => ?_, fun _ _ hblob => hblob⟩, Function.update_self _ _ _⟩
  · have hne : uuids.newV4 k ≠ uuids.newV4 store.drawn := fun heq =>
      absurd (uuids.injective heq) (Nat.ne_of_gt hk)
    exact (Function.update_of_ne hne _ _).trans (h.parts k (Nat.le_of_succ_le hk))
  · have hne : id ≠ uuids.newV4 store.drawn := by
      rintro rfl
      rw [h.parts store.drawn (Nat.le_refl _)] at hother
      cases hother
    exact (Function.update_of_ne hne _ _).trans hother

/-! ### Nodes -/

mutual

/-- The part of a blob has the bytes. -/
def HoldsNode (store : BlobStore Uuid Url) : BlobNode Uuid → Bytes → Prop
  | .reference id size, content =>
    (∃ part, store.parts id = some part ∧ part.Holds content) ∧ size = content.length
  | .blob _ size parts, content => HoldsParts store parts content ∧ size = content.length

def HoldsParts (store : BlobStore Uuid Url) : List (BlobNode Uuid) → Bytes → Prop
  | [], content => content = []
  | part :: parts, content =>
    ∃ first rest, content = first ++ rest ∧ HoldsNode store part first ∧ HoldsParts store parts rest

end

variable {node : BlobNode Uuid} {parts : List (BlobNode Uuid)} {content : Bytes}

lemma HoldsNode.size (h : HoldsNode store node content) : node.size = content.length := by
  cases node with
  | reference id size | blob type size parts => exact h.2

mutual

/-- Only the ids that a part refers to matter. -/
theorem HoldsNode.mono : ∀ {node : BlobNode Uuid} {content : Bytes}, HoldsNode store node content →
    (∀ id ∈ nodeIds node, ∀ part, store.parts id = some part → store'.parts id = some part) →
    HoldsNode store' node content
  | .reference id size, content, h, hids => by
    obtain ⟨⟨part, hpart, hholds⟩, hsize⟩ := h
    exact ⟨⟨part, hids id (List.mem_singleton.mpr rfl) part hpart, hholds⟩, hsize⟩
  | .blob type size parts, content, h, hids => ⟨HoldsParts.mono h.1 hids, h.2⟩

theorem HoldsParts.mono : ∀ {parts : List (BlobNode Uuid)} {content : Bytes},
    HoldsParts store parts content →
    (∀ id ∈ partIds parts, ∀ part, store.parts id = some part → store'.parts id = some part) →
    HoldsParts store' parts content
  | [], content, h, _ => h
  | part :: parts, content, h, hids => by
    obtain ⟨first, rest, heq, hfirst, hrest⟩ := h
    refine ⟨first, rest, heq, hfirst.mono fun id hid => ?_, hrest.mono fun id hid => ?_⟩
    · exact hids id (mem_append_left _ hid)
    · exact hids id (mem_append_right _ hid)

end

lemma HoldsNode.extend (h : HoldsNode store node content) (hstore : Extends store store') :
    HoldsNode store' node content := h.mono fun id _ => hstore.parts id

lemma HoldsParts.extend (h : HoldsParts store parts content) (hstore : Extends store store') :
    HoldsParts store' parts content := h.mono fun id _ => hstore.parts id

def HoldsInput (store : BlobStore Uuid Url) (endings : EndingType) :
    BlobPartInput Uuid → Bytes → Prop
  | .arrayBuffer buffer, content => content = buffer
  | .view buffer byteOffset byteLength _, content => content = slice buffer byteOffset byteLength
  | .blob blob, content => HoldsNode store blob.node content
  | .string text, content => content = encodeString endings text

lemma HoldsInput.extend {endings : EndingType} {input : BlobPartInput Uuid}
    (h : HoldsInput store endings input content) (hstore : Extends store store') :
    HoldsInput store' endings input content := by
  cases input with
  | blob blob => exact HoldsNode.extend h hstore
  | arrayBuffer buffer | view buffer byteOffset byteLength within | string text => exact h

/-! ### Slices -/

/-- A store in which parts were put under new ids. -/
structure Grows (uuids : UuidSource Uuid) (urls : UrlLibrary Uuid Url) (origin : JsString)
    (store store' : BlobStore Uuid Url) : Prop where
  fresh : Fresh uuids urls origin store'
  extend : Extends store store'

lemma Grows.trans (h : Grows uuids urls origin store store')
    (h' : Grows uuids urls origin store' store'') : Grows uuids urls origin store store'' :=
  ⟨h'.fresh, h.extend.trans h'.extend⟩

section

variable [DecidableEq Uuid]

lemma Fresh.reference (hfresh : Fresh uuids urls origin store) {part : BlobPart}
    (h : part.Holds content) :
    Grows uuids urls origin store (store.insertPart uuids part).2 ∧
      HoldsNode (store.insertPart uuids part).2
        (.reference (store.insertPart uuids part).1 content.length) content := by
  obtain ⟨hfresh', hextend, hget⟩ := hfresh.insertPart part
  exact ⟨⟨hfresh', hextend⟩, ⟨part, hget, h⟩, rfl⟩

/-- The call of `op_blob_slice_part` is within the part. -/
lemma sliceReference_holds (hfresh : Fresh uuids urls origin store) {id : Uuid} {size : ℤ}
    (h : HoldsNode store (.reference id size) content) {start stop : ℕ} (hle : start ≤ stop)
    (hstop : stop ≤ content.length) (hsafe : content.length ≤ maxSafeInteger) :
    ∃ node store', sliceReference uuids store id start stop = .ok (node, store') ∧
      Grows uuids urls origin store store' ∧
      HoldsNode store' node (slice content start (stop - start)) := by
  obtain ⟨⟨part, hpart, hholds⟩, -⟩ := h
  have hsize : subNumbers stop start = ((stop - start : ℕ) : ℤ) := by
    rw [subNumbers_eq (by omega)]
    omega
  have hwithin : ¬start + (stop - start) > part.size := by
    rw [hholds.size]
    omega
  have hfind : store.findPart id = .ok part := by rw [findPart, getPart, hpart]
  have hslice : store.opBlobSlicePart uuids id start ((stop - start : ℕ) : ℤ) =
      .ok (store.insertPart uuids (.sliced part start (stop - start))) := by
    rw [opBlobSlicePart, hfind]
    exact if_neg hwithin
  have hsliced : (BlobPart.sliced part start (stop - start)).Holds
      (slice content start (stop - start)) := hholds.sliced (by omega)
  obtain ⟨hgrows, hnode⟩ := hfresh.reference hsliced
  rw [length_slice (by omega)] at hnode
  refine ⟨_, _, ?_, hgrows, hnode⟩
  rw [sliceReference, hsize, hslice]
  rfl

lemma sliceParts_done {relativeStart relativeEnd span added : ℤ} (h : added ≥ span)
    (parts : List (BlobNode Uuid)) :
    sliceParts uuids store relativeStart relativeEnd span added parts = .ok ([], store) := by
  cases parts with
  | nil => rfl
  | cons part parts => rw [sliceParts, if_pos h]; rfl

lemma relativeBound_natCast {size bound : ℕ} (hle : bound ≤ size) (hsafe : size ≤ maxSafeInteger)
    (missing : ℤ) : relativeBound size (some (clampLongLong bound)) missing = bound := by
  have hclamp : clampLongLong bound = bound := by
    rw [clampLongLong]
    omega
  rw [relativeBound]
  omega

mutual

theorem sliceNode_holds : ∀ {node : BlobNode Uuid} {content : Bytes}
    {store : BlobStore Uuid Url} {start stop : ℕ}, Fresh uuids urls origin store →
    HoldsNode store node content → start ≤ stop → stop ≤ content.length →
    content.length ≤ maxSafeInteger →
    ∃ node' store', sliceNode uuids store start stop node = .ok (node', store') ∧
      Grows uuids urls origin store store' ∧
      HoldsNode store' node' (slice content start (stop - start))
  | .reference id size, content, store, start, stop, hfresh, h, hle, hstop, hsafe => by
    exact sliceReference_holds hfresh h hle hstop hsafe
  | .blob type size parts, content, store, start, stop, hfresh, h, hle, hstop, hsafe => by
    obtain ⟨hparts, rfl⟩ := h
    have hspan : max (subNumbers stop start) 0 = ((stop - start : ℕ) : ℤ) := by
      rw [subNumbers_natCast hle (hstop.trans hsafe)]
      omega
    obtain ⟨parts', store', hslice, hgrows, hholds⟩ : ∃ parts' store',
        sliceParts uuids store start stop (stop - start : ℕ) 0 parts = .ok (parts', store') ∧
        Grows uuids urls origin store store' ∧
        HoldsParts store' parts' (slice content start (stop - start)) :=
      sliceParts_holds hfresh hparts hle hstop hsafe (by omega) (Int.le_refl 0) (by omega)
    refine ⟨.blob (normalizeType []) (stop - start : ℕ) parts', store', ?_, hgrows, hholds, ?_⟩
    · rw [sliceNode, relativeBound_natCast (hle.trans hstop) hsafe,
        relativeBound_natCast hstop hsafe, hspan, hslice]
      rfl
    · rw [length_slice (by omega)]

theorem sliceParts_holds : ∀ {parts : List (BlobNode Uuid)} {content : Bytes}
    {store : BlobStore Uuid Url} {start stop : ℕ} {span added : ℤ}, Fresh uuids urls origin store →
    HoldsParts store parts content → start ≤ stop → stop ≤ content.length →
    content.length ≤ maxSafeInteger → span - added = stop - start → 0 ≤ added →
    span ≤ maxSafeInteger →
    ∃ parts' store', sliceParts uuids store start stop span added parts = .ok (parts', store') ∧
      Grows uuids urls origin store store' ∧
      HoldsParts store' parts' (slice content start (stop - start))
  | [], content, store, start, stop, span, added, hfresh, h, hle, hstop, hsafe, hspan, hadded,
      hmax => by
    obtain rfl : content = [] := h
    refine ⟨[], store, rfl, ⟨hfresh, .refl⟩, ?_⟩
    exact take_eq_nil_of_eq_nil drop_nil
  | part :: parts, content, store, start, stop, span, added, hfresh, h, hle, hstop, hsafe, hspan,
      hadded, hmax => by
    obtain ⟨first, rest, rfl, hfirst, hrest⟩ := h
    rw [length_append] at hstop hsafe
    by_cases hdone : added ≥ span
    · obtain rfl : start = stop := by omega
      refine ⟨[], store, sliceParts_done hdone _, ⟨hfresh, .refl⟩, ?_⟩
      rw [Nat.sub_self]
      rfl
    rw [sliceParts, if_neg hdone, hfirst.size]
    by_cases hskip : (start : ℤ) ≠ 0 ∧ (first.length : ℤ) ≤ start
    · -- the part is in front of the slice
      rw [if_pos hskip, subNumbers_natCast (by omega) (by omega),
        subNumbers_natCast (by omega) (by omega), slice_append_right (by omega)]
      have hlength : stop - start = stop - first.length - (start - first.length) := by omega
      rw [hlength]
      exact sliceParts_holds hfresh hrest (by omega) (by omega) (by omega) (by omega) hadded hmax
    · -- a chunk of the part, and what is left of the slice behind it
      have hmin : min (first.length : ℤ) stop = (min first.length stop : ℕ) := by omega
      obtain ⟨chunk, store₁, hchunk, hgrows, hholds⟩ := sliceNode_holds hfresh hfirst
        (by omega : start ≤ min first.length stop) (Nat.min_le_left _ _) (by omega)
      have hsize : chunk.size = (min first.length stop - start : ℕ) := by
        rw [hholds.size, length_slice (by omega)]
      rw [if_neg hskip, hmin, hchunk]
      change ∃ parts' store', (do
        let (blobParts, store) ← sliceParts uuids store₁ 0 (subNumbers stop first.length) span
          (addNumbers added chunk.size) parts
        return (chunk :: blobParts, store)) = .ok (parts', store') ∧ _
      obtain ⟨a, rfl⟩ := Int.eq_ofNat_of_zero_le hadded
      rw [hsize, addNumbers_natCast (by omega)]
      by_cases hlast : stop ≤ first.length
      · rw [sliceParts_done (by omega)]
        refine ⟨[chunk], store₁, rfl, hgrows, _, [], ?_, hholds, rfl⟩
        rw [Nat.min_eq_right hlast, slice_append_left (by omega), append_nil]
      · rw [subNumbers_natCast (by omega) (by omega)]
        obtain ⟨parts', store', hslice, hgrows', hholds'⟩ : ∃ parts' store',
            sliceParts uuids store₁ (0 : ℕ) (stop - first.length : ℕ) span
              (a + (min first.length stop - start) : ℕ) parts = .ok (parts', store') ∧
            Grows uuids urls origin store₁ store' ∧
            HoldsParts store' parts' (slice rest 0 (stop - first.length - 0)) :=
          sliceParts_holds hgrows.fresh (hrest.extend hgrows.extend) (by omega) (by omega) (by omega)
            (by omega) (by omega) hmax
        rw [Int.natCast_zero] at hslice
        rw [hslice]
        refine ⟨chunk :: parts', store', rfl, hgrows.trans hgrows', _, _, ?_,
          hholds.extend hgrows'.extend, hholds'⟩
        rw [Nat.min_eq_left (by omega), ← slice_append (by omega)]
        congr 1
        omega

end

variable {length missing : ℕ}

lemma boundIn_le (bound : Option ℤ) (h : missing ≤ length) :
    boundIn length bound missing ≤ length := by
  cases bound with
  | none => exact h
  | some bound =>
    rw [boundIn]
    split_ifs with hneg
    · omega
    · exact Nat.min_le_right _ _

/-- The bounds are as they should be: they are clamped to the content. -/
lemma relativeBound_eq (bound : Option ℤ) (hsafe : length ≤ maxSafeInteger) :
    relativeBound length (bound.map clampLongLong) missing = boundIn length bound missing := by
  cases bound with
  | none => rfl
  | some bound =>
    rw [Option.map_some, relativeBound, boundIn, clampLongLong]
    split_ifs with hclamp hneg
    · rw [addNumbers, roundNumber_of_abs_le (by omega)]
      omega
    · omega
    · omega
    · omega

variable {blob : Blob Uuid}

lemma slice_holds (hfresh : Fresh uuids urls origin store) (h : HoldsNode store blob.node content)
    (hsafe : content.length ≤ maxSafeInteger) (start stop : Option ℤ)
    (contentType : Option JsString) :
    ∃ blob' store', blob.slice uuids store start stop contentType = .ok (blob', store') ∧
      Grows uuids urls origin store store' ∧
      HoldsNode store' blob'.node (Contents.sliceOf content start stop) := by
  obtain ⟨hparts, hsize⟩ := h
  have hfirst : relativeBound blob.size (start.map clampLongLong) 0 =
      boundIn content.length start 0 := by
    rw [hsize]
    exact relativeBound_eq start hsafe
  have hlast : relativeBound blob.size (stop.map clampLongLong) blob.size =
      boundIn content.length stop content.length := by
    rw [hsize]
    exact relativeBound_eq stop hsafe
  have hstop := boundIn_le stop (Nat.le_refl content.length)
  have hstart := boundIn_le start (Nat.zero_le content.length)
  unfold Blob.slice Contents.sliceOf
  rw [hfirst, hlast]
  generalize boundIn content.length start 0 = first at hstart
  generalize boundIn content.length stop content.length = last at hstop
  have hspan : max (subNumbers last first) 0 = (last - first : ℕ) := by
    rw [subNumbers_eq (by omega)]
    omega
  dsimp only
  rw [hspan]
  by_cases hle : first ≤ last
  · obtain ⟨parts', store', hslice, hgrows, hholds⟩ : ∃ parts' store',
        sliceParts uuids store first last (last - first : ℕ) 0 blob.parts = .ok (parts', store') ∧
        Grows uuids urls origin store store' ∧
        HoldsParts store' parts' (slice content first (last - first)) :=
      sliceParts_holds hfresh hparts hle hstop hsafe (by omega) (Int.le_refl 0) (by omega)
    rw [hslice]
    refine ⟨_, store', rfl, hgrows, hholds, ?_⟩
    rw [length_slice (by omega)]
  · rw [sliceParts_done (by omega)]
    refine ⟨_, store, rfl, ⟨hfresh, .refl⟩, ?_, ?_⟩
    · rw [Nat.sub_eq_zero_of_le (by omega)]
      rfl
    · rw [Nat.sub_eq_zero_of_le (by omega)]
      rfl

/-! ### The constructor -/

variable {endings : EndingType}

lemma processBlobPart_holds (hfresh : Fresh uuids urls origin store)
    {input : BlobPartInput Uuid} (h : HoldsInput store endings input content) :
    ∃ part store', processBlobPart uuids endings store input = (part, ↑content.length, store') ∧
      Grows uuids urls origin store store' ∧ HoldsNode store' part content := by
  cases input with
  | arrayBuffer buffer =>
    obtain rfl : content = buffer := h
    exact ⟨_, _, rfl, hfresh.reference ⟨rfl, rfl⟩⟩
  | view buffer byteOffset byteLength within =>
    obtain rfl : content = slice buffer byteOffset byteLength := h
    rw [length_slice within]
    exact ⟨_, _, rfl, hfresh.reference ⟨rfl, rfl⟩⟩
  | blob blob =>
    refine ⟨blob.node, store, ?_, ⟨hfresh, .refl⟩, h⟩
    rw [← h.size]
    rfl
  | string text =>
    obtain rfl : content = encodeString endings text := h
    exact ⟨_, _, rfl, hfresh.reference ⟨rfl, rfl⟩⟩

variable {inputs : List (BlobPartInput Uuid)} {contents : List Bytes}

/-- The parts have the bytes of what they were made of, and the size is counted. -/
lemma processBlobParts_holds {size : ℕ} (hfresh : Fresh uuids urls origin store)
    (h : List.Forall₂ (HoldsInput store endings) inputs contents)
    (hsafe : size + contents.flatten.length ≤ maxSafeInteger) :
    ∃ parts store', processBlobParts uuids endings size store inputs =
        (parts, ↑(size + contents.flatten.length), store') ∧
      Grows uuids urls origin store store' ∧ HoldsParts store' parts contents.flatten := by
  induction inputs generalizing contents size store with
  | nil =>
    cases h
    exact ⟨[], store, rfl, ⟨hfresh, .refl⟩, rfl⟩
  | cons input inputs ih =>
    obtain ⟨content, contents, hinput, hinputs, rfl⟩ := List.forall₂_cons_left_iff.mp h
    rw [flatten_cons, length_append, ← Nat.add_assoc] at hsafe
    obtain ⟨part, store₁, hpart, hgrows, hholds⟩ := processBlobPart_holds hfresh hinput
    have hinputs' : List.Forall₂ (HoldsInput store₁ endings) inputs contents :=
      hinputs.imp fun _ _ h => h.extend hgrows.extend
    obtain ⟨parts, store', hparts, hgrows', hholds'⟩ := ih hgrows.fresh hinputs' hsafe
    refine ⟨part :: parts, store', ?_, hgrows.trans hgrows', content, _, rfl,
      hholds.extend hgrows'.extend, hholds'⟩
    rw [processBlobParts, hpart]
    dsimp only
    rw [addNumbers_natCast (by omega), hparts, flatten_cons, length_append, ← Nat.add_assoc]

lemma new_holds (hfresh : Fresh uuids urls origin store)
    (h : List.Forall₂ (HoldsInput store endings) inputs contents)
    (hsafe : contents.flatten.length ≤ maxSafeInteger) (type : JsString) :
    Grows uuids urls origin store (Blob.new uuids store inputs endings type).2 ∧
      HoldsNode (Blob.new uuids store inputs endings type).2
        (Blob.new uuids store inputs endings type).1.node contents.flatten := by
  obtain ⟨parts, store', hparts, hgrows, hholds⟩ : ∃ parts store',
      processBlobParts uuids endings 0 store inputs =
        (parts, ↑(0 + contents.flatten.length), store') ∧
      Grows uuids urls origin store store' ∧ HoldsParts store' parts contents.flatten :=
    processBlobParts_holds hfresh h (show 0 + contents.flatten.length ≤ maxSafeInteger by omega)
  rw [Nat.zero_add] at hparts
  rw [Blob.new, hparts]
  exact ⟨hgrows, hholds, rfl⟩

end

/-! ### Reading -/

lemma opBlobReadPart_eq {id : Uuid} {part : BlobPart} (hpart : store.parts id = some part)
    (h : part.Holds content) : store.opBlobReadPart id = .ok content := by
  have hfind : store.findPart id = .ok part := by rw [findPart, getPart, hpart]
  rw [opBlobReadPart, hfind]
  exact h.read

mutual

theorem streamNode_holds : ∀ {node : BlobNode Uuid} {content : Bytes}, HoldsNode store node content →
    ∃ chunks, streamNode store node = .ok chunks ∧ chunks.flatten = content
  | .reference id size, content, h => by
    obtain ⟨⟨part, hpart, hholds⟩, -⟩ := h
    refine ⟨[content], ?_, by simp⟩
    rw [streamNode, opBlobReadPart_eq hpart hholds]
    rfl
  | .blob type size parts, content, h => by
    obtain ⟨chunks, hchunks, hflatten⟩ := toIterator_holds h.1
    refine ⟨chunks.filter (· ≠ []), ?_, ?_⟩
    · rw [streamNode, hchunks]
      rfl
    · rw [flatten_filter_ne_nil, hflatten]

theorem toIterator_holds : ∀ {parts : List (BlobNode Uuid)} {content : Bytes},
    HoldsParts store parts content →
    ∃ chunks, toIterator store parts = .ok chunks ∧ chunks.flatten = content
  | [], content, h => ⟨[], rfl, h.symm⟩
  | part :: parts, content, h => by
    obtain ⟨first, rest, rfl, hfirst, hrest⟩ := h
    obtain ⟨chunks, hchunks, rfl⟩ := streamNode_holds hfirst
    obtain ⟨chunks', hchunks', rfl⟩ := toIterator_holds hrest
    refine ⟨chunks ++ chunks', ?_, flatten_append⟩
    rw [toIterator, hchunks, hchunks']
    rfl

end

lemma fillBytes_eq {chunks : List Bytes} {bytes : Bytes} {offset : ℕ}
    (h : offset + chunks.flatten.length ≤ bytes.length) :
    fillBytes bytes offset chunks = .ok (writeAt bytes offset chunks.flatten) := by
  induction chunks generalizing bytes offset with
  | nil =>
    rw [flatten_nil, writeAt_nil]
    rfl
  | cons value rest ih =>
    rw [flatten_cons, length_append] at h
    rw [fillBytes]
    split_ifs with hpos
    · have hset : setBytes bytes value offset = .ok (writeAt bytes offset value) :=
        if_pos (by omega)
      have hlength : (writeAt bytes offset value).length = bytes.length := length_writeAt (by omega)
      rw [hset]
      change fillBytes (writeAt bytes offset value) (offset + value.length) rest = _
      rw [ih (by omega), writeAt_append (by omega), flatten_cons]
    · obtain rfl : value = [] := List.length_eq_zero_iff.mp (by omega)
      exact ih (by simpa using h)

variable {blob : Blob Uuid}

lemma arrayBuffer_eq (h : HoldsNode store blob.node content) :
    blob.arrayBuffer store = .ok content := by
  obtain ⟨hparts, hsize⟩ := h
  obtain ⟨chunks, hchunks, rfl⟩ := toIterator_holds hparts
  have hfill : fillBytes (List.replicate chunks.flatten.length 0) 0 chunks = .ok chunks.flatten := by
    rw [fillBytes_eq (by rw [length_replicate]; omega), writeAt]
    simp
  rw [Blob.arrayBuffer, Blob.u8Array, hsize, hchunks]
  exact hfill

end

end Deno.Web
