import Mathlib.Algebra.Ring.Int.Defs
import Mathlib.Data.List.Infix
import Deno.Web.BlobContent

/-!
# Programs with blobs

Whatever a program does with blobs and their URLs, each of them has the bytes that it should have.
-/

namespace Deno.Web

open Core List BlobStore

section

variable {Uuid Url : Type} {uuids : UuidSource Uuid} {urls : UrlLibrary Uuid Url}
  {origin : JsString} {store store' : BlobStore Uuid Url} {content : Bytes}

/-! ### Parts under a URL -/

def HoldsAll (parts : List BlobPart) (content : Bytes) : Prop :=
  ∃ contents, List.Forall₂ BlobPart.Holds parts contents ∧ contents.flatten = content

lemma HoldsAll.append {parts parts' : List BlobPart} {content' : Bytes} (h : HoldsAll parts content)
    (h' : HoldsAll parts' content') : HoldsAll (parts ++ parts') (content ++ content') := by
  obtain ⟨contents, hparts, rfl⟩ := h
  obtain ⟨contents', hparts', rfl⟩ := h'
  exact ⟨contents ++ contents', rel_append hparts hparts', flatten_append⟩

mutual

theorem findParts_node : ∀ {node : BlobNode Uuid} {content : Bytes}, HoldsNode store node content →
    ∃ parts, (nodeIds node).mapM store.findPart = .ok parts ∧ HoldsAll parts content
  | .reference id size, content, h => by
    obtain ⟨⟨part, hpart, hholds⟩, -⟩ := h
    have hfind : store.findPart id = .ok part := by
      rw [findPart, getPart, hpart]
    refine ⟨[part], ?_, [content], .cons hholds .nil, by simp⟩
    rw [nodeIds, mapM_cons, hfind]
    rfl
  | .blob type size parts, content, h => findParts_parts h.1

theorem findParts_parts : ∀ {nodes : List (BlobNode Uuid)} {content : Bytes},
    HoldsParts store nodes content →
    ∃ parts, (partIds nodes).mapM store.findPart = .ok parts ∧ HoldsAll parts content
  | [], content, h => ⟨[], rfl, [], .nil, h.symm⟩
  | node :: nodes, content, h => by
    obtain ⟨first, rest, rfl, hfirst, hrest⟩ := h
    obtain ⟨parts, hparts, hall⟩ := findParts_node hfirst
    obtain ⟨parts', hparts', hall'⟩ := findParts_parts hrest
    refine ⟨parts ++ parts', ?_, hall.append hall'⟩
    rw [partIds, mapM_append, hparts, hparts']
    rfl

end

variable {contents : List Bytes} {parts : List BlobPart}

lemma foldl_size (h : List.Forall₂ BlobPart.Holds parts contents) (total : ℕ) :
    parts.foldl (fun total part => total + part.size) total = total + contents.flatten.length := by
  induction h generalizing total with
  | nil => rfl
  | cons hpart hparts ih =>
    rw [foldl_cons, ih, hpart.size, flatten_cons, length_append, Nat.add_assoc]

lemma foldlM_read (h : List.Forall₂ BlobPart.Holds parts contents) (bytes : Bytes) :
    parts.foldlM (fun bytes part => do
      let chunk ← part.read
      return bytes ++ chunk) bytes = (.ok (bytes ++ contents.flatten) : Except AnyError Bytes) := by
  induction h generalizing bytes with
  | nil => rw [flatten_nil, append_nil]; rfl
  | @cons part content _ _ hpart hparts ih =>
    rw [foldlM_cons, hpart.read, flatten_cons, ← append_assoc]
    exact ih (bytes ++ content)

/-- Everything is read, and the assertion about the size holds. -/
lemma readAll_eq {blob : StoredBlob} (h : HoldsAll blob.parts content) :
    blob.readAll = .ok content := by
  obtain ⟨contents, hparts, rfl⟩ := h
  have hsize : blob.size = contents.flatten.length := by
    rw [StoredBlob.size, foldl_size hparts, Nat.zero_add]
  rw [StoredBlob.readAll, foldlM_read hparts]
  exact if_pos hsize.symm

/-! ### Blobs from URLs -/

lemma insertParts_holds [DecidableEq Uuid]
    (hfresh : Fresh uuids urls origin store) (h : List.Forall₂ BlobPart.Holds parts contents) :
    ∃ ids store', insertParts uuids store parts = (ids, store') ∧
      Grows uuids urls origin store store' ∧
      List.map Prod.snd ids = contents.map List.length ∧
      HoldsParts store' (ids.map fun part => .reference part.1 part.2) contents.flatten := by
  induction parts generalizing contents store with
  | nil =>
    cases h
    exact ⟨[], store, rfl, ⟨hfresh, .refl⟩, rfl, rfl⟩
  | cons part parts ih =>
    obtain ⟨content, contents, hpart, hparts, rfl⟩ := List.forall₂_cons_left_iff.mp h
    obtain ⟨hgrows, hnode⟩ := hfresh.reference hpart
    obtain ⟨ids, store', hids, hgrows', hsizes, hholds⟩ := ih hgrows.fresh hparts
    refine ⟨((store.insertPart uuids part).1, part.size) :: ids, store', ?_, hgrows.trans hgrows',
      ?_, content, contents.flatten, rfl, ?_, hholds⟩
    · simp only [insertParts, hids]
    · rw [map_cons, map_cons, hsizes, hpart.size]
    · rw [hpart.size]
      exact hnode.extend hgrows'.extend

lemma foldl_addNumbers {ids : List (Uuid × ℕ)} {total : ℕ}
    (h : ids.map Prod.snd = contents.map List.length)
    (hsafe : total + contents.flatten.length ≤ maxSafeInteger) :
    ids.foldl (fun totalSize part => addNumbers totalSize part.2) (total : ℤ) =
      (total + contents.flatten.length : ℕ) := by
  induction ids generalizing contents total with
  | nil =>
    obtain rfl : contents = [] := List.map_eq_nil_iff.mp h.symm
    rfl
  | cons id ids ih =>
    cases contents with
    | nil => cases h
    | cons content contents =>
      obtain ⟨hsize, hrest⟩ := List.cons.inj h
      rw [flatten_cons, length_append] at hsafe ⊢
      rw [foldl_cons, addNumbers_natCast (by omega), ih hrest (by omega)]
      omega

def HoldsUrl (urls : UrlLibrary Uuid Url) (store : BlobStore Uuid Url) (url : JsString)
    (content : Bytes) : Prop :=
  ∃ parsed blob, urls.parse url = .ok parsed ∧ urls.scheme parsed = js "blob" ∧
    store.getObjectUrl urls parsed = some blob ∧ HoldsAll blob.parts content

lemma HoldsUrl.extend {url : JsString} (h : HoldsUrl urls store url content)
    (hstore : Extends store store') : HoldsUrl urls store' url content := by
  obtain ⟨parsed, blob, hparse, hscheme, hblob, hall⟩ := h
  exact ⟨parsed, blob, hparse, hscheme, hstore.objectUrls _ _ hblob, hall⟩

variable {maybeLocation : Option JsString}

lemma Fresh.insertObjectUrl [DecidableEq Url]
    (h : Fresh uuids urls (maybeLocation.getD (js "null")) store) (blob : StoredBlob) :
    Grows uuids urls (maybeLocation.getD (js "null")) store
      (store.insertObjectUrl uuids urls blob maybeLocation).2 := by
  refine ⟨⟨fun k hk => h.parts k (Nat.le_of_succ_le hk), fun k hk => ?_⟩,
    ⟨fun _ _ hpart => hpart, fun url other hother => ?_⟩⟩
  · have hne : urls.objectUrl (maybeLocation.getD (js "null")) (uuids.newV4 k) ≠
        urls.objectUrl (maybeLocation.getD (js "null")) (uuids.newV4 store.drawn) := fun heq =>
      absurd (uuids.injective (urls.objectUrl_injective _ heq)) (Nat.ne_of_gt hk)
    exact (Function.update_of_ne hne _ _).trans (h.objectUrls k (Nat.le_of_succ_le hk))
  · have hne : url ≠ urls.objectUrl (maybeLocation.getD (js "null")) (uuids.newV4 store.drawn) := by
      rintro rfl
      rw [h.objectUrls store.drawn (Nat.le_refl _)] at hother
      cases hother
    exact (Function.update_of_ne hne _ _).trans hother

lemma createObjectURL_holds [DecidableEq Url] {blob : Blob Uuid}
    (hfresh : Fresh uuids urls (maybeLocation.getD (js "null")) store)
    (h : HoldsNode store blob.node content) :
    ∃ url store', createObjectURL uuids urls maybeLocation store blob = .ok (url, store') ∧
      Grows uuids urls (maybeLocation.getD (js "null")) store store' ∧
      HoldsUrl urls store' url content := by
  obtain ⟨parts, hparts, hall⟩ := findParts_parts h.1
  have hids : blob.getParts.mapM store.findPart = .ok parts := hparts
  have hgrows := hfresh.insertObjectUrl ⟨blob.type, parts⟩
  refine ⟨urls.toString (urls.objectUrl (maybeLocation.getD (js "null")) (uuids.newV4 store.drawn)),
    (store.insertObjectUrl uuids urls ⟨blob.type, parts⟩ maybeLocation).2, ?_, hgrows, _, ⟨blob.type, parts⟩,
    urls.parse_toString _, urls.scheme_objectUrl _ _, ?_, hall⟩
  · rw [createObjectURL, opBlobCreateObjectUrl, hids]
    rfl
  · rw [getObjectUrl, urls.withoutFragment_objectUrl]
    exact Function.update_self _ _ _

lemma blobFromObjectUrl_holds [DecidableEq Uuid] {url : JsString}
    (hfresh : Fresh uuids urls origin store) (h : HoldsUrl urls store url content)
    (hsafe : content.length ≤ maxSafeInteger) :
    ∃ blob store', blobFromObjectUrl uuids urls store url = .ok (some blob, store') ∧
      Grows uuids urls origin store store' ∧ HoldsNode store' blob.node content := by
  obtain ⟨parsed, blob, hparse, hscheme, hblob, contents, hparts, rfl⟩ := h
  obtain ⟨ids, store', hids, hgrows, hsizes, hholds⟩ := insertParts_holds hfresh hparts
  have hop : store.opBlobFromObjectUrl uuids urls url =
      .ok (some (blob.mediaType, ids), store') := by
    rw [opBlobFromObjectUrl, hparse]
    change (if urls.scheme parsed ≠ js "blob" then _ else _) = _
    rw [if_neg (not_not.mpr hscheme), hblob]
    dsimp only
    rw [hids]
    rfl
  have htotal : ids.foldl (fun totalSize part => addNumbers totalSize part.2) 0 =
      ((0 + contents.flatten.length : ℕ) : ℤ) :=
    foldl_addNumbers hsizes (show 0 + contents.flatten.length ≤ maxSafeInteger by omega)
  rw [Nat.zero_add] at htotal
  rw [blobFromObjectUrl, hop]
  exact ⟨_, store', rfl, hgrows, hholds, htotal⟩

end

/-! ### Programs -/

namespace Runtime

variable {Uuid Url : Type} {uuids : UuidSource Uuid} {urls : UrlLibrary Uuid Url}
  {maybeLocation : Option JsString}

structure Holds (uuids : UuidSource Uuid) (urls : UrlLibrary Uuid Url)
    (maybeLocation : Option JsString) (runtime : Runtime Uuid Url) (contents : Contents) :
    Prop where
  fresh : Fresh uuids urls (maybeLocation.getD (js "null")) runtime.store
  blobs : List.Forall₂ (fun blob => HoldsNode runtime.store blob.node) runtime.blobs contents.blobs
  objectUrls : List.Forall₂ (HoldsUrl urls runtime.store) runtime.objectUrls contents.urls

variable {runtime : Runtime Uuid Url} {contents : Contents} {α β : Type} {as : List α} {bs : List β}

lemma forall₂_getElem? {R : α → β → Prop} (h : List.Forall₂ R as bs) (index : ℕ) :
    as[index]? = none ∧ bs[index]? = none ∨
      ∃ a b, as[index]? = some a ∧ bs[index]? = some b ∧ R a b := by
  induction h generalizing index with
  | nil => exact .inl ⟨rfl, rfl⟩
  | @cons a b _ _ hfirst hrest ih =>
    cases index with
    | zero => exact .inr ⟨a, b, rfl, rfl, hfirst⟩
    | succ index => simpa using ih index

lemma forall₂_getD {R : α → β → Prop} {a : α} {b : β}
    (h : List.Forall₂ R as bs) (hab : R a b) (index : ℕ) : R (as.getD index a) (bs.getD index b) := by
  rw [getD_eq_getElem?_getD, getD_eq_getElem?_getD]
  rcases forall₂_getElem? h index with ⟨ha, hb⟩ | ⟨x, y, hx, hy, hxy⟩
  · rwa [ha, hb]
  · rwa [hx, hy]

lemma forall₂_set {R : α → β → Prop} {a : α} {b : β}
    (h : List.Forall₂ R as bs) (hab : R a b) (index : ℕ) :
    List.Forall₂ R (as.set index a) (bs.set index b) := by
  induction h generalizing index with
  | nil => exact .nil
  | cons hfirst hrest ih =>
    cases index with
    | zero => exact .cons hab hrest
    | succ index => exact .cons hfirst (ih index)

lemma holds_initial : Holds uuids urls maybeLocation (initial : Runtime Uuid Url) ⟨[], []⟩ where
  fresh := ⟨fun _ _ => rfl, fun _ _ => rfl⟩
  blobs := .nil
  objectUrls := .nil

lemma holds_emptyBlob (store : BlobStore Uuid Url) : HoldsNode store (emptyBlob : Blob Uuid).node [] :=
  ⟨rfl, rfl⟩

section

variable (h : Holds uuids urls maybeLocation runtime contents)

include h

lemma Holds.blobAt (index : ℕ) :
    HoldsNode runtime.store (runtime.blobAt index).node (contents.blobAt index) :=
  forall₂_getD h.blobs (holds_emptyBlob runtime.store) index

/-- With a later store, everything is as before. -/
lemma Holds.grow {store : BlobStore Uuid Url}
    (hgrows : Grows uuids urls (maybeLocation.getD (js "null")) runtime.store store) :
    Holds uuids urls maybeLocation { runtime with store := store } contents where
  fresh := hgrows.fresh
  blobs := h.blobs.imp fun _ _ hblob => hblob.extend hgrows.extend
  objectUrls := h.objectUrls.imp fun _ _ hurl => hurl.extend hgrows.extend

lemma Holds.addBlob {blob : Blob Uuid}
    {content : Bytes} (hblob : HoldsNode runtime.store blob.node content) :
    Holds uuids urls maybeLocation { runtime with blobs := runtime.blobs ++ [blob] }
      { contents with blobs := contents.blobs ++ [content] } where
  fresh := h.fresh
  blobs := rel_append h.blobs (.cons hblob .nil)
  objectUrls := h.objectUrls

lemma Holds.addUrl {url : JsString}
    {content : Bytes} (hurl : HoldsUrl urls runtime.store url content) :
    Holds uuids urls maybeLocation { runtime with objectUrls := runtime.objectUrls ++ [url] }
      { contents with urls := contents.urls ++ [content] } where
  fresh := h.fresh
  blobs := h.blobs
  objectUrls := rel_append h.objectUrls (.cons hurl .nil)

/-- An id that no blob needs can go. -/
lemma Holds.removePart [DecidableEq Uuid]
    {id : Uuid} (hid : ∀ blob ∈ runtime.blobs, id ∉ blob.getParts) :
    Holds uuids urls maybeLocation { runtime with store := runtime.store.removePart id } contents where
  fresh := by
    refine ⟨fun k hk => ?_, h.fresh.objectUrls⟩
    change Function.update runtime.store.parts id none (uuids.newV4 k) = none
    by_cases heq : uuids.newV4 k = id
    · rw [heq, Function.update_self]
    · rw [Function.update_of_ne heq, h.fresh.parts k hk]
  blobs := by
    have hblobs := (forall₂_and_left _ _).mpr ⟨hid, h.blobs⟩
    refine hblobs.imp fun blob content hblob => hblob.2.mono fun other hother part hpart => ?_
    have hne : other ≠ id := by
      rintro rfl
      exact hblob.1 hother
    exact (Function.update_of_ne hne _ _).trans hpart
  objectUrls := h.objectUrls

lemma Holds.input (endings : EndingType) (argument : BlobPartArgument) :
    HoldsInput runtime.store endings (runtime.input argument) (contents.argument endings argument) := by
  cases argument with
  | arrayBuffer buffer | view buffer byteOffset byteLength within => exact rfl
  | blob index => exact h.blobAt index
  | string text => exact rfl

end

lemma length_blobAt_le (h : ∀ content ∈ contents.blobs, content.length ≤ maxSafeInteger)
    (index : ℕ) : (contents.blobAt index).length ≤ maxSafeInteger := by
  rw [Contents.blobAt, getD_eq_getElem?_getD]
  cases hget : contents.blobs[index]? with
  | none => exact Nat.zero_le _
  | some content => exact h content (mem_of_getElem? hget)

variable [DecidableEq Uuid] [DecidableEq Url]

/-- A call succeeds, and everything has its bytes. -/
lemma Holds.step (h : Holds uuids urls maybeLocation runtime contents) (call : BlobCall Uuid)
    (hsafe : ∀ content ∈ (contents.step call).blobs, content.length ≤ maxSafeInteger) :
    ∃ runtime', step uuids urls maybeLocation runtime call = .ok runtime' ∧
      Holds uuids urls maybeLocation runtime' (contents.step call) := by
  cases call with
  | new parts endings type =>
    have hinputs : List.Forall₂ (HoldsInput runtime.store endings) (parts.map runtime.input)
        (parts.map (contents.argument endings)) := by
      rw [forall₂_map_left_iff, forall₂_map_right_iff, forall₂_same]
      exact fun argument _ => h.input endings argument
    have hcontent : (parts.map (contents.argument endings)).flatten.length ≤ maxSafeInteger := by
      exact hsafe _ (mem_append_right _ (List.mem_singleton.mpr rfl))
    obtain ⟨hgrows, hblob⟩ := new_holds h.fresh hinputs hcontent type
    exact ⟨_, rfl, (h.grow hgrows).addBlob hblob⟩
  | slice index start stop contentType =>
    have hcontent : (contents.blobAt index).length ≤ maxSafeInteger :=
      length_blobAt_le (fun content hmem => hsafe content (mem_append_left _ hmem)) index
    obtain ⟨blob, store, hslice, hgrows, hblob⟩ :=
      slice_holds h.fresh (h.blobAt index) hcontent start stop contentType
    refine ⟨_, ?_, (h.grow hgrows).addBlob hblob⟩
    rw [Runtime.step, hslice]
    rfl
  | createObjectURL index =>
    obtain ⟨url, store, hcreate, hgrows, hurl⟩ := createObjectURL_holds h.fresh (h.blobAt index)
    refine ⟨_, ?_, (h.grow hgrows).addUrl hurl⟩
    rw [Runtime.step, hcreate]
    rfl
  | fromObjectURL index =>
    rcases forall₂_getElem? h.objectUrls index with ⟨hnone, hnone'⟩ | ⟨url, content, hurl, hcontent, hholds⟩
    · refine ⟨runtime, ?_, ?_⟩
      · rw [Runtime.step, hnone]
        rfl
      · simpa [Contents.step, hnone'] using h
    · have hlength : content.length ≤ maxSafeInteger := hsafe _ (by simp [Contents.step, hcontent])
      obtain ⟨blob, store, hfrom, hgrows, hblob⟩ := blobFromObjectUrl_holds h.fresh hholds hlength
      refine ⟨{ runtime with store, blobs := runtime.blobs ++ [blob] }, ?_, ?_⟩
      · rw [Runtime.step, hurl]
        dsimp only
        rw [hfrom]
        rfl
      · rw [Contents.step, hcontent]
        exact (h.grow hgrows).addBlob hblob
  | drop index =>
    refine ⟨_, rfl, h.fresh, ?_, h.objectUrls⟩
    exact forall₂_set h.blobs (holds_emptyBlob runtime.store) index
  | collect id =>
    rw [Runtime.step]
    split_ifs with hneeded
    · exact ⟨runtime, rfl, h⟩
    · refine ⟨_, rfl, h.removePart fun blob hblob hid => hneeded ⟨blob, hblob, hid⟩⟩

/-- As long as no blob gets more bytes than a number counts, every call of a program succeeds. -/
lemma Holds.run (h : Holds uuids urls maybeLocation runtime contents) {calls : List (BlobCall Uuid)}
    (hsafe : ∀ n, ∀ content ∈ ((calls.take n).foldl Contents.step contents).blobs,
      content.length ≤ maxSafeInteger) :
    ∃ runtime', calls.foldlM (Runtime.step uuids urls maybeLocation) runtime = .ok runtime' ∧
      Holds uuids urls maybeLocation runtime' (calls.foldl Contents.step contents) := by
  induction calls generalizing runtime contents with
  | nil => exact ⟨runtime, rfl, h⟩
  | cons call calls ih =>
    obtain ⟨next, hstep, hnext⟩ := h.step call (hsafe 1)
    obtain ⟨last, hrun, hlast⟩ := ih hnext fun n => hsafe (n + 1)
    refine ⟨last, ?_, hlast⟩
    rw [foldlM_cons, hstep]
    exact hrun

end Runtime

/-! ### What a program reads -/

/-- All that a program reads from a blob is its content. -/
structure Blob.Reads {Uuid Url : Type} (store : BlobStore Uuid Url) (decoder : TextDecoder)
    (blob : Blob Uuid) (content : Bytes) : Prop where
  size : blob.size = content.length
  stream : ∃ chunks, blob.stream store = .ok chunks ∧ chunks.flatten = content
  text : blob.text store decoder = .ok (decoder.decode content)
  arrayBuffer : blob.arrayBuffer store = .ok content

def ReadsUrl {Uuid Url : Type} (urls : UrlLibrary Uuid Url) (store : BlobStore Uuid Url)
    (url : JsString) (content : Bytes) : Prop :=
  ∃ parsed blob, urls.parse url = .ok parsed ∧ store.getObjectUrl urls parsed = some blob ∧
    blob.readAll = .ok content

section

variable {Uuid Url : Type} {urls : UrlLibrary Uuid Url} {store : BlobStore Uuid Url}
  {content : Bytes}

lemma HoldsNode.reads {blob : Blob Uuid} (h : HoldsNode store blob.node content)
    (decoder : TextDecoder) : blob.Reads store decoder content where
  size := h.2
  stream := streamNode_holds h
  text := by
    have hbuffer : blob.u8Array store blob.size = .ok content := arrayBuffer_eq h
    rw [Blob.text, hbuffer]
    rfl
  arrayBuffer := arrayBuffer_eq h

lemma HoldsUrl.reads {url : JsString} (h : HoldsUrl urls store url content) :
    ReadsUrl urls store url content := by
  obtain ⟨parsed, blob, hparse, -, hblob, hall⟩ := h
  exact ⟨parsed, blob, hparse, hblob, readAll_eq hall⟩

end

section

variable {Uuid Url : Type} [DecidableEq Uuid] [DecidableEq Url]

/-- Whatever a program makes of buffers, strings, slices and URLs, no call fails, and each blob and
each URL has the bytes that the calls describe. -/
theorem run_reads (uuids : UuidSource Uuid) (urls : UrlLibrary Uuid Url)
    (maybeLocation : Option JsString) (decoder : TextDecoder) (calls : List (BlobCall Uuid))
    (hsafe : ∀ n, ∀ content ∈ (Contents.run (calls.take n)).blobs,
      content.length ≤ maxSafeInteger) :
    ∃ runtime, Runtime.run uuids urls maybeLocation calls = .ok runtime ∧
      List.Forall₂ (Blob.Reads runtime.store decoder) runtime.blobs (Contents.run calls).blobs ∧
      List.Forall₂ (ReadsUrl urls runtime.store) runtime.objectUrls (Contents.run calls).urls := by
  have hinitial : Runtime.Holds uuids urls maybeLocation .initial ⟨[], []⟩ := Runtime.holds_initial
  obtain ⟨runtime, hrun, hholds⟩ := hinitial.run hsafe
  exact ⟨runtime, hrun, hholds.blobs.imp fun _ _ hblob => hblob.reads decoder,
    hholds.objectUrls.imp fun _ _ hurl => hurl.reads⟩

end

/-! ### Numbers as ids and as URLs -/

def countedUuids : UuidSource ℕ := ⟨id, fun _ _ => id⟩

/-- A number is written with as many digits. -/
def countedUrls : UrlLibrary ℕ ℕ where
  parse url := .ok url.length
  toString url := List.replicate url (unit '1')
  scheme _ := js "blob"
  withoutFragment := id
  objectUrl _ id := id
  parse_toString _ := congrArg Except.ok length_replicate
  scheme_objectUrl _ _ := rfl
  withoutFragment_objectUrl _ _ := rfl
  objectUrl_injective _ _ _ := id

/-- A blob of a text and two bytes, a slice of it over the border, a blob of both, and the blob that
the URL of the last one gives; the first one is collected. -/
def sampleCalls : List (BlobCall ℕ) :=
  [.new [.string (js "é"), .arrayBuffer [1, 2]] .transparent (js "text/plain"),
    .slice 0 (some 1) (some (-1)) none, .new [.blob 1, .string (js "a"), .blob 0] .transparent [],
    .createObjectURL 2, .drop 0, .drop 2, .collect 0, .fromObjectURL 0]

theorem run_reads_sample :
    ∃ runtime, Runtime.run countedUuids countedUrls none sampleCalls = .ok runtime ∧
      List.Forall₂ (Blob.Reads runtime.store utf8Decoder) runtime.blobs
        [[], [0xA9, 1], [], [0xA9, 1, 0x61, 0xC3, 0xA9, 1, 2]] ∧
      List.Forall₂ (ReadsUrl countedUrls runtime.store) runtime.objectUrls
        [[0xA9, 1, 0x61, 0xC3, 0xA9, 1, 2]] := by
  have hsafe : ∀ calls ∈ sampleCalls.inits, ∀ content ∈ (Contents.run calls).blobs,
      content.length ≤ maxSafeInteger := by decide +kernel
  have hcontents : Contents.run sampleCalls =
      ⟨[[], [0xA9, 1], [], [0xA9, 1, 0x61, 0xC3, 0xA9, 1, 2]],
        [[0xA9, 1, 0x61, 0xC3, 0xA9, 1, 2]]⟩ := by decide +kernel
  have hreads := run_reads countedUuids countedUrls none utf8Decoder sampleCalls fun n =>
    hsafe _ ((mem_inits _ _).mpr (List.take_prefix n sampleCalls))
  rwa [hcontents] at hreads

/-! ### Lines and large sizes -/

variable (k : ℕ)

/-- A blob of one byte, then each blob twice in the next one. -/
def doublingCalls : List (BlobCall ℕ) :=
  .new [.string (js "x")] .transparent [] ::
    (List.range k).map fun index => .new [.blob index, .blob index] .transparent []

lemma doublingCalls_succ :
    doublingCalls (k + 1) = doublingCalls k ++ [.new [.blob k, .blob k] .transparent []] := by
  rw [doublingCalls, range_succ, map_append]
  rfl

lemma Contents.run_concat {Uuid : Type} (calls : List (BlobCall Uuid)) (call : BlobCall Uuid) :
    Contents.run (calls ++ [call]) = (Contents.run calls).step call := by
  rw [Contents.run, foldl_append]
  rfl

lemma blobAt_of_doubled {contents : Contents} {k : ℕ} (h : contents.blobs =
    (List.range (k + 1)).map fun exponent => List.replicate (2 ^ exponent) 0x78) :
    contents.blobAt k = List.replicate (2 ^ k) 0x78 := by
  rw [Contents.blobAt, h]
  simp

/-- Each blob has twice as many bytes as the one before. -/
lemma contents_doublingCalls : (Contents.run (doublingCalls k)).blobs =
    (List.range (k + 1)).map fun exponent => List.replicate (2 ^ exponent) 0x78 := by
  induction k with
  | zero => decide +kernel
  | succ k ih =>
    have hdouble : [.blob k, .blob k].flatMap
          ((Contents.run (doublingCalls k)).argument .transparent) =
        List.replicate (2 ^ (k + 1)) 0x78 := by
      simp [Contents.argument, blobAt_of_doubled ih, Nat.pow_succ, Nat.mul_two]
    rw [doublingCalls_succ, Contents.run_concat, range_succ, map_append, ← ih, Contents.step,
      hdouble]
    rfl

lemma length_blobAt_doublingCalls : ((Contents.run (doublingCalls k ++
        [.new [.blob k, .string (js "y")] .transparent []])).blobAt (k + 1)).length = 2 ^ k + 1 := by
  have hblobs := contents_doublingCalls k
  have hstring : (encodeString .transparent (js "y")).length = 1 := by decide +kernel
  rw [Contents.run_concat, Contents.step, Contents.blobAt, hblobs]
  simp [Contents.argument, blobAt_of_doubled hblobs, hstring]

/-- With native line endings a string loses bytes, and after 53 doublings one more byte is not
counted. -/
theorem size_ne_length : (Runtime.run countedUuids countedUrls none
        [.new [.string (js "\r\n")] .native []]).map (fun runtime => runtime.blobs.map Blob.size) =
      .ok [1] ∧
    (encodeText (js "\r\n")).length = 2 ∧
    (Runtime.run countedUuids countedUrls none
        (doublingCalls 53 ++ [.new [.blob 53, .string (js "y")] .transparent []])).map
        (fun runtime => (runtime.blobAt 54).size) = .ok (2 ^ 53) ∧
    ((Contents.run
        (doublingCalls 53 ++ [.new [.blob 53, .string (js "y")] .transparent []])).blobAt 54).length =
      2 ^ 53 + 1 :=
  ⟨by decide +kernel, by decide +kernel, by decide +kernel, length_blobAt_doublingCalls 53⟩

end Deno.Web
