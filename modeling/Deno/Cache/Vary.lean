import Deno.Cache.Store

/-!
# Queries and the header `Vary`

The headers of an entry are read back as they were stored. For an entry with a body, the first of
the headers `Vary` is looked at, and the first value of each header that it lists.
-/

namespace Deno.Cache

open Core List Header

/-! ### Headers are read back -/

lemma deserializeLoop_append {line rest piece : Bytes} (h : 13 ∉ line) (name : Option Bytes)
    (headers : List HeaderPair) :
    deserializeLoop (line ++ rest) piece name headers =
      deserializeLoop rest (piece ++ line) name headers := by
  induction line generalizing piece with
  | nil => simp
  | cons b line ih =>
    rw [mem_cons, not_or] at h
    rw [cons_append, deserializeLoop, ih h.2, append_assoc, singleton_append]
    · exact fun _ _ hb _ => h.1 hb.symm
    · exact fun _ _ _ hb _ => h.1 hb.symm

variable (headers : List Header)

lemma deserializeLoop_serializeHeaders (before : List HeaderPair) :
    deserializeLoop (serializeHeaders (headers.map pair)) [] none before =
      .ok (before ++ headers.map pair) := by
  induction headers generalizing before with
  | nil => simp [serializeHeaders, deserializeLoop]
  | cons header headers ih =>
    have hserialize : serializeHeaders ((header :: headers).map pair) =
        header.name ++ 13 :: 10 :: (header.value ++
          13 :: 10 :: serializeHeaders (headers.map pair)) := by
      simp [serializeHeaders, pair]
    rw [hserialize, deserializeLoop_append header.name_line, deserializeLoop,
      deserializeLoop_append header.value_line, deserializeLoop, ih]
    simp [pair]

/-! ### What a response varies on -/

/-- The values of a header, whose name is given in small letters. -/
def valuesOf (name : List Char) (headers : List Header) : List Bytes :=
  (headers.filter fun header => (chars header.name).map Char.toLower = name).map (·.value)

/-- The names that a header lists, in small letters and without the spaces around them. -/
def fieldNames (value : Bytes) : List (List Char) :=
  ((chars value).splitOn ',').map fun field => (trim field).map Char.toLower

/-- A query has the values of the stored request for every header that the response varies on. -/
def Honours (put : CachePutRequest) (query : List Header) : Prop :=
  ∀ vary ∈ valuesOf "vary".toList put.responseHeaders, ∀ name ∈ fieldNames vary,
    valuesOf name query = valuesOf name put.requestHeaders

lemma getHeader_eq (name : List Char) (headers : List Header) : getHeader name (headers.map pair) =
      (valuesOf (name.map Char.toLower) headers).head? := by
  have hname (header : Header) : (fromUtf8 header.pair.1).any (eqIgnoreAsciiCase · name) =
      decide ((chars header.name).map Char.toLower = name.map Char.toLower) := by
    rw [Bool.eq_iff_iff]
    simp [pair, fromUtf8_of_ascii header.name_ascii, eqIgnoreAsciiCase]
  rw [getHeader, valuesOf, find?_map, head?_map, head?_filter, Option.map_map]
  simp only [Function.comp_def, hname]
  rfl

lemma mem_chars_lt {bytes : Bytes} (h : ∀ b ∈ bytes, b < 0x80) {c : Char} (hc : c ∈ chars bytes) :
    ∃ n < 0x80, c = Char.ofNat n := by
  obtain ⟨b, hb, rfl⟩ := List.mem_map.mp hc
  exact ⟨b.toNat, UInt8.lt_iff_toNat_lt.mp (h b hb), rfl⟩

lemma toLower_toLower_of_lt :
    ∀ n < 0x80, (Char.ofNat n).toLower.toLower = (Char.ofNat n).toLower := by
  decide

section

variable {vary : Bytes} (hascii : ∀ b ∈ vary, b < 0x80)

include hascii

lemma ascii_of_mem_splitOn {field : List Char} (h : field ∈ (chars vary).splitOn ',') :
    ∀ c ∈ trim field, ∃ n < 0x80, c = Char.ofNat n :=
  fun _ hc => mem_chars_lt hascii (mem_of_mem_splitOn h (mem_of_mem_trim hc))

lemma getHeadersFromVaryHeader_eq (lower : Lowercase) :
    getHeadersFromVaryHeader lower (chars vary) = fieldNames vary := by
  refine map_congr_left fun field hfield => lower.ascii _ fun c hc => ?_
  obtain ⟨n, hn, rfl⟩ := ascii_of_mem_splitOn hascii hfield c hc
  rwa [char_toNat_of_lt (by omega)]

lemma toLower_of_mem_fieldNames {name : List Char} (h : name ∈ fieldNames vary) :
    name.map Char.toLower = name := by
  obtain ⟨field, hfield, rfl⟩ := List.mem_map.mp h
  rw [map_map]
  refine map_congr_left fun c hc => ?_
  obtain ⟨n, hn, rfl⟩ := ascii_of_mem_splitOn hascii hfield c hc
  exact toLower_toLower_of_lt n hn

lemma varyHeaderMatches_iff (lower : Lowercase) (query stored : List Header) :
    varyHeaderMatches lower vary (query.map pair) (stored.map pair) = true ↔
      ∀ name ∈ fieldNames vary, (valuesOf name query).head? = (valuesOf name stored).head? := by
  rw [varyHeaderMatches, fromUtf8_of_ascii hascii]
  simp only [getHeadersFromVaryHeader_eq hascii, all_eq_true, decide_eq_true_eq, getHeader_eq]
  refine forall₂_congr fun name hname => ?_
  rw [toLower_of_mem_fieldNames hascii hname]

end

/-! ### Entries -/

/-- Each row is that of a request, and its body is in a file. -/
def Sound (store : Store) : Prop :=
  ∀ row ∈ store.rows, ∃ (put : CachePutRequest) (bodyKey : Option (List Char)),
    row = put.row bodyKey ∧ ∀ key ∈ bodyKey, key ∈ store.files

namespace Sound

variable {store : Store}

lemma delete (h : Sound store) (cacheId : ℤ) (requestUrl : List Char) :
    Sound (store.delete cacheId requestUrl) :=
  fun row hrow => h row (mem_of_mem_filter hrow)

lemma put (h : Sound store) (put : CachePutRequest) (bodyKey : Option (List Char)) :
    Sound (store.put put bodyKey) := by
  intro row hrow
  cases bodyKey with
  | none =>
    cases hrow with
    | head => exact ⟨put, none, rfl, by simp⟩
    | tail _ hrow => exact h.delete _ _ row hrow
  | some key =>
    cases hrow with
    | head => exact ⟨put, some key, rfl, by simp [Store.put, Store.insertCacheAsset, Store.delete]⟩
    | tail _ hrow =>
      obtain ⟨put', bodyKey', hrow', hfiles⟩ := h.delete _ _ row hrow
      exact ⟨put', bodyKey', hrow', fun key' hkey => mem_cons_of_mem _ (hfiles key' hkey)⟩

lemma matchRequest (h : Sound store) {lower : Lowercase} {cacheId : ℤ} {requestUrl : List Char}
    {query : List Header} {result} {store' : Store}
    (hmatch : store.matchRequest lower cacheId requestUrl query = .ok (result, store')) :
    Sound store' := by
  obtain ⟨queryResult, -, hmatch⟩ := bind_eq_ok.mp hmatch
  revert hmatch
  rcases queryResult with - | ⟨cacheMeta, - | key⟩
  · rintro ⟨⟩
    exact h
  · rintro ⟨⟩
    exact h
  · dsimp only
    split_ifs
    · rintro ⟨⟩
      exact h
    · rintro ⟨⟩
      exact h
    · rintro ⟨⟩
      exact h.delete cacheId requestUrl

lemma step (lower : Lowercase) (store : Store) (operation : Operation) (h : Sound store) :
    Sound ((machine lower).step store operation) := by
  cases operation with
  | put args bodyKey =>
    cases hput : cachePut store args bodyKey with
    | error e => simpa [machine, hput, Except.toOption] using h
    | ok store' =>
      obtain ⟨-, -, ⟨⟩⟩ := bind_eq_ok.mp hput
      simpa [machine, hput, Except.toOption] using h.put args.toCachePutRequest bodyKey
  | delete cacheId requestUrl => exact h.delete cacheId requestUrl
  | matchRequest cacheId requestUrl query =>
    cases hmatch : store.matchRequest lower cacheId requestUrl query with
    | error e => simpa [machine, hmatch, Except.toOption] using h
    | ok result =>
      simpa [machine, hmatch, Except.toOption] using h.matchRequest hmatch

end Sound

lemma sound_run (lower : Lowercase) (operations : List Operation) :
    Sound ((machine lower).run ⟨[], []⟩ operations) :=
  Machine.run_invariant (Sound.step lower) (fun _ hrow => absurd hrow not_mem_nil) operations

/-! ### Queries -/

def CachePutRequest.responseMeta (put : CachePutRequest) : CacheMatchResponseMeta :=
  ⟨put.responseStatus, put.responseStatusText, put.requestHeaders.map pair,
    put.responseHeaders.map pair⟩

variable {put : CachePutRequest} {bodyKey : Option (List Char)} {query : List Header}

/-- A header that the first line of `Vary` lists has another first value in the query. -/
def Differs (put : CachePutRequest) (query : List Header) : Prop :=
  ∃ vary ∈ (valuesOf "vary".toList put.responseHeaders).head?, ∃ name ∈ fieldNames vary,
    (valuesOf name query).head? ≠ (valuesOf name put.requestHeaders).head?

lemma not_honours_of_differs (h : Differs put query) : ¬ Honours put query := by
  obtain ⟨vary, hvary, name, hname, hne⟩ := h
  exact fun hhonours => hne (congrArg head? (hhonours vary (mem_of_head? hvary) name hname))

lemma check_iff (lower : Lowercase)
    (hascii : ∀ vary ∈ (valuesOf "vary".toList put.responseHeaders).head?, ∀ b ∈ vary, b < 0x80) :
    ((getHeader "vary".toList put.responseMeta.responseHeaders).any fun vary =>
      !varyHeaderMatches lower vary (query.map pair) put.responseMeta.requestHeaders) = true ↔
        Differs put query := by
  have hlower : "vary".toList.map Char.toLower = "vary".toList := by decide +kernel
  rw [CachePutRequest.responseMeta, getHeader_eq, hlower, Differs]
  cases hvary : (valuesOf "vary".toList put.responseHeaders).head? with
  | none => simp
  | some vary =>
    have hmatches := varyHeaderMatches_iff (hascii vary hvary) lower query put.requestHeaders
    simp only [Option.any_some, Option.mem_some_iff, exists_eq_left', Bool.not_eq_true',
      ← Bool.not_eq_true, hmatches, not_forall, exists_prop, ne_eq]

/-- The headers of the row that is found are read. -/
lemma queryRow_eq {store : Store}
    (h : store.find put.cacheId put.requestUrl = some (put.row bodyKey)) :
    store.queryRow put.cacheId put.requestUrl = .ok (some (put.responseMeta, bodyKey)) := by
  simp [Store.queryRow, h, CachePutRequest.row, deserializeHeaders,
    deserializeLoop_serializeHeaders, bind, Except.bind, pure, Except.pure, CachePutRequest.responseMeta]

/-- After every program, an entry is found for a query or not, with the headers that it was stored
with. This is right exactly if the query has the values that the response varies on, or if the entry
has a body and the difference is in the first values of a header that the first `Vary` lists. -/
theorem matchRequest_run_iff (lower : Lowercase) (operations : List Operation)
    (hrow : ((machine lower).run ⟨[], []⟩ operations).find put.cacheId put.requestUrl =
      some (put.row bodyKey))
    (hascii : ∀ vary ∈ (valuesOf "vary".toList put.responseHeaders).head?, ∀ b ∈ vary, b < 0x80) :
    ∃ result, ((machine lower).run ⟨[], []⟩ operations).matchRequest lower put.cacheId
        put.requestUrl query = .ok (result, (machine lower).run ⟨[], []⟩ operations) ∧
      (result = some (put.responseMeta, bodyKey) ∨ result = none) ∧
      ((result = some (put.responseMeta, bodyKey) ↔ Honours put query) ↔
        Honours put query ∨ bodyKey ≠ none ∧ Differs put query) := by
  have hsound := sound_run lower operations
  generalize (machine lower).run ⟨[], []⟩ operations = store at *
  have hcheck := @check_iff _ query lower hascii
  unfold Store.matchRequest
  rw [queryRow_eq hrow]
  cases bodyKey with
  | none => exact ⟨_, rfl, .inl rfl, by simp⟩
  | some key =>
    obtain ⟨_, _, heq, hfiles⟩ := hsound _ (mem_of_find?_eq_some hrow)
    have hfile : store.files.contains key = true :=
      List.contains_iff_mem.mpr (hfiles key (congrArg Row.responseBodyKey heq).symm)
    by_cases hdiffers : Differs put query
    · refine ⟨none, ?_, .inr rfl, by simp [hdiffers, not_honours_of_differs hdiffers]⟩
      simp only [bind, Except.bind, pure, Except.pure, hcheck.mpr hdiffers, if_true]
    · refine ⟨some (put.responseMeta, some key), ?_, .inl rfl, by simp [hdiffers]⟩
      rw [← hcheck] at hdiffers
      simp only [bind, Except.bind, pure, Except.pure, hdiffers, hfile, Bool.false_eq_true, if_false,
        if_true]

/-! ### A sample -/

def asciiLowercase : Lowercase where
  toLowercase text := text.map Char.toLower
  ascii _ _ := rfl

def sampleAccept : Header where
  name := "Accept".toList.map fun c => c.toNat.toUInt8
  value := [97]
  name_ascii := List.all_iff_forall_prop.mp (by decide)
  name_line := by decide
  value_line := by decide

def sampleVary : Header where
  name := "VARY".toList.map fun c => c.toNat.toUInt8
  value := " accept ,x".toList.map fun c => c.toNat.toUInt8
  name_ascii := List.all_iff_forall_prop.mp (by decide)
  name_line := by decide
  value_line := by decide

/-- The answer to a request with a header `Accept` that varies on it. -/
def samplePut : PutArguments where
  cacheId := 1
  requestUrl := "https://deno.land/".toList
  requestHeaders := [sampleAccept]
  responseHeaders := [sampleVary]
  responseStatus := 200
  responseStatusText := []
  protocol := "https:".toList
  method := "GET".toList
  unusable := false

lemma cachePut_samplePut (store : Store) (bodyKey : Option (List Char)) :
    cachePut store samplePut bodyKey = .ok (store.put samplePut.toCachePutRequest bodyKey) := by
  have hcheck : checkPut samplePut = .ok () := by decide +kernel
  simp [cachePut, hcheck, bind, Except.bind, pure, Except.pure]

lemma find_samplePut (bodyKey : Option (List Char)) :
    ((machine asciiLowercase).run ⟨[], []⟩ [.put samplePut bodyKey]).find samplePut.cacheId
      samplePut.requestUrl = some (samplePut.row bodyKey) := by
  cases bodyKey with
  | none | some key =>
    simp [Machine.run, machine, cachePut_samplePut, Except.toOption, Store.put,
      Store.insertCacheAsset, Store.find, CachePutRequest.row]

lemma valuesOf_samplePut :
    valuesOf "vary".toList samplePut.responseHeaders = [sampleVary.value] := by
  decide +kernel

lemma not_honours_samplePut : ¬ Honours samplePut.toCachePutRequest [] := by
  intro h
  have hvalues := h sampleVary.value (by decide +kernel) "accept".toList (by decide +kernel)
  exact absurd hvalues (by decide +kernel)

/-- An entry without a body is the answer to a query without the header that it varies on. -/
theorem matchRequest_ignores_vary : ¬ Honours samplePut.toCachePutRequest [] ∧
      ((machine asciiLowercase).run ⟨[], []⟩ [.put samplePut none]).matchRequest asciiLowercase
        samplePut.cacheId samplePut.requestUrl [] = .ok (some (samplePut.responseMeta, none),
            (machine asciiLowercase).run ⟨[], []⟩ [.put samplePut none]) := by
  refine ⟨not_honours_samplePut, ?_⟩
  rw [Store.matchRequest, queryRow_eq (find_samplePut none)]
  rfl

lemma ascii_samplePut : ∀ vary ∈ (valuesOf "vary".toList samplePut.responseHeaders).head?,
    ∀ b ∈ vary, b < 0x80 := by
  rw [valuesOf_samplePut]
  rintro _ ⟨⟩
  exact List.all_iff_forall_prop.mp (by decide)

theorem matchRequest_run_iff_sample : ¬ Honours samplePut.toCachePutRequest [] ∧
      ∃ result, ((machine asciiLowercase).run ⟨[], []⟩ [.put samplePut (some ['k'])]).matchRequest
          asciiLowercase samplePut.cacheId samplePut.requestUrl [] =
          .ok (result, (machine asciiLowercase).run ⟨[], []⟩ [.put samplePut (some ['k'])]) ∧
        (result = some (samplePut.responseMeta, some ['k']) ↔
          Honours samplePut.toCachePutRequest []) := by
  obtain ⟨result, hmatch, -, hright⟩ := @matchRequest_run_iff _ _ [] asciiLowercase _
    (find_samplePut (some ['k'])) ascii_samplePut
  have hdiffers : Differs samplePut.toCachePutRequest [] := by
    refine ⟨sampleVary.value, ?_, "accept".toList, by decide +kernel, by decide +kernel⟩
    rw [valuesOf_samplePut]
    rfl
  exact ⟨not_honours_samplePut, result, hmatch, hright.mpr (.inr ⟨by simp, hdiffers⟩)⟩

end Deno.Cache
