import Deno.Kv.ListingRuns

/-!
# Resuming a listing

A listing that is given the cursor of an entry goes on behind it, unless the cursor is empty: then
the key of the entry is what all keys of the range have in common, and the listing starts over.
-/

namespace Deno.Kv

open Core RawSelector List KvListIterator

variable {Part : Type} {codec : Codec Part} {Value : Type} {base64 : Base64}
  {store : Store codec Value}

/-! ### Reads that succeed -/

variable {entries : List (Option (Entry codec Value))} {it it' : KvListIterator codec Value}
variable {n : ℕ}

section

variable {sel : KvListSelector Part} {raw : RawSelector} {reverse : Bool} {batchSize : ℕ}

lemma of_pullBatch_eq_ok {cursor : Option String} {batch : List (Entry codec Value)}
    (hraw : fromTuple codec sel.pre sel.start sel.stop = .ok raw)
    (h : pullBatch base64 store batchSize sel cursor reverse = .ok batch) :
    ∃ s e, decodeSelectorAndCursor base64.decode raw reverse cursor = .ok (s, e) ∧
      s.length ≤ maxReadKeySizeBytes ∧ e.length ≤ maxReadKeySizeBytes ∧
      batchSize ≤ maxReadEntries := by
  obtain ⟨batches, hbatches, -⟩ := bind_eq_ok.mp h
  obtain ⟨ranges, hranges, hsum⟩ := bind_eq_ok.mp hbatches
  obtain ⟨range, -, hrange, -⟩ := mapM_cons_eq_ok.mp hranges
  obtain ⟨raw', hraw', hrest⟩ := bind_eq_ok.mp hrange
  obtain rfl : raw = raw' := Except.ok.inj (hraw.symm.trans hraw')
  obtain ⟨⟨s, e⟩, hdecode, hrest⟩ := bind_eq_ok.mp hrest
  obtain ⟨_, hs, hrest⟩ := bind_eq_ok.mp hrest
  obtain ⟨_, he, -⟩ := bind_eq_ok.mp hrest
  refine ⟨s, e, hdecode, checkReadKeySize_eq_ok.mp hs, checkReadKeySize_eq_ok.mp he, ?_⟩
  by_contra hlt
  rw [if_pos (by simpa using hlt)] at hsum
  cases hsum

variable {options : ListOptions}

lemma pullBatch_of_next {it : KvListIterator codec Value}
    (hlist : list sel options = .ok it) (hlimit : options.limit = none)
    {r : Option (Entry codec Value) × KvListIterator codec Value}
    (h : it.next base64 store = .ok r) :
    ∃ cursor batch, callCursorGen codec base64 sel (startCursor options.cursor) = .ok cursor ∧
      pullBatch base64 store it.batchSize sel cursor options.reverse = .ok batch := by
  obtain ⟨hsel, hentries, hcursor, hdone, hlast, hlimit', -, hreverse, -, -⟩ := list_eq_ok hlist
  rw [KvListIterator.next, hdone, hlimit', hlimit] at h
  obtain ⟨it', hfill, -⟩ := bind_eq_ok.mp h
  rw [fill, hentries, hlast] at hfill
  obtain ⟨cursor, hcall, hrest⟩ := bind_eq_ok.mp hfill
  obtain ⟨batch, hbatch, -⟩ := bind_eq_ok.mp hrest
  rw [hsel, hcursor] at hcall
  rw [hsel, hreverse] at hbatch
  exact ⟨cursor, batch, hcall, hbatch⟩

lemma next_of_nexts (h : it.nexts base64 store (n + 1) = .ok (entries, it')) :
    ∃ r, it.next base64 store = .ok r := by
  obtain ⟨r, hr, -⟩ := bind_eq_ok.mp h
  exact ⟨r, hr⟩

/-- A listing without a cursor that gives anything reads a range that is not too large. -/
lemma readable_of_nexts (hlist : list sel options = .ok it) (hlimit : options.limit = none)
    (hcursor : options.cursor = none)
    (hraw : fromTuple codec sel.pre sel.start sel.stop = .ok raw) (hn : 0 < n)
    (h : it.nexts base64 store n = .ok (entries, it')) :
    Readable raw ∧ it.batchSize ≤ maxReadEntries := by
  obtain ⟨n, rfl⟩ := Nat.exists_eq_succ_of_ne_zero (Nat.pos_iff_ne_zero.mp hn)
  obtain ⟨r, hr⟩ := next_of_nexts h
  obtain ⟨cursor, batch, hcall, hbatch⟩ := pullBatch_of_next hlist hlimit hr
  rw [hcursor] at hcall
  cases hcall
  obtain ⟨s, e, hdecode, hs, he, hmax⟩ := of_pullBatch_eq_ok hraw hbatch
  cases hdecode
  exact ⟨⟨hs, he⟩, hmax⟩

end

/-! ### Going on behind an entry -/

section

variable {sel : KvListSelector Part} {raw : RawSelector} {reverse : Bool}
  {e : Entry codec Value} {batchSize : Option ℕ}

/-- The cursor after a number of calls is that of the entry that was given out last. -/
lemma cursor_of_nexts (hlist : list sel { batchSize, reverse } = .ok it)
    (hraw : fromTuple codec sel.pre sel.start sel.stop = .ok raw) (hreadable : Readable raw)
    (hmax : it.batchSize ≤ maxReadEntries) (hn : 0 < n)
    (h : it.nexts base64 store n = .ok (entries, it'))
    (he : e ∈ (entriesIn store raw reverse)[n - 1]?) :
    it'.cursor base64 = .ok (cursorOf base64 raw e) := by
  obtain ⟨hsel, -, -, -, -, hlimit, hcount, -⟩ := list_eq_ok hlist
  have hposition : KvListIterator.Position base64 store raw (entriesIn store raw reverse) it :=
    .of_list hlist hraw hreadable hmax suffix_rfl (resumes_unset hraw hreadable)
  obtain ⟨it'', hnexts, hsel', hcursor⟩ := hposition.nexts n
  obtain rfl : it' = it'' := congrArg Prod.snd (Except.ok.inj (h.symm.trans hnexts))
  have hleft : it.left (entriesIn store raw reverse) = entriesIn store raw reverse := by
    rw [left_of_count_eq_zero hcount, hlimit]
    rfl
  rw [hleft] at hcursor
  have hmem : e ∈ entriesIn store raw reverse := mem_of_getElem? he
  rw [cursor, hcursor e he hn, hsel', hsel, callCursorGen, opKvEncodeCursor_eq hraw hmem]
  rfl

/-- The cursor is empty for the key that is the common part. -/
lemma cursorOf_eq_empty_iff (hcommon : raw.commonPrefix <+: e.bytes) :
    cursorOf base64 raw e = "" ↔ e.bytes = raw.commonPrefix := by
  rw [cursorOf, base64.encode_eq_empty, drop_eq_nil_iff]
  constructor
  · intro hle
    exact (hcommon.eq_of_length_le hle).symm
  · intro heq
    rw [heq]

/-- With the cursor of an entry, a new iterator stands behind it. -/
lemma position_of_cursor {it : KvListIterator codec Value} {before rest : List (Entry codec Value)}
    (hentries : entriesIn store raw reverse = before ++ e :: rest)
    (hlist : list sel { batchSize, reverse, cursor := some (cursorOf base64 raw e) } = .ok it)
    (hraw : fromTuple codec sel.pre sel.start sel.stop = .ok raw) (hreadable : Readable raw)
    (hmax : it.batchSize ≤ maxReadEntries) (hne : cursorOf base64 raw e ≠ "") :
    KvListIterator.Position base64 store raw rest it := by
  refine .of_list hlist hraw hreadable hmax ?_ fun batchSize hpos hbatch => ?_
  · exact ⟨before ++ [e], by simp [hentries]⟩
  · refine ⟨some (cursorOf base64 raw e), ?_,
      pullBatch_cursorOf hraw hpos hbatch hreadable hentries⟩
    simp [startCursor, hne, callCursorGen]

end

/-- A new listing with the cursor that was read after an entry gives the entries behind it exactly
if its batches are not too large and the key of that entry is not the common part of the range. -/
theorem list_cursor_iff (base64 : Base64) (store : Store codec Value) {sel : KvListSelector Part}
    {raw : RawSelector} (hraw : fromTuple codec sel.pre sel.start sel.stop = .ok raw)
    {reverse : Bool} {batchSize batchSize' : Option ℕ} {it it' new : KvListIterator codec Value}
    (hlist : list sel { batchSize, reverse } = .ok it) {j : ℕ} (hpos : 0 < j)
    (hj : j ≤ (store.selected sel reverse).length) {entries : List (Option (Entry codec Value))}
    (hnexts : it.nexts base64 store j = .ok (entries, it')) {cursor : String}
    (hcursor : it'.cursor base64 = .ok cursor)
    (hnew : list sel { batchSize := batchSize', reverse, cursor := some cursor } = .ok new) :
    (∀ n, ∃ last, new.nexts base64 store n =
        .ok ((List.range n).map (((store.selected sel reverse).drop j)[·]?), last)) ↔
      new.batchSize ≤ maxReadEntries ∧
        ∀ e ∈ (store.selected sel reverse)[j - 1]?, e.bytes ≠ raw.commonPrefix := by
  obtain ⟨hreadable, hmax⟩ := readable_of_nexts hlist rfl rfl hraw hpos hnexts
  obtain ⟨-, -, -, -, -, hlimit, hcount, -, -, hstop⟩ := list_eq_ok hnew
  rw [selected_eq hraw hstop] at hj ⊢
  generalize hall : entriesIn store raw reverse = all at hj ⊢
  have hlt : j - 1 < all.length := by omega
  have hget : all[j - 1]? = some all[j - 1] := getElem?_eq_getElem hlt
  have hsplit : all = all.take (j - 1) ++ all[j - 1] :: all.drop j := by
    conv_lhs => rw [← take_append_drop (j - 1) all, drop_eq_getElem_cons hlt]
    rw [Nat.sub_add_cancel hpos]
  generalize all[j - 1] = e at hget hsplit
  subst hall
  have hmem : e ∈ entriesIn store raw reverse := mem_of_getElem? hget
  obtain ⟨-, hstart, hend⟩ := mem_entriesIn.mp hmem
  have hcommon := commonPrefix_prefix (valid_of_fromTuple hraw) hstart hend
  obtain rfl : cursorOf base64 raw e = cursor :=
    Except.ok.inj ((cursor_of_nexts hlist hraw hreadable hmax hpos hnexts hget).symm.trans hcursor)
  have hleft (rest : List (Entry codec Value)) : new.left rest = rest := by
    rw [left_of_count_eq_zero hcount, hlimit]
    rfl
  rw [hget]
  simp only [Option.mem_some_iff, forall_eq']
  constructor
  · intro h
    obtain ⟨last, hone⟩ := h 1
    obtain ⟨r, hr⟩ := next_of_nexts hone
    obtain ⟨_, batch, -, hbatch⟩ := pullBatch_of_next hnew rfl hr
    obtain ⟨-, -, -, -, -, hmax'⟩ := of_pullBatch_eq_ok hraw hbatch
    refine ⟨hmax', fun heq => ?_⟩
    -- the new listing starts over, so its last entry comes too late
    have hresumes : KvListIterator.Resumes base64 store sel reverse
        (startCursor (some (cursorOf base64 raw e)))
        (entriesIn store raw reverse) := by
      rw [(cursorOf_eq_empty_iff hcommon).mpr heq]
      exact resumes_unset hraw hreadable
    have hposition : KvListIterator.Position base64 store raw (entriesIn store raw reverse) new :=
      .of_list hnew hraw hreadable hmax' suffix_rfl hresumes
    obtain ⟨it₁, hover, -⟩ := hposition.nexts (entriesIn store raw reverse).length
    obtain ⟨it₂, hbehind⟩ := h (entriesIn store raw reverse).length
    rw [hleft, hbehind, Except.ok.injEq, Prod.mk.injEq, map_inj_left] at hover
    have hsame := hover.1 ((entriesIn store raw reverse).length - 1) (List.mem_range.mpr (by omega))
    rw [getElem?_drop, getElem?_eq_none (by omega)] at hsame
    have hnone := List.getElem?_eq_none_iff.mp hsame.symm
    omega
  · rintro ⟨hmax', hne⟩ n
    have hposition := position_of_cursor hsplit hnew hraw hreadable hmax'
      (mt (cursorOf_eq_empty_iff hcommon).mp hne)
    obtain ⟨last, hlast, -⟩ := hposition.nexts n
    rw [hleft] at hlast
    exact ⟨last, hlast⟩

theorem list_cursor_iff_sample : ∃ it it' new : KvListIterator sampleCodec Unit, ∃ entries cursor,
      it.nexts sampleBase64 sampleStore 2 = .ok (entries, it') ∧
      it'.cursor sampleBase64 = .ok cursor ∧
      list sampleSelector { cursor := some cursor } = .ok new ∧
      ((∀ n, ∃ last, new.nexts sampleBase64 sampleStore n = .ok ((List.range n).map
            (((sampleStore.selected sampleSelector false).drop 2)[·]?), last)) ↔
        new.batchSize ≤ maxReadEntries ∧
          ∀ e ∈ (sampleStore.selected sampleSelector false)[1]?, e.bytes ≠ [1, 97]) := by
  obtain ⟨it, it', new, entries, cursor, hlist, hnexts, hcursor, hnew⟩ :
      ∃ it it' new : KvListIterator sampleCodec Unit, ∃ entries cursor,
        list sampleSelector {} = .ok it ∧
        it.nexts sampleBase64 sampleStore 2 = .ok (entries, it') ∧
        it'.cursor sampleBase64 = .ok cursor ∧
        list sampleSelector { cursor := some cursor } = .ok new :=
    ⟨_, _, _, _, _, rfl, rfl, rfl, rfl⟩
  have hlength : 2 ≤ (sampleStore.selected sampleSelector false).length := by
    rw [selected_eq sample_raw (by simp [sampleSelector])]
    decide
  exact ⟨it, it', new, entries, cursor, hnexts, hcursor, hnew,
    list_cursor_iff sampleBase64 sampleStore sample_raw hlist (by decide) hlength hnexts hcursor
      hnew⟩

/-- The key of the first entry is the common part of the range, and the listing starts over. -/
theorem list_cursor_startsOver :
    ∃ it it' new : KvListIterator sampleCodec Unit, ∃ e : Entry sampleCodec Unit,
      list sampleSelector {} = .ok it ∧
      it.next sampleBase64 sampleStore = .ok (some e, it') ∧
      it'.cursor sampleBase64 = .ok "" ∧
      list sampleSelector { cursor := some "" } = .ok new ∧
      ∃ last, new.next sampleBase64 sampleStore = .ok (some e, last) :=
  ⟨_, _, _, _, rfl, rfl, rfl, rfl, _, rfl⟩

end Deno.Kv
