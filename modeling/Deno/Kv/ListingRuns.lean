import Deno.Core.Utf16
import Deno.Kv.Listing

/-!
# Whole listings

An iterator stands before the entries that it has not given out yet. Its buffer holds the first of
them, and its cursor reads the others. So the calls give the entries of the range one after the
other, whatever the size of the batches.
-/

namespace Deno.Kv

open Core RawSelector List Codec

variable {Part : Type} {codec : Codec Part} {Value : Type} {base64 : Base64}
  {store : Store codec Value}

/-! ### Entries in a direction -/

/-- An entry comes before another one in the direction of a listing. -/
def Before (reverse : Bool) (a b : Entry codec Value) : Prop :=
  if reverse then b.bytes < a.bytes else a.bytes < b.bytes

instance (reverse : Bool) (a b : Entry codec Value) : Decidable (Before reverse a b) := by
  unfold Before
  infer_instance

variable {reverse : Bool}

lemma Before.asymm {a b : Entry codec Value} (h : Before reverse a b) : ¬ Before reverse b a := by
  cases reverse with
  | false => exact List.lt_asymm (h : a.bytes < b.bytes)
  | true => exact List.lt_asymm (h : b.bytes < a.bytes)

lemma pairwise_inDirection {entries : List (Entry codec Value)}
    (h : entries.Pairwise (·.bytes < ·.bytes)) (reverse : Bool) :
    (inDirection reverse entries).Pairwise (Before reverse) := by
  cases reverse with
  | false => exact h
  | true => exact List.pairwise_reverse.mpr h

lemma filter_inDirection {α : Type} (reverse : Bool) (p : α → Bool) (l : List α) :
    (inDirection reverse l).filter p = inDirection reverse (l.filter p) := by
  cases reverse with
  | false => rfl
  | true => exact filter_reverse ..

lemma filter_of_pairwise {α : Type} {R : α → α → Prop} [DecidableRel R]
    (hasymm : ∀ {a b}, R a b → ¬ R b a) {before rest : List α} {e : α}
    (h : (before ++ e :: rest).Pairwise R) : (before ++ e :: rest).filter (R e ·) = rest := by
  obtain ⟨-, hrest, hbefore⟩ := List.pairwise_append.mp h
  have hnone : before.filter (R e ·) = [] := by
    rw [filter_eq_nil_iff]
    intro a ha
    simpa using hasymm (hbefore a ha e mem_cons_self)
  have hself : ¬ R e e := fun he => hasymm he he
  have hall : rest.filter (R e ·) = rest := by
    rw [filter_eq_self]
    intro a ha
    simpa using rel_of_pairwise_cons hrest ha
  rw [filter_append, hnone, nil_append, filter_cons_of_neg (by simpa using hself), hall]

/-- The entries of the range of a selector, in a direction. -/
def entriesIn (store : Store codec Value) (raw : RawSelector) (reverse : Bool) :
    List (Entry codec Value) :=
  inDirection reverse
    (store.entries.filter fun e => raw.rangeStartKey ≤ e.bytes && e.bytes < raw.rangeEndKey)

variable {e : Entry codec Value} {raw : RawSelector}

lemma mem_entriesIn : e ∈ entriesIn store raw reverse ↔
      e ∈ store.entries ∧ raw.rangeStartKey ≤ e.bytes ∧ e.bytes < raw.rangeEndKey := by
  cases reverse with
  | false | true => simp [entriesIn, inDirection]

/-! ### Cursors -/

lemma commonPrefixForBytes_prefix (a b : Bytes) :
    commonPrefixForBytes a b <+: a ∧ commonPrefixForBytes a b <+: b := by
  fun_induction commonPrefixForBytes a b with
  | case1 a as bs ih =>
    exact ⟨List.cons_prefix_cons.mpr ⟨rfl, ih.1⟩, List.cons_prefix_cons.mpr ⟨rfl, ih.2⟩⟩
  | case2 | case3 => exact ⟨List.nil_prefix, nil_prefix⟩

lemma commonPrefix_prefix {k : Bytes} (hvalid : raw.Valid codec)
    (hstart : raw.rangeStartKey ≤ k) (hstop : k < raw.rangeEndKey) : raw.commonPrefix <+: k := by
  cases raw with
  | range start stop =>
    obtain ⟨ha, hb⟩ := commonPrefixForBytes_prefix start stop
    exact prefix_of_between ha hb hstart (List.le_of_lt hstop)
  | prefixed pre start stop =>
    obtain ⟨-, hs, he⟩ := hvalid
    refine prefix_of_between ?_ ?_ hstart (List.le_of_lt hstop)
    · cases start with
      | none => exact prefix_append pre [0]
      | some start => exact (hs start rfl).1
    · cases stop with
      | none => exact prefix_append pre [0xff]
      | some stop => exact (he stop rfl).1

/-- The bounds of the range are not too large to be read. -/
def Readable (raw : RawSelector) : Prop :=
  raw.rangeStartKey.length ≤ maxReadKeySizeBytes ∧ raw.rangeEndKey.length ≤ maxReadKeySizeBytes

lemma checkReadKeySize_eq_ok {key : Bytes} {u : Unit} :
    checkReadKeySize key = .ok u ↔ key.length ≤ maxReadKeySizeBytes := by
  unfold checkReadKeySize
  split_ifs with h
  · simpa using h
  · simpa using h

def cursorOf (base64 : Base64) (raw : RawSelector) (e : Entry codec Value) : String :=
  base64.encode (e.bytes.drop raw.commonPrefix.length)

variable {sel : KvListSelector Part}

lemma opKvEncodeCursor_eq (hraw : fromTuple codec sel.pre sel.start sel.stop = .ok raw)
    (he : e ∈ entriesIn store raw reverse) :
    opKvEncodeCursor codec base64 sel.pre sel.start sel.stop e.key =
      .ok (cursorOf base64 raw e) := by
  obtain ⟨-, hstart, hstop⟩ := mem_entriesIn.mp he
  have hcommon := commonPrefix_prefix (valid_of_fromTuple hraw) hstart hstop
  have hcheck : raw.commonPrefix.isPrefixOf e.bytes = true := List.isPrefixOf_iff_prefix.mpr hcommon
  simp [opKvEncodeCursor, hraw, e.encode_eq, encodeCursor, hcheck, cursorOf, bind, Except.bind]

lemma rangeStartKey_eq {s : Bytes} (h : s ∈ raw.start) : raw.rangeStartKey = s := by
  cases raw with
  | range start stop | prefixed pre start stop =>
    cases h
    rfl

lemma rangeEndKey_eq {s : Bytes} (h : s ∈ raw.stop) : raw.rangeEndKey = s := by
  cases raw with
  | range start stop | prefixed pre start stop =>
    cases h
    rfl

/-- The bounds that the cursor of an entry stands for. -/
lemma decodeSelectorAndCursor_cursorOf (base64 : Base64)
    (hvalid : raw.Valid codec) (he : e ∈ entriesIn store raw reverse) :
    decodeSelectorAndCursor base64.decode raw reverse (some (cursorOf base64 raw e)) =
      .ok (if reverse then (raw.rangeStartKey, e.bytes)
        else (e.bytes ++ [0], raw.rangeEndKey)) := by
  obtain ⟨-, hstart, hstop⟩ := mem_entriesIn.mp he
  obtain ⟨x, hx⟩ := commonPrefix_prefix hvalid hstart hstop
  have hdrop : e.bytes.drop raw.commonPrefix.length = x := by
    rw [← hx, drop_left]
  simp only [decodeSelectorAndCursor, cursorOf, base64.decode_encode, hdrop, hx]
  cases reverse with
  | false =>
    refine checkBounds_eq_ok.mpr ⟨⟨fun s hs => ?_, fun s hs => ?_⟩, rfl, rfl⟩
    · rw [← rangeStartKey_eq hs]
      exact List.le_trans hstart le_append_left
    · rw [← rangeEndKey_eq hs]
      exact List.le_refl _
  | true =>
    refine checkBounds_eq_ok.mpr ⟨⟨fun s hs => ?_, fun s hs => ?_⟩, rfl, rfl⟩
    · rw [← rangeStartKey_eq hs]
      exact List.le_refl _
    · rw [← rangeEndKey_eq hs]
      exact List.le_of_lt hstop

/-! ### Batches -/

section

variable {batchSize : ℕ} (hraw : fromTuple codec sel.pre sel.start sel.stop = .ok raw)
  (hpos : 0 < batchSize) (hmax : batchSize ≤ maxReadEntries)

include hraw hpos hmax

lemma pullBatch_eq {cursor : Option String} {s e : Bytes}
    (hdecode : decodeSelectorAndCursor base64.decode raw reverse cursor = .ok (s, e))
    (hs : s.length ≤ maxReadKeySizeBytes) (he : e.length ≤ maxReadKeySizeBytes) :
    KvListIterator.pullBatch base64 store batchSize sel cursor reverse =
      .ok (store.read ⟨s, e, batchSize, reverse⟩) := by
  have hs' : checkReadKeySize s = .ok () := checkReadKeySize_eq_ok.mpr hs
  have he' : checkReadKeySize e = .ok () := checkReadKeySize_eq_ok.mpr he
  have hread : readRange codec base64 ⟨sel.pre, sel.start, sel.stop, batchSize, reverse, cursor⟩ =
        .ok ⟨s, e, batchSize, reverse⟩ := by
    simp [readRange, hraw, hdecode, hs', he', Nat.pos_iff_ne_zero.mp hpos, bind, Except.bind]
  have hranges : ¬ 1 > maxReadRanges := by decide
  simp [KvListIterator.pullBatch, opKvSnapshotRead, hread, hranges, not_lt.mpr hmax, bind,
    Except.bind, pure, Except.pure]

variable {before rest : List (Entry codec Value)}

omit hraw hpos hmax in
lemma read_behind (hentries : entriesIn store raw reverse = before ++ e :: rest) {s t : Bytes}
    (hbounds : ∀ x : Entry codec Value, (s ≤ x.bytes ∧ x.bytes < t) ↔
      Before reverse e x ∧ raw.rangeStartKey ≤ x.bytes ∧ x.bytes < raw.rangeEndKey) :
    store.read ⟨s, t, batchSize, reverse⟩ = rest.take batchSize := by
  have hsorted : (entriesIn store raw reverse).Pairwise (Before reverse) :=
    pairwise_inDirection (store.sorted.filter _) reverse
  have hbehind : (entriesIn store raw reverse).filter (Before reverse e ·) = rest := by
    rw [hentries] at hsorted ⊢
    exact filter_of_pairwise Before.asymm hsorted
  rw [entriesIn, filter_inDirection, filter_filter] at hbehind
  rw [Store.read, ← hbehind]
  congr 2
  refine filter_congr fun x _ => ?_
  rw [Bool.eq_iff_iff]
  simpa using hbounds x

lemma pullBatch_cursorOf (hreadable : Readable raw)
    (hentries : entriesIn store raw reverse = before ++ e :: rest) :
    KvListIterator.pullBatch base64 store batchSize sel (some (cursorOf base64 raw e)) reverse =
      .ok (rest.take batchSize) := by
  have hmem : e ∈ entriesIn store raw reverse := by simp [hentries]
  obtain ⟨-, hstart, hstop⟩ := mem_entriesIn.mp hmem
  have hdecode := decodeSelectorAndCursor_cursorOf base64 (valid_of_fromTuple hraw) hmem
  have hlength : e.bytes.length + 1 ≤ maxReadKeySizeBytes := Nat.succ_le_succ e.length_le
  cases reverse with
  | false =>
    rw [pullBatch_eq hraw hpos hmax hdecode (by simpa using hlength) hreadable.2]
    refine congrArg _ (read_behind hentries fun x => ?_)
    rw [append_bot_le_iff RawSelector.zero_le]
    constructor
    · rintro ⟨hlt, hend⟩
      exact ⟨hlt, List.le_trans hstart (List.le_of_lt hlt), hend⟩
    · rintro ⟨hlt, -, hend⟩
      exact ⟨hlt, hend⟩
  | true =>
    rw [pullBatch_eq hraw hpos hmax hdecode hreadable.1 (Nat.le_of_succ_le hlength)]
    refine congrArg _ (read_behind hentries fun x => ?_)
    constructor
    · rintro ⟨hs, hlt⟩
      exact ⟨hlt, hs, List.lt_trans hlt hstop⟩
    · rintro ⟨hlt, hs, -⟩
      exact ⟨hs, hlt⟩

end

/-! ### Calls -/

namespace KvListIterator

/-- A cursor reads the entries that are left. -/
def Resumes (base64 : Base64) (store : Store codec Value) (sel : KvListSelector Part)
    (reverse : Bool) (cursorGen : CursorGen Part) (rest : List (Entry codec Value)) : Prop :=
  ∀ batchSize, 0 < batchSize → batchSize ≤ maxReadEntries →
    ∃ cursor, callCursorGen codec base64 sel cursorGen = .ok cursor ∧
      pullBatch base64 store batchSize sel cursor reverse = .ok (rest.take batchSize)

structure Position (base64 : Base64) (store : Store codec Value) (raw : RawSelector)
    (rest : List (Entry codec Value)) (it : KvListIterator codec Value) : Prop where
  raw_eq : fromTuple codec it.selector.pre it.selector.start it.selector.stop = .ok raw
  readable : Readable raw
  batch_pos : 0 < it.batchSize
  batch_le : it.batchSize ≤ maxReadEntries
  suffix : rest <:+ entriesIn store raw it.reverse
  buffered : ∃ more, rest = (it.entries.getD []).reverse ++ more ∧ (it.lastBatch → more = [])
  resumes : it.done = false → Resumes base64 store it.selector it.reverse it.cursorGen rest
  done : it.done → rest = []

def firstOf (limit : Option ℕ) (entries : List (Entry codec Value)) : List (Entry codec Value) :=
  match limit with
  | none => entries
  | some limit => entries.take limit

def left (it : KvListIterator codec Value) (rest : List (Entry codec Value)) :
    List (Entry codec Value) :=
  match it.limit with
  | none => rest
  | some limit => rest.take (limit - it.count)

variable {raw : RawSelector} {rest : List (Entry codec Value)} {it : KvListIterator codec Value}

@[simp] lemma left_nil (it : KvListIterator codec Value) : left it [] = [] := by
  unfold left
  cases it.limit with
  | none => rfl
  | some limit => exact take_nil

lemma left_cons {it' : KvListIterator codec Value}
    (hlimit : it'.limit = it.limit) (hcount : it'.count = it.count + 1)
    (hlt : ∀ limit ∈ it.limit, it.count < limit) : left it (e :: rest) = e :: left it' rest := by
  rw [left, left, hlimit, hcount]
  cases h : it.limit with
  | none => rfl
  | some limit =>
    have hsub : limit - it.count = limit - (it.count + 1) + 1 := by
      have hlt' := hlt limit h
      omega
    simp [hsub]

/-- The buffer is not empty after it has been filled, unless there is nothing left. -/
lemma Position.fill (h : Position base64 store raw rest it) (hdone : it.done = false) :
    ∃ it', it.fill base64 store = .ok it' ∧ Position base64 store raw rest it' ∧
      it'.done = false ∧ it'.limit = it.limit ∧ it'.count = it.count ∧ it'.selector = it.selector ∧
      (it'.entries.getD [] = [] → rest = []) := by
  obtain ⟨more, hrest, hlast⟩ := h.buffered
  unfold KvListIterator.fill
  split_ifs with hempty
  · obtain ⟨cursor, hcursor, hbatch⟩ := h.resumes hdone _ h.batch_pos h.batch_le
    simp only [hcursor, hbatch, bind, Except.bind, pure, Except.pure]
    refine ⟨_, rfl, ⟨h.raw_eq, h.readable, h.batch_pos, h.batch_le, h.suffix, ?_, h.resumes,
      h.done⟩, hdone, rfl, rfl, rfl, fun hnil => ?_⟩
    · refine ⟨rest.drop it.batchSize, by simp, fun hshort => ?_⟩
      have hlast' : it.lastBatch = false := by simpa using (Bool.and_eq_true_iff.mp hempty).2
      rw [hlast', Bool.false_or, decide_eq_true_eq, length_take] at hshort
      rw [drop_eq_nil_iff]
      omega
    · simp only [Option.getD_some, reverse_eq_nil_iff, take_eq_nil_iff] at hnil
      exact hnil.resolve_left (Nat.pos_iff_ne_zero.mp h.batch_pos)
  · refine ⟨it, rfl, h, hdone, rfl, rfl, rfl, fun hnil => ?_⟩
    have hlast' : it.lastBatch = true := by
      simpa [hnil] using hempty
    rw [hrest, hnil, hlast hlast']
    rfl

/-- The cursor of an entry of the range reads what is behind it. -/
lemma resumes_atKey
    (hraw : fromTuple codec sel.pre sel.start sel.stop = .ok raw) (hreadable : Readable raw)
    {before : List (Entry codec Value)}
    (hentries : entriesIn store raw reverse = before ++ e :: rest) :
    Resumes base64 store sel reverse (.atKey e.key) rest := by
  intro batchSize hpos hmax
  have hmem : e ∈ entriesIn store raw reverse := by simp [hentries]
  refine ⟨some (cursorOf base64 raw e), ?_, pullBatch_cursorOf hraw hpos hmax hreadable hentries⟩
  rw [callCursorGen, opKvEncodeCursor_eq hraw hmem]
  rfl

lemma Position.popEntry (h : Position base64 store raw (e :: rest) it)
    (hne : it.entries.getD [] ≠ []) :
    ∃ it', it.popEntry = (some e, it') ∧ Position base64 store raw rest it' ∧
      it'.limit = it.limit ∧ it'.count = it.count + 1 ∧ it'.selector = it.selector ∧
      it'.cursorGen = .atKey e.key := by
  obtain ⟨more, hrest, hlast⟩ := h.buffered
  obtain ⟨before, hbefore⟩ := h.suffix
  have hdone : it.done = false := by
    rw [← Bool.not_eq_true]
    intro hdone
    cases h.done hdone
  obtain ⟨buffer, e', hbuffer⟩ := (it.entries.getD []).eq_nil_or_concat'.resolve_left hne
  rw [hbuffer, reverse_append, reverse_singleton, singleton_append,
    cons_append, List.cons.injEq] at hrest
  obtain ⟨rfl, hrest⟩ := hrest
  have hgetLast : (it.entries.getD []).getLast? = some e := by
    rw [hbuffer, getLast?_concat]
  simp only [KvListIterator.popEntry, hgetLast]
  refine ⟨_, rfl, ⟨h.raw_eq, h.readable, h.batch_pos, h.batch_le, ?_, ⟨more, ?_, hlast⟩,
    fun _ => ?_, fun hd => ?_⟩, rfl, rfl, rfl, rfl⟩
  · exact (suffix_cons e rest).trans h.suffix
  · cases hentries : it.entries with
    | none => simp [hentries] at hbuffer
    | some entries =>
      rw [hentries, Option.getD_some] at hbuffer
      simp [hbuffer, hrest]
  · exact resumes_atKey h.raw_eq h.readable hbefore.symm
  · rw [hdone] at hd
    cases hd

lemma Position.next (h : Position base64 store raw rest it) :
    ∃ it' rest', it.next base64 store = .ok ((left it rest).head?, it') ∧
      Position base64 store raw rest' it' ∧ left it' rest' = (left it rest).tail ∧
      it'.selector = it.selector ∧ ∀ e ∈ (left it rest).head?, it'.cursorGen = .atKey e.key := by
  unfold KvListIterator.next
  split_ifs with hstop
  · have hleft : left it rest = [] := by
      rcases Bool.or_eq_true_iff.mp hstop with hdone | hlimit
      · rw [h.done hdone, left_nil]
      · obtain ⟨limit, hlimit, hcount⟩ := (Option.any_eq_true _ _).mp hlimit
        have hle : limit ≤ it.count := of_decide_eq_true hcount
        rw [left, hlimit]
        simp [Nat.sub_eq_zero_of_le hle]
    rw [hleft]
    exact ⟨it, rest, rfl, h, hleft, rfl, by simp⟩
  · rw [Bool.or_eq_true_iff, not_or, Bool.not_eq_true] at hstop
    obtain ⟨hdone, hlimit⟩ := hstop
    obtain ⟨it', hfill, h', hdone', hlimit', hcount', hselector', hempty⟩ := h.fill hdone
    simp only [hfill, bind, Except.bind, pure, Except.pure]
    cases rest with
    | nil =>
      have hnil : it'.entries.getD [] = [] := by
        obtain ⟨more, hrest, -⟩ := h'.buffered
        simpa using (List.append_eq_nil_iff.mp hrest.symm).1
      have hgetLast : (it'.entries.getD []).getLast? = none := by rw [hnil, getLast?_nil]
      simp only [KvListIterator.popEntry, hgetLast, left_nil, head?_nil, tail_nil]
      refine ⟨_, [], rfl, ⟨h'.raw_eq, h'.readable, h'.batch_pos, h'.batch_le, h'.suffix,
        h'.buffered, ?_, fun _ => rfl⟩, left_nil _, hselector', by simp⟩
      intro hdone
      cases hdone
    | cons e rest =>
      obtain ⟨it'', hpop, h'', hlimit'', hcount'', hselector'', hcursor⟩ :=
        h'.popEntry (fun hnil => by cases hempty hnil)
      have hlt (limit : ℕ) (hmem : limit ∈ it.limit) : it.count < limit := by
        by_contra hge
        exact hlimit ((Option.any_eq_true _ _).mpr ⟨limit, hmem, decide_eq_true (not_lt.mp hge)⟩)
      rw [left_cons (hlimit''.trans hlimit') (by rw [hcount'', hcount']) hlt, hpop]
      refine ⟨it'', rest, rfl, h'', rfl, hselector''.trans hselector', ?_⟩
      rintro _ ⟨⟩
      exact hcursor

/-- A number of calls give the entries that are left, and then nothing. -/
lemma Position.nexts (h : Position base64 store raw rest it) (n : ℕ) :
    ∃ it', it.nexts base64 store n = .ok ((List.range n).map ((left it rest)[·]?), it') ∧
      it'.selector = it.selector ∧
      ∀ e ∈ (left it rest)[n - 1]?, 0 < n → it'.cursorGen = .atKey e.key := by
  induction n generalizing rest it with
  | zero => exact ⟨it, rfl, rfl, fun _ _ hpos => absurd hpos (Nat.lt_irrefl 0)⟩
  | succ n ih =>
    obtain ⟨it₁, rest₁, hnext, h₁, hleft, hselector₁, hcursor₁⟩ := h.next
    obtain ⟨it₂, hnexts, hselector₂, hcursor₂⟩ := ih h₁
    refine ⟨it₂, ?_, hselector₂.trans hselector₁, fun e he _ => ?_⟩
    · simp [KvListIterator.nexts, hnext, hnexts, hleft, range_succ_eq_map,
        head?_eq_getElem?, bind, Except.bind, pure, Except.pure]
    · cases n with
      | zero =>
        obtain rfl : it₁ = it₂ := congrArg Prod.snd (Except.ok.inj hnexts)
        rw [← head?_eq_getElem?] at he
        exact hcursor₁ e he
      | succ n =>
        refine hcursor₂ e ?_ (Nat.succ_pos n)
        rwa [hleft, getElem?_tail]

/-! ### New iterators -/

lemma checkSelector_eq_ok {sel sel' : KvListSelector Part} (h : checkSelector sel = .ok sel') :
    sel' = sel ∧ (sel.pre = none → sel.stop ≠ none) := by
  revert h
  fun_cases checkSelector sel with
  | case1 => simp
  | case2 p hpre _ =>
    rintro ⟨⟩
    simp [hpre]
  | case3 start stop hstop _ _ =>
    rintro ⟨⟩
    simp [hstop]
  | case4 => simp

variable {options : ListOptions}

lemma list_eq_ok (h : list sel options = .ok it) :
    it.selector = sel ∧ it.entries = none ∧ it.cursorGen = startCursor options.cursor ∧
      it.done = false ∧ it.lastBatch = false ∧ it.limit = options.limit ∧ it.count = 0 ∧
      it.reverse = options.reverse ∧ 0 < it.batchSize ∧ (sel.pre = none → sel.stop ≠ none) := by
  unfold list at h
  dsimp only at h
  split_ifs at h with hlimit hpos hcap
  all_goals
    obtain ⟨sel', hcheck, heq⟩ := bind_eq_ok.mp h
    obtain ⟨rfl, hstop⟩ := checkSelector_eq_ok hcheck
    cases heq
  · exact ⟨rfl, rfl, rfl, rfl, rfl, rfl, rfl, rfl, Nat.succ_pos 499, hstop⟩
  · exact ⟨rfl, rfl, rfl, rfl, rfl, rfl, rfl, rfl, Nat.pos_iff_ne_zero.mpr hpos, hstop⟩

lemma left_of_count_eq_zero (h : it.count = 0) : left it rest = firstOf it.limit rest := by
  rw [left, h]
  rfl

/-- A new iterator stands before what its cursor reads. -/
lemma Position.of_list (hlist : list sel options = .ok it)
    (hraw : fromTuple codec sel.pre sel.start sel.stop = .ok raw) (hreadable : Readable raw)
    (hbatch : it.batchSize ≤ maxReadEntries)
    (hsuffix : rest <:+ entriesIn store raw options.reverse)
    (hresumes : Resumes base64 store sel options.reverse (startCursor options.cursor) rest) :
    Position base64 store raw rest it := by
  obtain ⟨hsel, hentries, hcursor, hdone, hlast, -, -, hreverse, hpos, -⟩ := list_eq_ok hlist
  refine ⟨?_, hreadable, hpos, hbatch, ?_, ⟨rest, ?_, ?_⟩, fun _ => ?_, fun h => ?_⟩
  · rwa [hsel]
  · rwa [hreverse]
  · simp [hentries]
  · simp [hlast]
  · rwa [hsel, hreverse, hcursor]
  · rw [hdone] at h
    cases h

lemma resumes_unset
    (hraw : fromTuple codec sel.pre sel.start sel.stop = .ok raw) (hreadable : Readable raw) :
    Resumes base64 store sel reverse .unset (entriesIn store raw reverse) := by
  intro batchSize hpos hmax
  exact ⟨none, rfl, pullBatch_eq hraw hpos hmax rfl hreadable.1 hreadable.2⟩

end KvListIterator

/-! ### What is listed -/

/-- An entry is selected: strictly below the prefix, from the start on, before the end. -/
def KvListSelector.Contains (sel : KvListSelector Part) (e : Entry codec Value) : Prop :=
  (∀ p ∈ sel.pre, p <+: e.key ∧ p ≠ e.key) ∧
    (∀ s ∈ sel.start, ∀ b, codec.encodeKey s = .ok b → b ≤ e.bytes) ∧
    ∀ s ∈ sel.stop, ∀ b, codec.encodeKey s = .ok b → e.bytes < b

open Classical in
/-- The selected entries, in a direction. -/
noncomputable def Store.selected (store : Store codec Value) (sel : KvListSelector Part)
    (reverse : Bool) : List (Entry codec Value) :=
  inDirection reverse (store.entries.filter fun e => decide (sel.Contains e))

/-- The keys strictly below a prefix are those between the bounds for it. -/
lemma strictly_below_iff {p : List Part} {pre : Bytes} (hp : codec.encodeKey p = .ok pre)
    (e : Entry codec Value) :
    (p <+: e.key ∧ p ≠ e.key) ↔ pre ++ [0] ≤ e.bytes ∧ e.bytes < pre ++ [0xff] := by
  have hkey := e.encode_eq
  constructor
  · rintro ⟨⟨rs, hrs⟩, hne⟩
    rw [← hrs] at hkey
    obtain ⟨a, x, ha, hx, hbytes⟩ := encodeKey_append_eq_ok.mp hkey
    obtain rfl : pre = a := Except.ok.inj (hp.symm.trans ha)
    obtain ⟨hlt, hle⟩ := encodeKey_between hx
    rw [hbytes, append_le_append_left_iff, append_lt_append_left_iff]
    refine ⟨hle fun hnil => hne ?_, hlt⟩
    rw [← hrs, hnil, append_nil]
  · rintro ⟨hstart, hstop⟩
    obtain ⟨x, hx⟩ := prefix_of_between (prefix_append pre [0]) (prefix_append pre [0xff])
      hstart (List.le_of_lt hstop)
    rw [← hx] at hkey
    obtain ⟨rs, hrs, -⟩ := exists_of_encodeKey_append hp hkey
    refine ⟨⟨rs, hrs.symm⟩, fun heq => ?_⟩
    have hsame : pre = e.bytes := by
      rw [heq, e.encode_eq] at hp
      exact (Except.ok.inj hp).symm
    rw [append_bot_le_iff RawSelector.zero_le, hsame] at hstart
    exact List.lt_irrefl _ hstart

section

variable (hraw : fromTuple codec sel.pre sel.start sel.stop = .ok raw)
  (hstop : sel.pre = none → sel.stop ≠ none)

include hraw hstop

/-- The range of an accepted selector holds the entries that are selected. -/
lemma contains_iff (e : Entry codec Value) :
    sel.Contains e ↔ raw.rangeStartKey ≤ e.bytes ∧ e.bytes < raw.rangeEndKey := by
  have hvalid := valid_of_fromTuple hraw
  obtain ⟨p, hp, hrest⟩ := bind_eq_ok.mp hraw
  obtain ⟨s, hs, hrest⟩ := bind_eq_ok.mp hrest
  obtain ⟨t, ht, hselector⟩ := bind_eq_ok.mp hrest
  revert hselector
  fun_cases ofEncoded p s t with
  | case1 pre =>
    rintro ⟨⟩
    obtain ⟨k, hk, hpre⟩ := encodeOption_eq_some hp
    rw [KvListSelector.Contains, hk, encodeOption_eq_none hs, encodeOption_eq_none ht]
    simpa [rangeStartKey, rangeEndKey] using strictly_below_iff hpre e
  | case2 => simp
  | case3 pre start hcheck =>
    rintro ⟨⟩
    obtain ⟨k, hk, hpre⟩ := encodeOption_eq_some hp
    obtain ⟨l, hl, hstart⟩ := encodeOption_eq_some hs
    have hbelow : pre ++ [0] ≤ start :=
      (append_bot_le_iff RawSelector.zero_le).mpr (hvalid.2.1 start rfl).2
    rw [KvListSelector.Contains, hk, hl, encodeOption_eq_none ht]
    simp only [Option.mem_some_iff, forall_eq', hstart, Except.ok.injEq, strictly_below_iff hpre]
    simp only [Option.mem_def, reduceCtorEq, IsEmpty.forall_iff, implies_true, and_true]
    exact ⟨fun h => ⟨h.2, h.1.2⟩, fun h => ⟨⟨List.le_trans hbelow h.1, h.2⟩, h.1⟩⟩
  | case4 => simp
  | case5 pre stop hcheck =>
    rintro ⟨⟩
    obtain ⟨k, hk, hpre⟩ := encodeOption_eq_some hp
    obtain ⟨l, hl, hend⟩ := encodeOption_eq_some ht
    have hbelow : stop < pre ++ [0xff] := by
      obtain ⟨x, rfl⟩ := (hvalid.2.2 stop rfl).1
      obtain ⟨rs, -, hrs⟩ := exists_of_encodeKey_append hpre hend
      exact append_lt_append_left_iff.mpr (encodeKey_between hrs).1
    rw [KvListSelector.Contains, hk, hl, encodeOption_eq_none hs]
    simp only [Option.mem_some_iff, forall_eq', hend, Except.ok.injEq, strictly_below_iff hpre]
    simp only [Option.mem_def, reduceCtorEq, IsEmpty.forall_iff, implies_true, true_and]
    exact ⟨fun h => ⟨h.1.1, h.2⟩, fun h => ⟨⟨h.1, List.lt_trans h.2 hbelow⟩, h.2⟩⟩
  | case6 => simp
  | case7 start stop hle =>
    rintro ⟨⟩
    obtain ⟨k, hk, hstart⟩ := encodeOption_eq_some hs
    obtain ⟨l, hl, hend⟩ := encodeOption_eq_some ht
    rw [KvListSelector.Contains, hk, hl, encodeOption_eq_none hp]
    simp [hstart, hend, rangeStartKey, rangeEndKey]
  | case8 start =>
    exact absurd (encodeOption_eq_none ht) (hstop (encodeOption_eq_none hp))
  | case9 => simp

lemma selected_eq (store : Store codec Value) (reverse : Bool) :
    store.selected sel reverse = entriesIn store raw reverse := by
  unfold Store.selected entriesIn
  congr 1
  refine filter_congr fun e _ => ?_
  rw [Bool.eq_iff_iff]
  simpa using contains_iff hraw hstop e

end

/-- The calls give the first selected entries in order, and then nothing for ever, whatever the size
of the batches is, if the reads are not too large. -/
theorem list_nexts (base64 : Base64) (store : Store codec Value) {sel : KvListSelector Part}
    {options : ListOptions} {it : KvListIterator codec Value} (hlist : list sel options = .ok it)
    (hcursor : options.cursor = none) {raw : RawSelector}
    (hraw : fromTuple codec sel.pre sel.start sel.stop = .ok raw) (hreadable : Readable raw)
    (hbatch : it.batchSize ≤ maxReadEntries) (n : ℕ) :
    ∃ it', it.nexts base64 store n = .ok ((List.range n).map
      ((KvListIterator.firstOf options.limit (store.selected sel options.reverse))[·]?), it') := by
  obtain ⟨-, -, -, -, -, hlimit, hcount, -, -, hstop⟩ := KvListIterator.list_eq_ok hlist
  have hposition :
      KvListIterator.Position base64 store raw (entriesIn store raw options.reverse) it := by
    refine .of_list hlist hraw hreadable hbatch suffix_rfl ?_
    rw [hcursor]
    exact KvListIterator.resumes_unset hraw hreadable
  obtain ⟨it', hnexts, -⟩ := hposition.nexts n
  rw [KvListIterator.left_of_count_eq_zero hcount, hlimit, ← selected_eq hraw hstop] at hnexts
  exact ⟨it', hnexts⟩

lemma sample_decode_encode (b : Bytes) :
    some ((String.ofList (b.map fun x => Char.ofNat x.toNat)).toList.map fun c =>
      UInt8.ofNat c.toNat) = some b := by
  have hchar (x : UInt8) : UInt8.ofNat (Char.ofNat x.toNat).toNat = x := by
    have hx := x.toNat_lt
    rw [char_toNat_of_lt (by omega), UInt8.ofNat_toNat]
  rw [String.toList_ofList, map_map]
  conv_rhs => rw [← map_id b]
  exact congrArg some (map_congr_left fun x _ => hchar x)

def sampleBase64 : Base64 where
  encode b := String.ofList (b.map fun x => Char.ofNat x.toNat)
  decode s := some (s.toList.map fun c => UInt8.ofNat c.toNat)
  decode_encode := sample_decode_encode
  encode_eq_empty := by simp

def sampleEntries : List (Entry sampleCodec Unit) :=
  [⟨[97], (), [1, 97], rfl, Nat.le_of_ble_eq_true rfl⟩,
    ⟨[97, 1], (), [1, 97, 1, 1], rfl, Nat.le_of_ble_eq_true rfl⟩]

def sampleStore : Store sampleCodec Unit := ⟨sampleEntries, by decide⟩

def sampleSelector : KvListSelector UInt8 := ⟨none, some [97], some [97, 5]⟩

lemma sample_raw : fromTuple sampleCodec sampleSelector.pre sampleSelector.start
    sampleSelector.stop = .ok (range [1, 97] [1, 97, 1, 5]) := rfl

theorem list_nexts_sample : ∃ it it' : KvListIterator sampleCodec Unit,
      list sampleSelector { batchSize := some 1, reverse := true } = .ok it ∧
      it.nexts sampleBase64 sampleStore 3 = .ok ((List.range 3).map
        ((sampleStore.selected sampleSelector true)[·]?), it') := by
  obtain ⟨it, hlist, hbatch⟩ : ∃ it : KvListIterator sampleCodec Unit,
      list sampleSelector { batchSize := some 1, reverse := true } = .ok it ∧
        it.batchSize ≤ maxReadEntries := ⟨_, rfl, by decide⟩
  obtain ⟨it', h⟩ := list_nexts sampleBase64 sampleStore hlist rfl sample_raw
    ⟨by decide, by decide⟩ hbatch 3
  exact ⟨it, it', hlist, h⟩

/-- A batch of more than a thousand entries is not read. -/
theorem list_nexts_tooMany : ∃ it : KvListIterator sampleCodec Unit,
      list sampleSelector { batchSize := some 1001 } = .ok it ∧
      it.next sampleBase64 sampleStore = .error (typeError "too many entries (max 1000)") :=
  ⟨_, rfl, rfl⟩

end Deno.Kv
