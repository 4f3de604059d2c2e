import Deno.Core.Bytes
import Deno.Core.SkipSearch
import Mathlib.Data.List.Range
import Mathlib.Data.Prod.Lex
import Mathlib.Data.Nat.Find

/-!
# Searching in buffers

`indexOf` and `lastIndexOf` of buffers are loops over the bytes. The search from the front compares
at every position. The search from the back goes over the bytes from the last one on, and starts
over two bytes behind the start of an attempt that failed.
-/

namespace Deno.Node

open Core List

/-! ### From the front -/

/-- How many bytes there are of the rest of the needle. -/
def matchRest (source : Bytes) : Bytes → ℕ → ℕ
  | [], _ => 0
  | b :: rest, j => if source[j]? = some b then matchRest source rest (j + 1) + 1 else 0

def matchesAt (source needle : Bytes) (pin : ℕ) : Bool :=
  source[pin]? = needle.head? && 1 + matchRest source needle.tail (pin + 1) = needle.length

def indexOfNeedle (source needle : Bytes) (start : ℤ) : ℤ :=
  if source.length ≤ start then -1
  else
    let start := (if start < 0 then max 0 (source.length + start) else start).toNat
    match (List.range' start (source.length - start)).find? (matchesAt source needle) with
    | some pin => pin
    | none => -1

/-! ### From the back -/

def sliceTo (buffer : Bytes) (stop : ℤ) : Bytes :=
  buffer.take (if stop < 0 then buffer.length + stop else stop).toNat

/-- The variables of the loop. A match in progress has started before the byte that is looked at. -/
structure LastSearch where
  x : ℕ
  lastMatchIndex : Option ℕ
  matched : ℕ
  le_x : ∀ last, lastMatchIndex = some last → last ≤ x

namespace LastSearch

lemma getD_le (s : LastSearch) : s.lastMatchIndex.getD s.x ≤ s.x := by
  cases h : s.lastMatchIndex with
  | none => exact le_rfl
  | some last => exact s.le_x last h

lemma le_of_match (s : LastSearch) :
    ∀ last, some (s.lastMatchIndex.getD s.x) = some last → last ≤ s.x + 1 := by
  rintro _ ⟨⟩
  exact s.getD_le.trans (Nat.le_succ _)

/-- The search starts at a byte. -/
def startAt (x : ℕ) : LastSearch := ⟨x, none, 0, by simp⟩

@[simp] lemma startAt_x (x : ℕ) : (startAt x).x = x := rfl

@[simp] lemma startAt_matched (x : ℕ) : (startAt x).matched = 0 := rfl

def extend (s : LastSearch) : LastSearch :=
  ⟨s.x + 1, some (s.lastMatchIndex.getD s.x), s.matched + 1, s.le_of_match⟩

@[simp] lemma extend_x (s : LastSearch) : s.extend.x = s.x + 1 := rfl

@[simp] lemma extend_lastMatchIndex (s : LastSearch) :
    s.extend.lastMatchIndex = some (s.lastMatchIndex.getD s.x) := rfl

@[simp] lemma extend_matched (s : LastSearch) : s.extend.matched = s.matched + 1 := rfl

/-- A byte does not match. Behind a match that was in progress, the loop adds one more. -/
def restart (s : LastSearch) : LastSearch :=
  startAt ((s.lastMatchIndex.elim s.x fun last => last + 1) + 1)

lemma restart_startAt (x : ℕ) : (startAt x).restart = startAt (x + 1) := rfl

/-- What is left of the search: from the start of the match in progress, and from the byte. -/
def left (length : ℕ) (s : LastSearch) : ℕ ×ₗ ℕ :=
  toLex (length + 2 - s.lastMatchIndex.getD s.x, length - s.x)

lemma left_extend {length : ℕ} (s : LastSearch) (h : s.x < length) :
    left length s.extend < left length s := by
  refine Prod.Lex.toLex_lt_toLex.mpr (.inr ⟨rfl, ?_⟩)
  simp only [extend]
  omega

lemma left_restart {length : ℕ} (s : LastSearch) (h : s.x < length) :
    left length s.restart < left length s := by
  refine Prod.Lex.toLex_lt_toLex.mpr (.inl ?_)
  have hle := s.getD_le
  cases hlast : s.lastMatchIndex with
  | none =>
    simp only [restart, startAt, hlast, Option.elim_none, Option.getD_none]
    omega
  | some last =>
    rw [hlast, Option.getD_some] at hle
    simp only [restart, startAt, hlast, Option.elim_some, Option.getD_none, Option.getD_some]
    omega

def run (searchableBuffer buffer : Bytes) (s : LastSearch) : Option ℕ :=
  if s.x < searchableBuffer.length then
    if searchableBuffer[searchableBuffer.length - 1 - s.x]? =
        buffer[buffer.length - 1 - s.matched]? then
      if s.matched + 1 = buffer.length then some s.x else run searchableBuffer buffer s.extend
    else run searchableBuffer buffer s.restart
  else none
termination_by left searchableBuffer.length s
decreasing_by
  · exact s.left_extend ‹_›
  · exact s.left_restart ‹_›

end LastSearch

variable (targetBuffer buffer : Bytes)

def findLastIndex (offset : ℤ) : ℤ :=
  let offset := if targetBuffer.length < offset then (targetBuffer.length : ℤ) else offset
  let searchableBuffer := sliceTo targetBuffer (offset + buffer.length)
  match LastSearch.run searchableBuffer buffer (.startAt 0) with
  | none => -1
  | some index => searchableBuffer.length - 1 - index

/-- The encoding is not taken into account. -/
def indexOfBuffer (byteOffset : ℤ) (forwardDirection : Bool) : ℤ :=
  if !forwardDirection then
    let byteOffset := if byteOffset < 0 then targetBuffer.length + byteOffset else byteOffset
    if buffer.length = 0 then min byteOffset targetBuffer.length
    else findLastIndex targetBuffer buffer byteOffset
  else if buffer.length = 0 then min byteOffset targetBuffer.length
  else indexOfNeedle targetBuffer buffer byteOffset

/-! ### Occurrences -/

section

variable (source needle : Bytes)

def Occurs (i : ℕ) : Prop := needle <+: source.drop i

/-- The smallest position from `s` on at which the needle occurs, or `-1`. -/
def IsFirst (s r : ℤ) : Prop :=
  (∃ i : ℕ, r = i ∧ s ≤ i ∧ Occurs source needle i ∧
      ∀ j : ℕ, s ≤ j → Occurs source needle j → i ≤ j) ∨
    (r = -1 ∧ ∀ j : ℕ, s ≤ j → ¬ Occurs source needle j)

/-- The largest position up to `s` at which the needle occurs, or `-1`. -/
def IsLast (s r : ℤ) : Prop :=
  (∃ i : ℕ, r = i ∧ i ≤ s ∧ Occurs source needle i ∧
      ∀ j : ℕ, j ≤ s → Occurs source needle j → j ≤ i) ∨
    (r = -1 ∧ ∀ j : ℕ, j ≤ s → ¬ Occurs source needle j)

end

variable {source needle : Bytes} {i : ℕ}

lemma Occurs.add_le (h : Occurs source needle i) (hneedle : needle ≠ []) :
    0 < needle.length ∧ i + needle.length ≤ source.length := by
  have hle := h.length_le
  have hpos := List.length_pos_iff.mpr hneedle
  rw [length_drop] at hle
  omega

lemma matchRest_eq_length_iff {rest : Bytes} {j : ℕ} :
    matchRest source rest j = rest.length ↔ rest <+: source.drop j := by
  induction rest generalizing j with
  | nil => simp [matchRest]
  | cons b rest ih =>
    rw [matchRest]
    split_ifs with hb
    · have hdrop : source.drop j = b :: source.drop (j + 1) := by
        obtain ⟨hlt, hget⟩ := List.getElem?_eq_some_iff.mp hb
        rw [drop_eq_getElem_cons hlt, hget]
      rw [length_cons, Nat.add_right_cancel_iff, ih, hdrop]
      simp
    · refine ⟨fun h => by simp at h, fun h => absurd ?_ hb⟩
      obtain ⟨after, hafter⟩ := h
      have hget := congrArg (·[0]?) hafter
      simpa using hget.symm

lemma matchesAt_iff (hneedle : needle ≠ []) :
    matchesAt source needle i = true ↔ Occurs source needle i := by
  obtain ⟨b, rest, rfl⟩ := exists_cons_of_ne_nil hneedle
  rw [Occurs, ← matchRest_eq_length_iff, matchRest, matchesAt, Bool.and_eq_true,
    decide_eq_true_iff, decide_eq_true_iff]
  split_ifs with hb
  · simp [hb, Nat.add_comm]
  · simp [hb]

/-- The search from the front looks at every position. -/
lemma isFirst_indexOfNeedle (hneedle : needle ≠ []) (start : ℤ) :
    IsFirst source needle (if start < 0 then max 0 (source.length + start) else start)
      (indexOfNeedle source needle start) := by
  unfold indexOfNeedle
  by_cases hend : source.length ≤ start
  · rw [if_pos hend]
    refine .inr ⟨rfl, fun j hj hoccurs => ?_⟩
    have hle := hoccurs.add_le hneedle
    omega
  · rw [if_neg hend]
    dsimp only
    generalize hs : (if start < 0 then max 0 (source.length + start) else start) = s
    split
    · next pin hfind =>
      obtain ⟨hpin, hmem, hfirst⟩ := List.find?_range'_eq_some.mp hfind
      rw [mem_range'_1] at hmem
      refine .inl ⟨pin, rfl, by omega, (matchesAt_iff hneedle).mp hpin, fun j hj hoccurs => ?_⟩
      by_contra hlt
      have hnot := hfirst j (by omega) (by omega)
      rw [(matchesAt_iff hneedle).mpr hoccurs] at hnot
      cases hnot
    · next hfind =>
      refine .inr ⟨rfl, fun j hj hoccurs => ?_⟩
      have hle := hoccurs.add_le hneedle
      have hnot := List.find?_range'_eq_none.mp hfind j (by omega) (by omega)
      rw [(matchesAt_iff hneedle).mpr hoccurs] at hnot
      cases hnot

/-! ### The search from the back -/

variable {y : ℕ}

namespace LastSearch

variable {searchable : Bytes}

variable {pattern text : Bytes}

lemma prefix_drop_iff :
    pattern <+: text.drop y ↔ ∀ m < pattern.length, text[y + m]? = pattern[m]? := by
  rw [prefix_iff_getElem?]
  simp only [getElem?_drop]
  refine forall₂_congr fun m hm => ?_
  rw [getElem?_eq_getElem hm]

lemma not_prefix_of_short (h : searchable.length < y + needle.length)
    (hneedle : needle ≠ []) : ¬ needle.reverse <+: searchable.reverse.drop y := by
  intro hfront
  have hle := hfront.length_le
  have hpos := List.length_pos_iff.mpr hneedle
  simp only [length_reverse, length_drop] at hle
  omega

lemma run_of_le {s : LastSearch} (h : searchable.length ≤ s.x) :
    run searchable needle s = none := by
  rw [run, if_neg (not_lt.mpr h)]

lemma run_of_lt {s : LastSearch} (hx : s.x < searchable.length) (hm : s.matched < needle.length) :
    run searchable needle s =
      if searchable.reverse[s.x]? = needle.reverse[s.matched]? then
        if s.matched + 1 = needle.length then some s.x else run searchable needle s.extend
      else run searchable needle s.restart := by
  rw [run, if_pos hx, ← getElem?_reverse hx, ← getElem?_reverse hm]

/-- A match in progress ends with the needle, or the search starts over two bytes behind its
start. -/
lemma run_of_matched (hneedle : needle ≠ []) {y m : ℕ} (s : LastSearch) (hx : s.x = y + m)
    (hlast : s.lastMatchIndex = some y) (hm : s.matched = m) (hlt : m < needle.length)
    (hmatched : ∀ l < m, searchable.reverse[y + l]? = needle.reverse[l]?)
    (hshort : searchable.length < y + needle.length →
      run searchable needle (startAt (y + 2)) = none) :
    run searchable needle s =
      if needle.reverse <+: searchable.reverse.drop y then some (y + needle.length - 1)
      else run searchable needle (startAt (y + 2)) := by
  by_cases hlen : s.x < searchable.length
  · have hrestart : s.restart = startAt (y + 2) := by
      rw [restart, hlast]
      rfl
    rw [run_of_lt hlen (by omega), hx, hm, hrestart]
    by_cases heq : searchable.reverse[y + m]? = needle.reverse[m]?
    · have hmatched' : ∀ l < m + 1, searchable.reverse[y + l]? = needle.reverse[l]? := by
        intro l hl
        obtain hl | rfl : l < m ∨ l = m := by omega
        · exact hmatched l hl
        · exact heq
      split_ifs with hfull hfront hfront
      · congr 1
        omega
      · refine absurd (prefix_drop_iff.mpr fun l hl => ?_) hfront
        exact hmatched' l (by rwa [hfull, ← length_reverse])
      all_goals
        rw [run_of_matched hneedle s.extend (by rw [extend_x, hx]; rfl) (by simp [hlast])
          (by rw [extend_matched, hm]) (by omega) hmatched' hshort]
        simp [hfront]
    · have hnot : ¬ needle.reverse <+: searchable.reverse.drop y := fun hfront =>
        heq (prefix_drop_iff.mp hfront m (by rwa [length_reverse]))
      rw [if_neg heq, if_neg hnot]
  · rw [run_of_le (not_lt.mp hlen), if_neg (not_prefix_of_short (by omega) hneedle),
      hshort (by omega)]
termination_by needle.length - m

lemma skipSearch_of_short (hpattern : pattern ≠ [])
    (h : text.length < pattern.length) : skipSearch pattern text = none := by
  obtain ⟨a, rest, rfl⟩ := exists_cons_of_ne_nil hpattern
  refine Option.eq_none_iff_forall_not_mem.mpr fun k hk => ?_
  obtain ⟨⟨hfront, -⟩, -⟩ := (skipSearch_eq_some_iff rfl).mp hk
  have hle := hfront.length_le
  rw [length_drop] at hle
  omega

/-- The loop is a search for the reversed needle with a skip. -/
lemma run_startAt (hneedle : needle ≠ []) (y : ℕ) : run searchable needle (startAt y) =
      (skipSearch needle.reverse (searchable.reverse.drop y)).map
        fun k => y + k + needle.length - 1 := by
  have hpos := List.length_pos_iff.mpr hneedle
  by_cases hlt : y < searchable.length
  · obtain ⟨b, hget⟩ : ∃ b, searchable.reverse[y]? = some b :=
      ⟨_, getElem?_eq_getElem (by simpa using hlt)⟩
    have hcons : searchable.reverse.drop y = b :: searchable.reverse.drop (y + 1) := by
      obtain ⟨hlt, hget⟩ := List.getElem?_eq_some_iff.mp hget
      rw [drop_eq_getElem_cons hlt, hget]
    have hnext := run_startAt hneedle (y + 1)
    have hskip := run_startAt hneedle (y + 2)
    rw [run_of_lt hlt hpos, hcons, skipSearch, ← hcons]
    simp only [startAt_x, startAt_matched, hget, ← head?_eq_getElem?, drop_drop,
      isPrefixOf_iff_prefix, Nat.zero_add, eq_comm (b := needle.reverse.head?)]
    have hzero : searchable.reverse[y + 0]? = needle.reverse[0]? ↔
        needle.reverse.head? = some b := by
      rw [Nat.add_zero, hget, head?_eq_getElem?, eq_comm]
    by_cases hhead : needle.reverse.head? = some b
    · have hshort (h : searchable.length < y + needle.length) :
          run searchable needle (startAt (y + 2)) = none := by
        rw [hskip, skipSearch_of_short (by simpa using hneedle)]
        · rfl
        · simp only [length_drop, length_reverse]
          omega
      have hmatched : ∀ l < 1, searchable.reverse[y + l]? = needle.reverse[l]? := by
        intro l hl
        obtain rfl : l = 0 := by omega
        exact hzero.mpr hhead
      rw [if_pos hhead]
      by_cases hone : 1 = needle.length
      · have hfront : needle.reverse <+: searchable.reverse.drop y :=
          prefix_drop_iff.mpr fun l hl => hmatched l (by rwa [hone, ← length_reverse])
        rw [if_pos hfront, ← hone]
        rfl
      · rw [run_of_matched hneedle (startAt y).extend rfl rfl rfl (by omega) hmatched
          hshort, startAt_x, hskip]
        split_ifs
        · simp
        · rw [Option.map_map]
          congr 1
          funext k
          simp only [Function.comp_apply]
          omega
    · have hnot : ¬ needle.reverse <+: searchable.reverse.drop y := by
        intro hfront
        exact hhead (hzero.mp (prefix_drop_iff.mp hfront 0 (by rwa [length_reverse])))
      rw [if_neg hhead, if_neg hnot, if_neg hhead, restart_startAt, hnext, Option.map_map]
      congr 1
      funext k
      simp only [Function.comp_apply]
      omega
  · rw [run_of_le (not_lt.mp hlt), skipSearch_of_short (by simpa using hneedle)]
    · rfl
    · simp only [length_drop, length_reverse]
      omega
termination_by searchable.length - y

end LastSearch

/-! ### What the search from the back finds -/

/-- The bytes behind an occurrence that are the last one of the needle. -/
def runAfter (source needle : Bytes) (i : ℕ) : ℕ :=
  ((source.drop (i + needle.length)).takeWhile fun b => needle.getLast? = some b).length

/-- The search from the back passes over an occurrence with an odd number of them. -/
def Found (source needle : Bytes) (i : ℕ) : Prop :=
  Occurs source needle i ∧ Even (runAfter source needle i)

lemma visible_reverse_iff {b : UInt8} (hb : needle.getLast? = some b)
    (hy : y + needle.length ≤ source.length) : Visible needle.reverse source.reverse b y ↔
      Found source needle (source.length - needle.length - y) := by
  generalize hi : source.length - needle.length - y = i
  have hoccurs : needle.reverse <+: source.reverse.drop y ↔ Occurs source needle i := by
    rw [drop_reverse, reverse_prefix, Occurs, suffix_iff_eq_drop,
      prefix_iff_eq_take, length_take, drop_take]
    have hmin : min (source.length - y) source.length - needle.length = i := by omega
    have hlen : source.length - y - i = needle.length := by omega
    rw [hmin, hlen]
  have hrun : runLength b (source.reverse.take y) = runAfter source needle i := by
    have hdrop : source.length - y = i + needle.length := by omega
    rw [runLength, runAfter, take_reverse, hdrop]
    simp [hb, eq_comm]
  rw [Visible, Found, hoccurs, hrun]

/-- The loop finds the last occurrence that is not passed over. -/
lemma run_eq_some_iff (hneedle : needle ≠ []) {index : ℕ} :
    LastSearch.run source needle (.startAt 0) = some index ↔
      ∃ i, i + index + 1 = source.length ∧ Found source needle i ∧
        ∀ j, Found source needle j → j ≤ i := by
  obtain ⟨b, hb⟩ : ∃ b, needle.getLast? = some b := ⟨_, getLast?_eq_some_getLast hneedle⟩
  have hhead : needle.reverse.head? = some b := by rw [head?_reverse, hb]
  have hpos := List.length_pos_iff.mpr hneedle
  rw [LastSearch.run_startAt hneedle, drop_zero, Option.map_eq_some_iff]
  simp only [skipSearch_eq_some_iff hhead]
  constructor
  · rintro ⟨k, ⟨hvisible, hfirst⟩, rfl⟩
    have hk : k + needle.length ≤ source.length := by
      have hle := hvisible.1.length_le
      simp only [length_reverse, length_drop] at hle
      omega
    refine ⟨_, ?_, (visible_reverse_iff hb hk).mp hvisible, ?_⟩
    · omega
    · intro j hj
      have hjle := (hj.1.add_le hneedle).2
      by_contra hlt
      refine hfirst (source.length - needle.length - j) (by omega) ?_
      rw [visible_reverse_iff hb (by omega)]
      convert hj using 1
      omega
  · rintro ⟨i, hi, hfound, hlast⟩
    have hile := (hfound.1.add_le hneedle).2
    refine ⟨source.length - needle.length - i, ⟨?_, ?_⟩, by omega⟩
    · rw [visible_reverse_iff hb (by omega)]
      convert hfound using 1
      omega
    · intro j hj hvisible
      rw [visible_reverse_iff hb (by omega)] at hvisible
      have hle := hlast _ hvisible
      omega

/-- The part of the buffer that the search from the back looks at. -/
def searched (source needle : Bytes) (offset : ℤ) : Bytes :=
  sliceTo source (min (source.length : ℤ) offset + needle.length)

/-- A position is the last one of its kind, or there is a last one behind it. -/
lemma exists_last {P : ℕ → Prop} {n : ℕ} (hle : ∀ j, P j → j ≤ n) (hi : P i) :
    ∃ i, P i ∧ ∀ j, P j → j ≤ i := by
  classical
  refine ⟨Nat.findGreatest P n, Nat.findGreatest_spec (hle i hi) hi, fun j hj => ?_⟩
  exact Nat.le_findGreatest (hle j hj) hj

lemma findLastIndex_spec (hneedle : needle ≠ []) (source : Bytes) (offset : ℤ) :
    (∃ i : ℕ, findLastIndex source needle offset = i ∧
        Found (searched source needle offset) needle i ∧
        ∀ j, Found (searched source needle offset) needle j → j ≤ i) ∨
      (findLastIndex source needle offset = -1 ∧
        ∀ j, ¬ Found (searched source needle offset) needle j) := by
  have hsearched : sliceTo source
      ((if source.length < offset then (source.length : ℤ) else offset) +
      needle.length) = searched source needle offset := by
    congr 2
    split_ifs <;> omega
  unfold findLastIndex
  dsimp only
  rw [hsearched]
  generalize searched source needle offset = searchable
  split
  · next hrun =>
    refine .inr ⟨rfl, fun j hj => ?_⟩
    have hle (j : ℕ) (hj : Found searchable needle j) : j ≤ searchable.length := by
      have := hj.1.add_le hneedle
      omega
    obtain ⟨i, hfound, hlast⟩ := exists_last hle hj
    have hadd := hfound.1.add_le hneedle
    have hsome : LastSearch.run searchable needle (.startAt 0) = some (searchable.length - 1 - i) :=
      (run_eq_some_iff hneedle).mpr ⟨i, by omega, hfound, hlast⟩
    rw [hrun] at hsome
    cases hsome
  · next index hrun =>
    obtain ⟨i, hi, hfound, hlast⟩ := (run_eq_some_iff hneedle).mp hrun
    exact .inl ⟨i, by omega, hfound, hlast⟩

lemma occurs_searched_iff (hneedle : needle ≠ []) {offset : ℤ} (hoffset : 0 ≤ offset) :
    Occurs (searched source needle offset) needle i ↔ Occurs source needle i ∧ i ≤ offset := by
  generalize hstop : (min (source.length : ℤ) offset + needle.length).toNat = stop
  have hsearched : searched source needle offset = source.take stop := by
    rw [searched, sliceTo, if_neg (by omega), hstop]
  constructor
  · intro h
    have hle := h.add_le hneedle
    rw [hsearched, length_take] at hle
    refine ⟨?_, by omega⟩
    rw [hsearched, Occurs, drop_take] at h
    exact h.trans (List.take_prefix _ _)
  · rintro ⟨h, hi⟩
    have hle := h.add_le hneedle
    rw [hsearched, Occurs, drop_take]
    exact List.prefix_take_iff.mpr ⟨h, by omega⟩

/-- The search from the back does not pass over the nearest occurrence; and where the offset is
before the buffer, there is nothing to find in the part that it looks at. -/
def LooksAtNearest (source needle : Bytes) (s : ℤ) : Prop :=
  (0 ≤ s → ∀ i : ℕ, i ≤ s → Occurs source needle i →
      (∀ j : ℕ, j ≤ s → Occurs source needle j → j ≤ i) →
      Even (runAfter (searched source needle s) needle i)) ∧
    (s < 0 → ∀ i, ¬ Found (searched source needle s) needle i)

section

variable {s : ℤ} (hneedle : needle ≠ [])

include hneedle

lemma isLast_findLastIndex_of_nonneg (hs : 0 ≤ s) :
    IsLast source needle s (findLastIndex source needle s) ↔ LooksAtNearest source needle s := by
  have hspec := findLastIndex_spec hneedle source s
  have hfound (i : ℕ) : Found (searched source needle s) needle i ↔
      (Occurs source needle i ∧ i ≤ s) ∧ Even (runAfter (searched source needle s) needle i) := by
    rw [Found, occurs_searched_iff hneedle hs]
  constructor
  · intro hlast
    refine ⟨fun _ i hi hoccurs hnearest => ?_, fun hneg => absurd hs (not_le.mpr hneg)⟩
    obtain ⟨k, hk, hks, hkoccurs, hklast⟩ | ⟨-, hnone⟩ := hlast
    · obtain rfl : i = k := le_antisymm (hklast i hi hoccurs) (hnearest k hks hkoccurs)
      obtain ⟨l, hl, hlfound, -⟩ | ⟨hl, -⟩ := hspec
      · obtain rfl : i = l := by exact_mod_cast hk.symm.trans hl
        exact hlfound.2
      · omega
    · exact absurd hoccurs (hnone i hi)
  · rintro ⟨hlooks, -⟩
    by_cases hany : ∃ i : ℕ, i ≤ s ∧ Occurs source needle i
    · obtain ⟨k, hk⟩ := hany
      obtain ⟨i, ⟨hi, hoccurs⟩, hlast⟩ := exists_last (P := fun i => i ≤ s ∧ Occurs source needle i)
        (n := s.toNat) (fun j hj => by omega) hk
      have hnearest (j : ℕ) (hj : j ≤ s) (hj' : Occurs source needle j) : j ≤ i := hlast j ⟨hj, hj'⟩
      have hifound := (hfound i).mpr ⟨⟨hoccurs, hi⟩, hlooks hs i hi hoccurs hnearest⟩
      obtain ⟨l, hl, hlfound, hllast⟩ | ⟨-, hnone⟩ := hspec
      · obtain ⟨⟨hloccurs, hls⟩, -⟩ := (hfound l).mp hlfound
        obtain rfl : i = l := le_antisymm (hllast i hifound) (hnearest l hls hloccurs)
        exact .inl ⟨i, hl, hi, hoccurs, hnearest⟩
      · exact absurd hifound (hnone i)
    · have hnone (j : ℕ) (hj : j ≤ s) : ¬ Occurs source needle j := fun hj' => hany ⟨j, hj, hj'⟩
      obtain ⟨l, -, hlfound, -⟩ | ⟨hl, -⟩ := hspec
      · obtain ⟨⟨hloccurs, hls⟩, -⟩ := (hfound l).mp hlfound
        exact absurd hloccurs (hnone l hls)
      · exact .inr ⟨hl, hnone⟩

/-- No position is before the buffer, but something may be found. -/
lemma isLast_findLastIndex_of_neg (hs : s < 0) :
    IsLast source needle s (findLastIndex source needle s) ↔ LooksAtNearest source needle s := by
  have hspec := findLastIndex_spec hneedle source s
  have hnone (j : ℕ) : ¬ j ≤ s := by omega
  constructor
  · intro hlast
    refine ⟨fun hpos => absurd hs (not_lt.mpr hpos), fun _ i hi => ?_⟩
    obtain ⟨k, -, hks, -⟩ | ⟨hk, -⟩ := hlast
    · exact hnone k hks
    · obtain ⟨l, hl, -⟩ | ⟨-, hno⟩ := hspec
      · omega
      · exact hno i hi
  · rintro ⟨-, hlooks⟩
    obtain ⟨l, -, hlfound, -⟩ | ⟨hl, -⟩ := hspec
    · exact absurd hlfound (hlooks hs l)
    · exact .inr ⟨hl, fun j hj => absurd hj (hnone j)⟩

end

/-- From the front the nearest occurrence is always found. From the back it is found exactly if the
search looks at it. -/
theorem indexOfBuffer_spec (source needle : Bytes) (hneedle : needle ≠ []) (offset : ℤ) :
    IsFirst source needle (if offset < 0 then max 0 (source.length + offset) else offset)
        (indexOfBuffer source needle offset true) ∧
      (IsLast source needle (if offset < 0 then source.length + offset else offset)
          (indexOfBuffer source needle offset false) ↔
        LooksAtNearest source needle (if offset < 0 then source.length + offset else offset)) := by
  constructor
  · have hforward :
        indexOfBuffer source needle offset true = indexOfNeedle source needle offset := by
      simp [indexOfBuffer, hneedle]
    rw [hforward]
    exact isFirst_indexOfNeedle hneedle offset
  · have hbackward : indexOfBuffer source needle offset false = findLastIndex source needle
        (if offset < 0 then source.length + offset else offset) := by
      simp [indexOfBuffer, hneedle]
    rw [hbackward]
    generalize (if offset < 0 then (source.length : ℤ) + offset else offset) = s
    by_cases hs : 0 ≤ s
    · exact isLast_findLastIndex_of_nonneg hneedle hs
    · exact isLast_findLastIndex_of_neg hneedle (not_le.mp hs)

lemma looksAtNearest_abab : LooksAtNearest [97, 97, 98, 97, 98] [97, 98] 4 := by
  refine ⟨fun _ i hi hoccurs hnearest => ?_, fun h => absurd h (by decide)⟩
  obtain rfl : i = 3 := by
    have hthree := hnearest 3 (by decide) ⟨[], rfl⟩
    obtain rfl | rfl : i = 3 ∨ i = 4 := by omega
    · rfl
    · exact absurd hoccurs.length_le (by decide)
  decide

theorem indexOfBuffer_spec_abab : IsFirst [97, 97, 98, 97, 98] [97, 98] 1
        (indexOfBuffer [97, 97, 98, 97, 98] [97, 98] (-4) true) ∧
      IsLast [97, 97, 98, 97, 98] [97, 98] 4
        (indexOfBuffer [97, 97, 98, 97, 98] [97, 98] (-1) false) :=
  ⟨(indexOfBuffer_spec [97, 97, 98, 97, 98] [97, 98] (by simp) (-4)).1,
    (indexOfBuffer_spec [97, 97, 98, 97, 98] [97, 98] (by simp) (-1)).2.mpr looksAtNearest_abab⟩

/-- `ab` is at the front of `abb` but is not found from the back; and it is found in `abcd` from an
offset that is before the buffer. -/
theorem indexOfBuffer_passes_over : (indexOfBuffer [97, 98, 98] [97, 98] 3 false = -1 ∧
        ¬ IsLast [97, 98, 98] [97, 98] 3 (-1)) ∧
      (indexOfBuffer [97, 98, 99, 100] [97, 98] (-7) false = 0 ∧
        ¬ IsLast [97, 98, 99, 100] [97, 98] (-3) 0) := by
  refine ⟨⟨?_, ?_⟩, ?_, ?_⟩
  · simp +decide [indexOfBuffer, findLastIndex, LastSearch.run, sliceTo, LastSearch.extend,
      LastSearch.restart, LastSearch.startAt]
  · rintro (⟨i, hi, -⟩ | ⟨-, hnone⟩)
    · omega
    · exact hnone 0 (by decide) (prefix_append [97, 98] [98])
  · simp +decide [indexOfBuffer, findLastIndex, LastSearch.run, sliceTo, LastSearch.extend,
      LastSearch.restart, LastSearch.startAt]
  · rintro (⟨i, -, hi, -⟩ | ⟨h, -⟩)
    · omega
    · omega

end Deno.Node
