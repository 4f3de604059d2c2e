import Deno.Coverage.EventLoop
import Deno.Coverage.Sweep

/-!
# The event loop sweeps

The queue of the event loop holds a forest for each parent. From one range to the next the loop
does with these forests what a step of `Sweep` does, so that in the end each parent has its entry
of every row, either as a tree of its own or wrapped.
-/

namespace Deno

open Core RangeTree List

variable {κ : Type}

/-! ### Queues and forests -/

/-- The events hold the trees of the forests, by the offsets at which they start. -/
structure Represents (events : List (StartEvent κ)) (forests : List (List (RangeTree κ))) :
    Prop where
  sorted : events.Pairwise fun a b => a.offset < b.offset
  nonempty : ∀ event ∈ events, event.trees ≠ []
  offset : ∀ event ∈ events, ∀ t ∈ event.trees, t.2.start = event.offset
  forest : ∀ i, forestOf i events = forests.getD i []

variable {i : ℕ}

lemma mem_of_mem_getD {α : Type} {ls : List (List α)} {a : α} (h : a ∈ ls.getD i []) :
    ls.getD i [] ∈ ls := by
  rw [getD_eq_getElem?_getD] at h ⊢
  cases hi : ls[i]? with
  | none =>
    rw [hi] at h
    cases h
  | some l =>
    exact mem_of_getElem? hi

lemma openRangeEnd_eq {event : StartEvent κ} {e : ℕ} (hoff : event.offset < e)
    (hle : ∀ t ∈ event.trees, t.2.stop ≤ e) (hex : ∃ t ∈ event.trees, t.2.stop = e) :
    openRangeEnd event = e := by
  have hfold : ∀ (ts : List (ℕ × RangeTree κ)) (a : ℕ), a ≤ e → (∀ t ∈ ts, t.2.stop ≤ e) →
      (a = e ∨ ∃ t ∈ ts, t.2.stop = e) →
      ts.foldl (fun stop t => if stop < t.2.stop then t.2.stop else stop) a = e := by
    intro ts
    induction ts with
    | nil => simp
    | cons t ts ih =>
      intro a ha hts h
      have ht := hts t mem_cons_self
      rw [foldl_cons]
      refine ih _ (by split_ifs <;> omega) (fun u hu => hts u (mem_cons_of_mem _ hu)) ?_
      rcases h with rfl | ⟨u, hu, rfl⟩
      · split_ifs <;> omega
      · rcases List.mem_cons.mp hu with rfl | hu
        · split_ifs <;> omega
        · exact Or.inr ⟨u, hu, rfl⟩
  exact hfold _ _ hoff hle (Or.inr hex)

variable {t : RangeTree κ}

namespace Represents

variable {events : List (StartEvent κ)} {forests : List (List (RangeTree κ))}
  (h : Represents events forests)

include h

lemma mem_forests {event : StartEvent κ} (hev : event ∈ events)
    {t : ℕ × RangeTree κ} (ht : t ∈ event.trees) : ∃ ts ∈ forests, t.2 ∈ ts := by
  have hmem : t.2 ∈ forests.getD t.1 [] := by
    rw [← h.forest]
    exact mem_forestOf.mpr ⟨event, hev, ht⟩
  exact ⟨_, mem_of_mem_getD hmem, hmem⟩

lemma mem_events {ts : List (RangeTree κ)} (hts : ts ∈ forests)
    (ht : t ∈ ts) : ∃ event ∈ events, ∃ i, (i, t) ∈ event.trees := by
  obtain ⟨i, hi, rfl⟩ := List.mem_iff_getElem.mp hts
  have hmem : t ∈ forestOf i events := by
    rw [h.forest, getD_eq_getElem?_getD, getElem?_eq_getElem hi]
    exact ht
  obtain ⟨event, hev, hti⟩ := mem_forestOf.mp hmem
  exact ⟨event, hev, i, hti⟩

lemma eq_nil (hempty : ∀ ts ∈ forests, ts = []) : events = [] := by
  cases events with
  | nil => rfl
  | cons event events =>
    obtain ⟨t, ht⟩ := exists_mem_of_ne_nil _ (h.nonempty event mem_cons_self)
    obtain ⟨ts, hts, hmem⟩ := h.mem_forests mem_cons_self ht
    rw [hempty ts hts] at hmem
    cases hmem

lemma opens {lo hi s e : ℕ} (hwf : ∀ ts ∈ forests, ForestWF lo hi ts) (hopen : Opens forests s e) :
    ∃ event rest, events = event :: rest ∧ event.offset = s ∧ openRangeEnd event = e := by
  obtain ⟨ts, hts, t, ht, hs, he⟩ := hopen.exists_tree
  obtain ⟨event', hev', i, hti⟩ := h.mem_events hts ht
  cases events with
  | nil => cases hev'
  | cons event rest =>
    have hoff' : event'.offset = s := (h.offset event' hev' _ hti).symm.trans hs
    -- no event comes before `s`, so the first one is the one of `t`
    have hfirst : event' = event := by
      rcases List.mem_cons.mp hev' with rfl | hmem
      · rfl
      · have hlt := (List.pairwise_cons.mp h.sorted).1 event' hmem
        obtain ⟨u, hu⟩ := exists_mem_of_ne_nil _ (h.nonempty event mem_cons_self)
        obtain ⟨us, hus, hmem'⟩ := h.mem_forests mem_cons_self hu
        have hle := hopen.start_le us hus _ hmem'
        rw [h.offset event mem_cons_self u hu] at hle
        omega
    subst hfirst
    refine ⟨event', rest, rfl, hoff', openRangeEnd_eq ?_ ?_ ⟨_, hti, he⟩⟩
    · rw [hoff']
      exact (hopen.bounds hwf).2.1
    · intro u hu
      obtain ⟨us, hus, hmem⟩ := h.mem_forests hev' hu
      exact hopen.stop_le us hus _ hmem ((h.offset event' hev' u hu).trans hoff')

end Represents

/-! ### Cutting the queue -/

/-- Trees that start in front of an offset: all leave something there. -/
lemma cut_of_lt {v : ℕ} {ts : List (RangeTree κ)} (h : ∀ t ∈ ts, t.start < v) :
    left v ts = ts.map (leftPart v) ∧
      right v ts = ts.filterMap fun t => if v < t.stop then some (split v t).2 else none := by
  induction ts with
  | nil => simp
  | cons t ts ih =>
    have ht := h t mem_cons_self
    obtain ⟨hl, hr⟩ := ih fun u hu => h u (mem_cons_of_mem _ hu)
    rw [left_cons, right_cons, hl, hr, map_cons, leftPart]
    by_cases hstop : t.stop ≤ v
    · simp [hstop, hstop.not_gt]
    · simp [hstop, ht.not_ge, not_le.mp hstop]

lemma treesOf_filterMap_rightPart (i v : ℕ) (ts : List (ℕ × RangeTree κ)) :
    treesOf i (ts.filterMap (rightPart v)) =
      (treesOf i ts).filterMap fun t => if v < t.stop then some (split v t).2 else none := by
  simp only [treesOf, filterMap_map, filterMap_filter, filter_filterMap, map_filterMap]
  refine filterMap_congr fun t _ => ?_
  by_cases hv : v < t.2.stop <;> by_cases hi : t.1 = i <;> simp [rightPart, hv, hi]

/-- What the events leave behind the end of a range, parent by parent. -/
lemma treesOf_rightParts (i v : ℕ) (events : List (StartEvent κ)) :
    treesOf i (events.flatMap fun event => event.trees.filterMap (rightPart v)) =
      (forestOf i events).filterMap fun t => if v < t.stop then some (split v t).2 else none := by
  induction events with
  | nil => rfl
  | cons event events ih =>
    rw [flatMap_cons, treesOf_append, treesOf_filterMap_rightPart, ih, forestOf_cons,
      filterMap_append]

variable {forests : List (List (RangeTree κ))}

lemma forestWF_getD {lo hi : ℕ}
    (hwf : ∀ ts ∈ forests, ForestWF lo hi ts) (i : ℕ) : ForestWF lo hi (forests.getD i []) := by
  by_cases h : forests.getD i [] = []
  · rw [h]
    exact forestWF_nil
  · obtain ⟨t, ht⟩ := exists_mem_of_ne_nil _ h
    exact hwf _ (mem_of_mem_getD ht)

variable {events : List (StartEvent κ)}

/-- The events of a sorted queue in front of an offset and those behind it. -/
lemma exists_append_of_sorted (h : events.Pairwise fun a b => a.offset < b.offset) (v : ℕ) :
    ∃ inside rest, events = inside ++ rest ∧ (∀ event ∈ inside, event.offset < v) ∧
      ∀ event ∈ rest, v ≤ event.offset := by
  induction events with
  | nil => exact ⟨[], [], rfl, by simp, by simp⟩
  | cons event events ih =>
    obtain ⟨hhead, htail⟩ := List.pairwise_cons.mp h
    by_cases hv : event.offset < v
    · obtain ⟨inside, rest, rfl, hin, hout⟩ := ih htail
      exact ⟨event :: inside, rest, rfl, List.forall_mem_cons.mpr ⟨hv, hin⟩, hout⟩
    · rw [not_lt] at hv
      refine ⟨[], event :: events, rfl, by simp, List.forall_mem_cons.mpr ⟨hv, fun ev hev => ?_⟩⟩
      exact hv.trans (hhead ev hev).le

section

variable {event : StartEvent κ} {inside rest : List (StartEvent κ)}
  {forests : List (List (RangeTree κ))} {lo hi e : ℕ}
  (h : Represents (event :: (inside ++ rest)) forests)
  (hwf : ∀ ts ∈ forests, ForestWF lo hi ts) (hopen : Opens forests event.offset e)
  (hin : ∀ ev ∈ inside, ev.offset < e) (hout : ∀ ev ∈ rest, e ≤ ev.offset)

include h hopen in
/-- The trees of the first event start the range and end in it. -/
lemma Represents.first (ht : t ∈ treesOf i event.trees) : t.start = event.offset ∧ t.stop ≤ e := by
  have hmem := mem_treesOf.mp ht
  have hstart := h.offset event mem_cons_self _ hmem
  obtain ⟨ts, hts, htt⟩ := h.mem_forests mem_cons_self hmem
  exact ⟨hstart, hopen.stop_le ts hts t htt hstart⟩

include h in
/-- The other trees of the range start behind its start. -/
lemma Represents.later (ht : t ∈ forestOf i inside) :
    ∃ ev ∈ inside, t.start = ev.offset ∧ event.offset < t.start := by
  obtain ⟨ev, hev, hmem⟩ := mem_forestOf.mp ht
  have hmem' : ev ∈ inside ++ rest := mem_append_left _ hev
  have hstart : t.start = ev.offset := h.offset ev (mem_cons_of_mem _ hmem') _ hmem
  exact ⟨ev, hev, hstart, hstart ▸ (List.pairwise_cons.mp h.sorted).1 ev hmem'⟩

include h hwf hout in
lemma Represents.forestWF_rest (i : ℕ) : ForestWF e hi (forestOf i rest) := by
  have hF := forestWF_getD hwf i
  rw [← h.forest, forestOf_cons, forestOf_append, ← append_assoc] at hF
  have hsub := hF.sublist (sublist_append_right _ (forestOf i rest))
  refine forestWF_iff.mpr ⟨fun t ht => ?_, hsub.pairwise⟩
  obtain ⟨ev, hev, hmem⟩ := mem_forestOf.mp ht
  have hev' : ev ∈ event :: (inside ++ rest) := mem_cons_of_mem _ (mem_append_right _ hev)
  have hstart : t.start = ev.offset := h.offset ev hev' _ hmem
  exact ⟨hstart ▸ hout ev hev, (hsub.mem ht).2⟩

include h hwf hopen hin hout in
/-- The cut of each forest in terms of the queue. -/
lemma Represents.cut (i : ℕ) : left e (forests.getD i []) =
        treesOf i event.trees ++ (forestOf i inside).map (leftPart e) ∧
      right e (forests.getD i []) =
        treesOf i (inside.flatMap fun ev => ev.trees.filterMap (rightPart e)) ++
          forestOf i rest := by
  -- the trees of the first event are not cut
  have hfirst : ∀ ts : List (RangeTree κ), (∀ t ∈ ts, t.stop ≤ e) →
      left e ts = ts ∧ right e ts = [] := by
    intro ts hts
    induction ts with
    | nil => simp
    | cons t ts ih =>
      obtain ⟨hl, hr⟩ := ih fun u hu => hts u (mem_cons_of_mem _ hu)
      have ht := hts t mem_cons_self
      rw [left_cons, right_cons, if_pos ht, if_pos ht, hl, hr]
      exact ⟨rfl, rfl⟩
  obtain ⟨hl₁, hr₁⟩ := hfirst (treesOf i event.trees) fun t ht => (h.first hopen ht).2
  have hlater : ∀ t ∈ forestOf i inside, t.start < e := by
    intro t ht
    obtain ⟨ev, hev, hstart, _⟩ := h.later ht
    exact hstart ▸ hin ev hev
  obtain ⟨hl₂, hr₂⟩ := cut_of_lt hlater
  obtain ⟨hl₃, hr₃⟩ := cut_of_le (h.forestWF_rest hwf hout i) le_rfl
  rw [← h.forest, forestOf_cons, forestOf_append, left_append, left_append, right_append,
    right_append, hl₁, hl₂, hl₃, hr₁, hr₂, hr₃, treesOf_rightParts]
  simp

end

/-- Putting pending trees in front of a queue, all of whose trees start behind theirs. -/
lemma represents_front {e hi : ℕ} {pending : List (ℕ × RangeTree κ)} {rest : List (StartEvent κ)}
    (hsorted : rest.Pairwise fun a b => a.offset < b.offset)
    (hne : ∀ ev ∈ rest, ev.trees ≠ []) (hoff : ∀ ev ∈ rest, ∀ t ∈ ev.trees, t.2.start = ev.offset)
    (hle : ∀ ev ∈ rest, e ≤ ev.offset) (hpend : ∀ t ∈ pending, t.2.start = e)
    (hforest : ∀ i, forests.getD i [] = treesOf i pending ++ forestOf i rest)
    (hwf : ∀ i, ForestWF e hi (forests.getD i [])) : Represents (front e pending rest) forests := by
  unfold front
  split_ifs with hp
  · subst hp
    exact ⟨hsorted, hne, hoff, fun i => (hforest i).symm⟩
  · cases rest with
    | nil =>
      refine ⟨pairwise_singleton _ _, ?_, ?_, fun i => ?_⟩
      · simpa using hp
      · simpa using hpend
      · rw [hforest]
        simp
    | cons ev rest =>
      obtain ⟨hhead, htail⟩ := List.pairwise_cons.mp hsorted
      by_cases hlt : e < ev.offset
      · simp only [if_pos hlt]
        refine ⟨List.pairwise_cons.mpr ⟨?_, hsorted⟩, ?_, ?_, fun i => ?_⟩
        · exact List.forall_mem_cons.mpr ⟨hlt, fun ev' hev' => hlt.trans (hhead ev' hev')⟩
        · exact List.forall_mem_cons.mpr ⟨hp, hne⟩
        · exact List.forall_mem_cons.mpr ⟨hpend, hoff⟩
        · rw [hforest, forestOf_cons]
      · -- the pending trees join those of the first event; no parent has trees in both
        have heq : e = ev.offset := le_antisymm (hle ev mem_cons_self) (not_lt.mp hlt)
        simp only [if_neg hlt]
        have hevoff := hoff ev mem_cons_self
        refine ⟨List.pairwise_cons.mpr ⟨hhead, htail⟩, ?_, ?_, fun i => ?_⟩
        · exact List.forall_mem_cons.mpr ⟨by simp [hp], (List.forall_mem_cons.mp hne).2⟩
        · refine List.forall_mem_cons.mpr ⟨?_, (List.forall_mem_cons.mp hoff).2⟩
          exact List.forall_mem_append.mpr ⟨hevoff, fun t ht => (hpend t ht).trans heq⟩
        · have hw := hwf i
          rw [hforest, forestOf_cons, ← append_assoc] at hw
          rw [hforest, forestOf_cons, treesOf_append]
          have hone := (hw.sublist (sublist_append_left _ _)).eq_nil_or_eq_nil
            (fun t ht => hpend _ (mem_treesOf.mp ht))
            (fun t ht => (hevoff _ (mem_treesOf.mp ht)).trans heq.symm)
          rcases hone with hnil | hnil <;> simp [hnil]

lemma start_of_mem_rightParts {e : ℕ} {t : ℕ × RangeTree κ}
    (h : t ∈ events.flatMap fun ev => ev.trees.filterMap (rightPart e)) : t.2.start = e := by
  obtain ⟨ev, _, hmem⟩ := List.mem_flatMap.mp h
  obtain ⟨u, _, hu⟩ := List.mem_filterMap.mp hmem
  unfold rightPart at hu
  split_ifs at hu
  cases hu
  exact split_snd_start e _

/-! ### One range -/

lemma getD_map_cut (f : List (RangeTree κ) → List (RangeTree κ)) (hf : f [] = []) (i : ℕ) :
    (forests.map f).getD i [] = f (forests.getD i []) := by
  rw [getD_eq_getElem?_getD, getD_eq_getElem?_getD, getElem?_map]
  cases forests[i]? with
  | none => exact hf.symm
  | some ts => rfl

variable [AddCommGroup κ]

/-- Of what a parent has in a range, the loop keeps a tree that fills it and wraps all else. -/
lemma groups_of_range {s e : ℕ} {first later : List (RangeTree κ)}
    (hfirst : ∀ t ∈ first, t.start = s) (hlater : ∀ t ∈ later, s < t.start)
    (hwf : ForestWF s e (first ++ later)) :
    (first.filter fun t => t.stop = e) = (flatGroup s e (first ++ later)).toList ∧
      wrap s e ((first.filter fun t => t.stop ≠ e) ++ later) =
        (wrappedGroup s e (first ++ later)).toList := by
  match first with
  | [] =>
    have hflat : flatGroup s e later = none := by
      cases hf : flatGroup s e later with
      | none => rfl
      | some t =>
        obtain ⟨rfl, hs, _⟩ := flatGroup_eq_some hf
        exact absurd hs (hlater t mem_cons_self).ne'
    simp only [filter_nil, nil_append, hflat, wrap, wrappedGroup]
    by_cases hl : later = [] <;> simp [hl]
  | [t] =>
    have hs := hfirst t mem_cons_self
    by_cases he : t.stop = e
    · -- nothing fits behind the tree
      have hnil : later = [] := by
        refine List.eq_nil_iff_forall_not_mem.mpr fun u hu => ?_
        have hnext := (List.pairwise_cons.mp hwf.pairwise).1 u hu
        obtain ⟨_, huwf, hle⟩ := hwf.mem (mem_append_right [t] hu)
        have hlt := huwf.lt
        omega
      simp [hnil, flatGroup, wrappedGroup, wrap, hs, he]
    · have hflat : flatGroup s e ([t] ++ later) = none := by
        cases hf : flatGroup s e ([t] ++ later) with
        | none => rfl
        | some u =>
          obtain ⟨hu, _, hue⟩ := flatGroup_eq_some hf
          cases hu
          exact absurd hue he
      simp [wrap, wrappedGroup, he, show flatGroup s e (t :: later) = none from hflat]
  | t :: u :: ts =>
    -- two trees of one parent do not start together
    have hnext := (List.pairwise_cons.mp hwf.pairwise).1 u mem_cons_self
    have hlt := (hwf.mem mem_cons_self).2.1.lt
    have ht := hfirst t mem_cons_self
    have hu := hfirst u (mem_cons_of_mem _ mem_cons_self)
    omega

omit [AddCommGroup κ] in
/-- Without events in front of its end, a range leaves nothing pending. -/
lemma measure_le (e : ℕ) (inside rest : List (StartEvent κ))
    (f : StartEvent κ → List (ℕ × RangeTree κ)) :
    (⟨some ⟨e, inside.flatMap f⟩, rest⟩ : StartEventQueue κ).measure ≤
      inside.length + 2 * rest.length := by
  cases inside with
  | nil => simp [StartEventQueue.measure]
  | cons event inside =>
    simp only [StartEventQueue.measure, length_cons]
    split_ifs <;> omega

variable (ord : IterOrder (ℕ × List (RangeTree κ)))

/-- From one range to the next the loop does to each parent what a cut does. -/
lemma eventLoop_range
    {lo hi s e fuel : ℕ} {st : MergeState κ} (hwf : ∀ ts ∈ forests, ForestWF lo hi ts)
    (hready : Ready st events) (hrep : Represents events forests) (hopen : Opens forests s e)
    (hfuel : st.queue.measure < fuel) :
    ∃ st' fuel' events', eventLoop ord fuel st = eventLoop ord fuel' st' ∧ Ready st' events' ∧
      Represents events' (forests.map (right e)) ∧ st'.queue.measure < fuel' ∧ ∀ i,
        st'.flatChildren i =
          st.flatChildren i ++ (flatGroup s e (left e (forests.getD i []))).toList ∧
        closedWrapped st' i =
          closedWrapped st i ++ (wrappedGroup s e (left e (forests.getD i []))).toList := by
  obtain ⟨event, rest₀, rfl, hoff, hend⟩ := hrep.opens hwf hopen
  obtain ⟨q, hnext, hq, hmeasure, hclose⟩ := hready.next_cons
  obtain ⟨fuel, rfl⟩ := Nat.exists_eq_succ_of_ne_zero (Nat.ne_zero_of_lt hfuel)
  -- the event opens the range
  have hopened : Opened event { st with queue := q }
      (processEvent ord { st with queue := q } event) :=
    processEvent_opened ord hready.nestedWF hready.nested_of_none hclose
  have hstep : eventLoop ord (fuel + 1) st =
      eventLoop ord fuel (processEvent ord { st with queue := q } event) := by
    rw [eventLoop, hnext]
  generalize processEvent ord { st with queue := q } event = st₁ at hopened hstep
  obtain ⟨hq₁, ho₁, hf₁, hw₁, hn₁, hwf₁⟩ := hopened
  rw [hend, hq] at hq₁
  rw [hend, hoff] at ho₁
  simp only [hend] at hf₁ hn₁
  -- the events in front of its end are nested
  have hsorted := (List.pairwise_cons.mp hrep.sorted).2
  obtain ⟨inside, rest, rfl, hin, hout⟩ := exists_append_of_sorted hsorted e
  rw [length_append] at hmeasure
  obtain ⟨fuel, rfl⟩ := Nat.exists_eq_add_of_le (by omega : inside.length ≤ fuel)
  obtain ⟨st₂, hloop, hq₂, ho₂, hf₂, hw₂, hn₂, hwf₂⟩ :=
    eventLoop_nested ord ⟨s, e⟩ fuel rest inside [] st₁ hin ho₁ hq₁
  simp only [nil_append] at hq₂ hn₂
  subst hoff
  have hcut := hrep.cut hwf hopen hin hout
  refine ⟨st₂, fuel, front e (inside.flatMap fun ev => ev.trees.filterMap (rightPart e)) rest,
    hstep.trans hloop, ?_, ?_, ?_, fun i => ?_⟩
  · have h : Ready st₂ (front e (inside.flatMap fun ev => ev.trees.filterMap (rightPart e))
        st₂.queue.queue) :=
      .between _ _ ho₂ (by rw [hq₂]) (by rw [hq₂]; exact hout) (hwf₂ hwf₁)
    rwa [hq₂] at h
  · have hmem : ∀ ev ∈ rest, ev ∈ event :: (inside ++ rest) := fun ev hev =>
      mem_cons_of_mem _ (mem_append_right _ hev)
    refine represents_front (List.pairwise_append.mp hsorted).2.1
      (fun ev hev => hrep.nonempty ev (hmem ev hev))
      (fun ev hev => hrep.offset ev (hmem ev hev)) hout (fun t => start_of_mem_rightParts)
      (fun i => ?_) (forestWF_getD (hopen.forestWF_right hwf))
    rw [getD_map_cut _ (right_nil _), (hcut i).2]
  · have hle := measure_le e inside rest fun ev => ev.trees.filterMap (rightPart e)
    rw [hq₂]
    exact hle.trans_lt (by omega)
  · have hleft := forestWF_getD (hopen.forestWF_left hwf) i
    rw [getD_map_cut _ (left_nil _), (hcut i).1] at hleft
    have hlater : ∀ t ∈ (forestOf i inside).map (leftPart e), event.offset < t.start := by
      intro t ht
      obtain ⟨u, hu, rfl⟩ := List.mem_map.mp ht
      obtain ⟨_, _, _, hlt⟩ := hrep.later hu
      rwa [leftPart_start]
    obtain ⟨hflat, hwrapped⟩ := groups_of_range (fun t ht => (hrep.first hopen ht).1) hlater hleft
    rw [(hcut i).1, ← hflat, ← hwrapped, hf₂, hf₁]
    simp [closedWrapped, ho₂, hw₂, hw₁, hn₂, hn₁]

/-! ### All ranges -/

/-- The tree of a parent in a row that fills the range. -/
def Row.flatAt (i : ℕ) (row : Row κ) : Option (RangeTree κ) :=
  flatGroup row.start row.stop (row.lefts.getD i [])

/-- What else the parent has in the row. -/
def Row.wrappedAt (i : ℕ) (row : Row κ) : Option (RangeTree κ) :=
  wrappedGroup row.start row.stop (row.lefts.getD i [])

/-- The loop leaves each parent its entry of every row: what fills the range beside what it had,
and what else there is wrapped. -/
theorem eventLoop_sweep
    {rows : List (Row κ)} (hsweep : Sweep forests rows) {lo hi fuel : ℕ} {st : MergeState κ}
    (hwf : ∀ ts ∈ forests, ForestWF lo hi ts) (hready : Ready st events)
    (hrep : Represents events forests) (hfuel : st.queue.measure < fuel) :
    NestedWF (eventLoop ord fuel st).parentToNested ∧ ∀ i, (eventLoop ord fuel st).flatChildren i =
        st.flatChildren i ++ rows.filterMap (Row.flatAt i) ∧
      closedWrapped (eventLoop ord fuel st) i =
        closedWrapped st i ++ rows.filterMap (Row.wrappedAt i) := by
  induction hsweep generalizing lo fuel st events with
  | @done forests hempty =>
    obtain rfl := hrep.eq_nil hempty
    obtain ⟨fuel, rfl⟩ := Nat.exists_eq_succ_of_ne_zero (Nat.ne_zero_of_lt hfuel)
    have hloop : eventLoop ord (fuel + 1) st = st := by
      rw [eventLoop, hready.next_nil]
    rw [hloop]
    exact ⟨hready.nestedWF, by simp⟩
  | @step forests s e rows hopen _ ih =>
    obtain ⟨st', fuel', events', hloop, hready', hrep', hfuel', hcols⟩ :=
      eventLoop_range ord hwf hready hrep hopen hfuel
    obtain ⟨hnested, hrows⟩ := ih (hopen.forestWF_right hwf) hready' hrep' hfuel'
    rw [hloop]
    refine ⟨hnested, fun i => ?_⟩
    have hcons : ∀ f : Row κ → Option (RangeTree κ),
        (⟨s, e, forests.map (left e)⟩ :: rows).filterMap f =
          (f ⟨s, e, forests.map (left e)⟩).toList ++ rows.filterMap f := by
      intro f
      rw [filterMap_cons]
      cases f ⟨s, e, forests.map (left e)⟩ <;> rfl
    rw [(hrows i).1, (hrows i).2, (hcols i).1, (hcols i).2, hcons, hcons, append_assoc,
      append_assoc, Row.flatAt, Row.wrappedAt, getD_map_cut _ (left_nil _)]
    exact ⟨rfl, rfl⟩

end Deno
