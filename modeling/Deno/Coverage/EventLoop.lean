import Deno.Coverage.Forest
import Deno.Coverage.Merge

/-!
# The phases of the event loop

The loop of `merge_range_tree_children` is followed parent by parent. An event either opens a
range, after closing the one before, or is nested in the open range. What either does is said for
each parent: neither the order in which trees of different parents meet in an event nor the order
in which the hash map is iterated makes a difference to any of them.
-/

namespace Deno

open Core RangeTree List

variable {κ : Type}

/-! ### Forests of parents -/

variable (i)

def treesOf (ts : List (ℕ × RangeTree κ)) : List (RangeTree κ) :=
  (ts.filter fun t => t.1 = i).map Prod.snd

def forestOf (events : List (StartEvent κ)) : List (RangeTree κ) :=
  events.flatMap fun event => treesOf i event.trees

@[simp] lemma treesOf_nil : treesOf i ([] : List (ℕ × RangeTree κ)) = [] := rfl

lemma treesOf_cons (t : ℕ × RangeTree κ) (ts : List (ℕ × RangeTree κ)) :
    treesOf i (t :: ts) = if t.1 = i then t.2 :: treesOf i ts else treesOf i ts := by
  unfold treesOf
  split_ifs <;> simp_all

lemma treesOf_append (ts us : List (ℕ × RangeTree κ)) :
    treesOf i (ts ++ us) = treesOf i ts ++ treesOf i us := by
  simp [treesOf]

variable {i} {t : RangeTree κ} {i : ℕ}

lemma mem_treesOf {ts : List (ℕ × RangeTree κ)} : t ∈ treesOf i ts ↔ (i, t) ∈ ts := by
  simp [treesOf]

@[simp] lemma forestOf_nil (i : ℕ) : forestOf i ([] : List (StartEvent κ)) = [] := rfl

@[simp] lemma forestOf_cons (i : ℕ) (event : StartEvent κ) (events : List (StartEvent κ)) :
    forestOf i (event :: events) = treesOf i event.trees ++ forestOf i events :=
  flatMap_cons

lemma forestOf_append (i : ℕ) (events events' : List (StartEvent κ)) :
    forestOf i (events ++ events') = forestOf i events ++ forestOf i events' :=
  flatMap_append

lemma mem_forestOf {events : List (StartEvent κ)} :
    t ∈ forestOf i events ↔ ∃ event ∈ events, (i, t) ∈ event.trees := by
  simp [forestOf, mem_treesOf]

/-! ### The hash map of nested trees -/

def nestedAt (i : ℕ) : NestedMap κ → List (RangeTree κ)
  | [] => []
  | (j, ts) :: entries => if j = i then ts else nestedAt i entries

/-- No parent has two entries, and none has an empty one. -/
structure NestedWF (nested : NestedMap κ) : Prop where
  nodup : (nested.map Prod.fst).Nodup
  nonempty : ∀ entry ∈ nested, entry.2 ≠ []

lemma nestedWF_nil : NestedWF ([] : NestedMap κ) := ⟨nodup_nil, by simp⟩

lemma nestedAt_pushNested (i j : ℕ) (t : RangeTree κ) (nested : NestedMap κ) :
    nestedAt j (pushNested i t nested) =
      if j = i then nestedAt i nested ++ [t] else nestedAt j nested := by
  induction nested with
  | nil => simp [pushNested, nestedAt, eq_comm]
  | cons entry nested ih =>
    obtain ⟨k, ts⟩ := entry
    unfold pushNested
    by_cases hk : k = i
    · subst hk
      by_cases hj : j = k
      · simp [nestedAt, hj]
      · simp [nestedAt, hj, Ne.symm hj]
    · rw [if_neg hk]
      by_cases hj : j = i
      · subst hj
        simp [nestedAt, hk, ih]
      · by_cases hjk : k = j
        · simp [nestedAt, hj, hjk]
        · simp [nestedAt, hj, hjk, ih]

variable {nested : NestedMap κ}

lemma mem_keys_pushNested {i j : ℕ} :
    j ∈ (pushNested i t nested).map Prod.fst ↔ j = i ∨ j ∈ nested.map Prod.fst := by
  induction nested with
  | nil => simp [pushNested]
  | cons entry nested ih =>
    unfold pushNested
    split_ifs with hk
    · subst hk
      simp
    · rw [map_cons, mem_cons, map_cons, mem_cons]
      tauto

lemma NestedWF.push (h : NestedWF nested) (i : ℕ) (t : RangeTree κ) :
    NestedWF (pushNested i t nested) := by
  induction nested with
  | nil => exact ⟨by simp [pushNested], by simp [pushNested]⟩
  | cons entry nested ih =>
    obtain ⟨hnodup, hne⟩ := h
    rw [map_cons, nodup_cons] at hnodup
    obtain ⟨hts, hne⟩ := List.forall_mem_cons.mp hne
    unfold pushNested
    split_ifs with hk
    · exact ⟨List.nodup_cons.mpr hnodup, List.forall_mem_cons.mpr ⟨by simp, hne⟩⟩
    · have hrest := ih ⟨hnodup.2, hne⟩
      refine ⟨List.nodup_cons.mpr ⟨fun hmem => ?_, hrest.nodup⟩,
        List.forall_mem_cons.mpr ⟨hts, hrest.nonempty⟩⟩
      exact (mem_keys_pushNested.mp hmem).elim hk hnodup.1

lemma nestedAt_of_not_mem (h : ¬ i ∈ nested.map Prod.fst) : nestedAt i nested = [] := by
  induction nested with
  | nil => rfl
  | cons entry nested ih =>
    rw [map_cons, mem_cons, not_or] at h
    rw [nestedAt, if_neg (Ne.symm h.1), ih h.2]

/-- The entries of one parent: there is one exactly if something is nested under it. -/
lemma NestedWF.filter_eq (h : NestedWF nested) (i : ℕ) : (nested.filter fun entry => entry.1 = i) =
      if nestedAt i nested = [] then [] else [(i, nestedAt i nested)] := by
  induction nested with
  | nil => rfl
  | cons entry nested ih =>
    obtain ⟨k, ts⟩ := entry
    obtain ⟨hnodup, hne⟩ := h
    rw [map_cons, nodup_cons] at hnodup
    obtain ⟨hts, hne⟩ := List.forall_mem_cons.mp hne
    have hrest := ih ⟨hnodup.2, hne⟩
    by_cases hk : k = i
    · subst hk
      rw [nestedAt_of_not_mem hnodup.1] at hrest
      simp [nestedAt, hts, hrest]
    · simp [nestedAt, hk, hrest]

/-! ### Closing a range -/

variable [AddCommGroup κ]

/-- What is nested under a parent as one tree, unless there is nothing. -/
def wrap (s e : ℕ) (ts : List (RangeTree κ)) : List (RangeTree κ) :=
  if ts = [] then [] else [.node s e 0 ts]

/-- The wrapped trees of a parent once the open range is closed. -/
def closedWrapped (st : MergeState κ) (i : ℕ) : List (RangeTree κ) :=
  st.wrappedChildren i ++
    match st.openRange with
    | some range => wrap range.start range.stop (nestedAt i st.parentToNested)
    | none => []

lemma eq_of_perm_of_length_le_one {α : Type} {l l' : List α} (h : l.Perm l')
    (hl : l'.length ≤ 1) : l = l' := by
  match l', hl with
  | [], _ => exact h.eq_nil
  | [a], _ => exact List.perm_singleton.mp h

variable {st : MergeState κ}

section

variable (ord : IterOrder (ℕ × List (RangeTree κ)))

include ord

/-- Whatever the order of iteration, closing a range wraps what is nested under each parent. -/
lemma closeRange_wrapped (range : CharRange) (h : NestedWF st.parentToNested) (i : ℕ) :
    (closeRange ord range st).wrappedChildren i = st.wrappedChildren i ++
      wrap range.start range.stop (nestedAt i st.parentToNested) := by
  have hfold : ∀ (entries : NestedMap κ) (wrapped : ℕ → List (RangeTree κ)),
      (entries.foldl (fun wrapped entry =>
        pushAt wrapped entry.1 (.node range.start range.stop 0 entry.2)) wrapped) i =
      wrapped i ++ (entries.filter fun entry => entry.1 = i).map fun entry =>
        .node range.start range.stop 0 entry.2 := by
    intro entries
    induction entries with
    | nil => simp
    | cons entry entries ih =>
      intro wrapped
      rw [foldl_cons, ih]
      by_cases hi : entry.1 = i
      · subst hi
        simp [pushAt]
      · simp [pushAt, hi, Function.update_of_ne (Ne.symm hi)]
  have hperm : (ord.run st.parentToNested).filter (fun entry => entry.1 = i) =
      st.parentToNested.filter fun entry => entry.1 = i := by
    refine eq_of_perm_of_length_le_one ((ord.perm _).filter _) ?_
    rw [h.filter_eq]
    split_ifs <;> simp
  refine (hfold _ _).trans ?_
  rw [hperm, h.filter_eq, wrap]
  split_ifs <;> rfl

lemma closeOpen_flat (st : MergeState κ) : (closeOpen ord st).flatChildren = st.flatChildren := by
  unfold closeOpen
  cases st.openRange <;> rfl

lemma closeOpen_wrapped (h : NestedWF st.parentToNested) (i : ℕ) :
    (closeOpen ord st).wrappedChildren i = closedWrapped st i := by
  unfold closeOpen closedWrapped
  cases st.openRange with
  | none => simp
  | some range => exact closeRange_wrapped ord range h i

end

/-! ### Opening a range -/

/-- What placing trees into a range of the given end does to each parent. -/
structure Placed (e : ℕ) (ts : List (ℕ × RangeTree κ)) (st st' : MergeState κ) : Prop where
  queue : st'.queue = st.queue
  wrapped : st'.wrappedChildren = st.wrappedChildren
  flat : ∀ i, st'.flatChildren i = st.flatChildren i ++ (treesOf i ts).filter fun t => t.stop = e
  nested : ∀ i, nestedAt i st'.parentToNested =
    nestedAt i st.parentToNested ++ (treesOf i ts).filter fun t => t.stop ≠ e
  wf : NestedWF st.parentToNested → NestedWF st'.parentToNested

omit [AddCommGroup κ] in
lemma foldl_placeTree (e : ℕ) (ts : List (ℕ × RangeTree κ)) (st : MergeState κ) :
    Placed e ts st (ts.foldl (placeTree e) st) := by
  induction ts generalizing st with
  | nil => exact ⟨rfl, rfl, by simp, by simp, id⟩
  | cons t ts ih =>
    have h := ih (placeTree e st t)
    rw [foldl_cons]
    by_cases ht : t.2.stop = e
    · have hst : placeTree e st t =
          { st with flatChildren := pushAt st.flatChildren t.1 t.2 } := if_pos ht
      rw [hst] at h ⊢
      refine ⟨h.queue, h.wrapped, fun i => ?_, fun i => ?_, h.wf⟩
      · rw [h.flat, treesOf_cons, pushAt]
        by_cases hi : t.1 = i
        · subst hi
          simp [ht]
        · simp [hi, Function.update_of_ne (Ne.symm hi)]
      · rw [h.nested, treesOf_cons]
        split_ifs with hi
        · simp [ht]
        · rfl
    · have hst : placeTree e st t =
          { st with parentToNested := pushNested t.1 t.2 st.parentToNested } := if_neg ht
      rw [hst] at h ⊢
      refine ⟨h.queue, h.wrapped, fun i => ?_, fun i => ?_, fun hwf => h.wf (hwf.push _ _)⟩
      · rw [h.flat, treesOf_cons]
        split_ifs with hi
        · simp [ht]
        · rfl
      · rw [h.nested, treesOf_cons, nestedAt_pushNested]
        by_cases hi : i = t.1
        · subst hi
          simp [ht]
        · simp [hi, Ne.symm hi]

/-- An event at or behind the end of the open range closes it and opens another one. -/
structure Opened (event : StartEvent κ) (st st' : MergeState κ) : Prop where
  queue : st'.queue = ⟨some ⟨openRangeEnd event, []⟩, st.queue.queue⟩
  openRange : st'.openRange = some ⟨event.offset, openRangeEnd event⟩
  flat : ∀ i, st'.flatChildren i =
    st.flatChildren i ++ (treesOf i event.trees).filter fun t => t.stop = openRangeEnd event
  wrapped : ∀ i, st'.wrappedChildren i = closedWrapped st i
  nested : ∀ i, nestedAt i st'.parentToNested =
    (treesOf i event.trees).filter fun t => t.stop ≠ openRangeEnd event
  wf : NestedWF st'.parentToNested

lemma processEvent_opened (ord : IterOrder (ℕ × List (RangeTree κ)))
    {event : StartEvent κ} (hwf : NestedWF st.parentToNested)
    (hnone : st.openRange = none → st.parentToNested = [])
    (hclose : ∀ range, st.openRange = some range → range.stop ≤ event.offset) :
    Opened event st (processEvent ord st event) := by
  -- after the closing nothing is nested, and the wrapped trees are those of the closed range
  have hclosed : ∃ st₁ : MergeState κ, st₁.openRange = none ∧ st₁.parentToNested = [] ∧
      st₁.queue = st.queue ∧ st₁.flatChildren = st.flatChildren ∧
      (∀ i, st₁.wrappedChildren i = closedWrapped st i) ∧
      processEvent ord st event =
        { event.trees.foldl (placeTree (openRangeEnd event)) st₁ with
          queue := (event.trees.foldl (placeTree (openRangeEnd event)) st₁).queue.setPendingOffset
            (openRangeEnd event)
          openRange := some ⟨event.offset, openRangeEnd event⟩ } := by
    cases hr : st.openRange with
    | none =>
      refine ⟨st, hr, hnone hr, rfl, rfl, fun i => ?_, ?_⟩
      · simp [closedWrapped, hr]
      · simp [processEvent, hr]
    | some range =>
      refine ⟨closeRange ord range st, rfl, rfl, rfl, rfl, fun i => ?_, ?_⟩
      · rw [closeRange_wrapped ord range hwf, closedWrapped, hr]
      · have hno : (closeRange ord range st).openRange = none := rfl
        simp [processEvent, hr, if_pos (hclose range hr), hno]
  obtain ⟨st₁, _, hnested, hqueue, hflat, hwrapped, heq⟩ := hclosed
  have h := foldl_placeTree (openRangeEnd event) event.trees st₁
  rw [heq]
  refine ⟨?_, rfl, fun i => ?_, fun i => ?_, fun i => ?_, ?_⟩
  · rw [h.queue, hqueue]
    rfl
  · exact (h.flat i).trans (by rw [hflat])
  · exact (congrFun h.wrapped i).trans (hwrapped i)
  · refine (h.nested i).trans ?_
    rw [hnested]
    rfl
  · exact h.wf (hnested ▸ nestedWF_nil)

/-! ### Inside a range -/

/-- What sticks out of a range with the given end. -/
def rightPart (v : ℕ) (t : ℕ × RangeTree κ) : Option (ℕ × RangeTree κ) :=
  if v < t.2.stop then some (t.1, (split v t.2).2) else none

/-- What nesting trees in a range does to each parent. -/
structure Nested (range : CharRange) (ts : List (ℕ × RangeTree κ)) (st st' : MergeState κ) :
    Prop where
  events : st'.queue.queue = st.queue.queue
  pending : st'.queue.pending = st.queue.pending.map fun event =>
    { event with trees := event.trees ++ ts.filterMap (rightPart range.stop) }
  openRange : st'.openRange = st.openRange
  flat : st'.flatChildren = st.flatChildren
  wrapped : st'.wrappedChildren = st.wrappedChildren
  nested : ∀ i, nestedAt i st'.parentToNested =
    nestedAt i st.parentToNested ++ (treesOf i ts).map (leftPart range.stop)
  wf : NestedWF st.parentToNested → NestedWF st'.parentToNested

omit [AddCommGroup κ] in
lemma nestTree_nested (range : CharRange) (st : MergeState κ) (t : ℕ × RangeTree κ) :
    Nested range [t] st (nestTree range st t) := by
  have hnested : ∀ i, nestedAt i (pushNested t.1 (leftPart range.stop t.2) st.parentToNested) =
      nestedAt i st.parentToNested ++ (treesOf i [t]).map (leftPart range.stop) := by
    intro i
    rw [nestedAt_pushNested, treesOf_cons]
    by_cases hi : i = t.1
    · subst hi
      simp
    · simp [hi, Ne.symm hi]
  by_cases ht : range.stop < t.2.stop
  · have hst : nestTree range st t = { st with
        queue := st.queue.pushPendingTree (t.1, (split range.stop t.2).2)
        parentToNested := pushNested t.1 (split range.stop t.2).1 st.parentToNested } := if_pos ht
    rw [leftPart, if_pos ht] at hnested
    rw [hst]
    refine ⟨rfl, ?_, rfl, rfl, rfl, hnested, fun h => h.push _ _⟩
    simp [StartEventQueue.pushPendingTree, rightPart, ht]
  · have hst : nestTree range st t = { st with
        parentToNested := pushNested t.1 t.2 st.parentToNested } := if_neg ht
    rw [leftPart, if_neg ht] at hnested
    rw [hst]
    refine ⟨rfl, ?_, rfl, rfl, rfl, hnested, fun h => h.push _ _⟩
    cases st.queue.pending <;> simp [rightPart, ht]

omit [AddCommGroup κ] in
lemma foldl_nestTree (range : CharRange) (ts : List (ℕ × RangeTree κ)) (st : MergeState κ) :
    Nested range ts st (ts.foldl (nestTree range) st) := by
  induction ts generalizing st with
  | nil =>
    refine ⟨rfl, ?_, rfl, rfl, rfl, by simp, id⟩
    cases h : st.queue.pending <;> simp [h]
  | cons t ts ih =>
    have h := ih (nestTree range st t)
    have ht := nestTree_nested range st t
    rw [foldl_cons]
    refine ⟨h.events.trans ht.events, ?_, h.openRange.trans ht.openRange, h.flat.trans ht.flat,
      h.wrapped.trans ht.wrapped, fun i => ?_, fun hwf => h.wf (ht.wf hwf)⟩
    · rw [h.pending, ht.pending, Option.map_map]
      congr 1
      funext event
      simp [filterMap_cons]
      split <;> simp_all
    · rw [h.nested, ht.nested, append_assoc, ← map_append, ← treesOf_append, singleton_append]

/-- The events in front of the end of the open range are all nested in it. -/
lemma eventLoop_nested (ord : IterOrder (ℕ × List (RangeTree κ))) (range : CharRange)
    (fuel : ℕ) (events : List (StartEvent κ)) :
    ∀ (inside : List (StartEvent κ)) (pending : List (ℕ × RangeTree κ)) (st : MergeState κ),
      (∀ event ∈ inside, event.offset < range.stop) → st.openRange = some range →
      st.queue = ⟨some ⟨range.stop, pending⟩, inside ++ events⟩ →
      ∃ st' : MergeState κ, eventLoop ord (inside.length + fuel) st = eventLoop ord fuel st' ∧
        st'.queue = ⟨some ⟨range.stop,
          pending ++ inside.flatMap fun event => event.trees.filterMap (rightPart range.stop)⟩,
          events⟩ ∧
        st'.openRange = some range ∧ st'.flatChildren = st.flatChildren ∧
        st'.wrappedChildren = st.wrappedChildren ∧
        (∀ i, nestedAt i st'.parentToNested =
          nestedAt i st.parentToNested ++ (forestOf i inside).map (leftPart range.stop)) ∧
        (NestedWF st.parentToNested → NestedWF st'.parentToNested)
  | [], pending, st, _, hopen, hqueue =>
    ⟨st, by simp, by simpa using hqueue, hopen, rfl, rfl, by simp, id⟩
  | event :: inside, pending, st, hlt, hopen, hqueue => by
    have hevent := hlt event mem_cons_self
    -- the pending event lies behind the one at the head of the queue
    have hnext : st.queue.next = some (event, ⟨some ⟨range.stop, pending⟩, inside ++ events⟩) := by
      rw [hqueue, StartEventQueue.next]
      cases pending with
      | nil => rfl
      | cons t ts => simp [hevent.not_gt, hevent.ne']
    have hn := foldl_nestTree range event.trees
      { st with queue := ⟨some ⟨range.stop, pending⟩, inside ++ events⟩ }
    generalize hst : event.trees.foldl (nestTree range)
      { st with queue := ⟨some ⟨range.stop, pending⟩, inside ++ events⟩ } = st₁ at hn
    have hprocess : processEvent ord { st with
        queue := ⟨some ⟨range.stop, pending⟩, inside ++ events⟩ } event = st₁ := by
      simp [processEvent, hopen, if_neg hevent.not_ge, ← hst]
    have hqueue₁ : st₁.queue = ⟨some ⟨range.stop,
        pending ++ event.trees.filterMap (rightPart range.stop)⟩, inside ++ events⟩ := by
      have h1 := hn.events
      have h2 := hn.pending
      cases hq : st₁.queue
      simp_all
    obtain ⟨st', hloop, hq, ho, hf, hw, hnest, hwf⟩ := eventLoop_nested ord range fuel events inside
      _ st₁ (fun e he => hlt e (mem_cons_of_mem _ he)) (hn.openRange.trans hopen) hqueue₁
    refine ⟨st', ?_, ?_, ho, hf.trans hn.flat, hw.trans hn.wrapped, fun i => ?_,
      fun h => hwf (hn.wf h)⟩
    · rw [← hloop, length_cons, Nat.add_right_comm, eventLoop, hnext]
      simp only
      rw [hprocess]
    · rw [hq, flatMap_cons, append_assoc]
    · rw [hnest, hn.nested, forestOf_cons, map_append, append_assoc]

/-! ### Between two ranges -/

/-- The queue with the pending trees, all of which start at `o`, in front. -/
def front (o : ℕ) (pending : List (ℕ × RangeTree κ)) (events : List (StartEvent κ)) :
    List (StartEvent κ) :=
  if pending = [] then events
  else
    match events with
    | [] => [⟨o, pending⟩]
    | event :: events =>
      if o < event.offset then ⟨o, pending⟩ :: event :: events
      else ⟨event.offset, event.trees ++ pending⟩ :: events

/-- Nothing of the open range is left in the queue; the events to come are the given ones. -/
inductive Ready (st : MergeState κ) : List (StartEvent κ) → Prop where
  | initial : st.queue.pending = none → st.openRange = none → st.parentToNested = [] →
      Ready st st.queue.queue
  | between (range : CharRange) (pending : List (ℕ × RangeTree κ)) :
      st.openRange = some range → st.queue.pending = some ⟨range.stop, pending⟩ →
      (∀ event ∈ st.queue.queue, range.stop ≤ event.offset) → NestedWF st.parentToNested →
      Ready st (front range.stop pending st.queue.queue)

/-- Bounds the number of events still to come. -/
def StartEventQueue.measure (q : StartEventQueue κ) : ℕ :=
  2 * q.queue.length +
    match q.pending with
    | some event => if event.trees.isEmpty then 0 else 1
    | none => 0

namespace Ready

variable {st : MergeState κ} {events : List (StartEvent κ)}

omit [AddCommGroup κ] in
lemma nestedWF (h : Ready st events) : NestedWF st.parentToNested := by
  cases h with
  | initial _ _ hn => exact hn ▸ nestedWF_nil
  | between _ _ _ _ _ hwf => exact hwf

omit [AddCommGroup κ] in
lemma nested_of_none (h : Ready st events) (hr : st.openRange = none) : st.parentToNested = [] := by
  cases h with
  | initial _ _ hn => exact hn
  | between _ _ ho _ _ _ =>
    rw [hr] at ho
    cases ho

omit [AddCommGroup κ] in
lemma next_nil (h : Ready st []) : st.queue.next = none := by
  generalize hev : ([] : List (StartEvent κ)) = events at h
  cases h with
  | initial hp _ _ => simp [StartEventQueue.next, hp, ← hev]
  | between range pending _ hp _ _ =>
    unfold front at hev
    split_ifs at hev with hpend
    · simp [StartEventQueue.next, hp, hpend, ← hev]
    · split at hev
      · cases hev
      · split_ifs at hev

omit [AddCommGroup κ] in
/-- The next event is the first one to come, and it closes the open range. -/
lemma next_cons {event : StartEvent κ} (h : Ready st (event :: events)) :
    ∃ q, st.queue.next = some (event, q) ∧ q.queue = events ∧
      2 * events.length + 1 ≤ st.queue.measure ∧
      ∀ range, st.openRange = some range → range.stop ≤ event.offset := by
  generalize hev : event :: events = all at h
  cases h with
  | initial hp ho _ =>
    refine ⟨{ st.queue with queue := events }, ?_, rfl, ?_, fun range hr => ?_⟩
    · simp [StartEventQueue.next, hp, ← hev]
    · rw [StartEventQueue.measure, ← hev, length_cons]
      omega
    · rw [ho] at hr
      cases hr
  | between range pending ho hp hle _ =>
    have hstop : ∀ range', st.openRange = some range' → range' = range := by
      intro range' hr
      rw [ho] at hr
      exact (Option.some.inj hr).symm
    unfold front at hev
    split_ifs at hev with hpend
    · -- nothing is pending
      refine ⟨{ st.queue with queue := events }, ?_, rfl, ?_, fun range' hr => ?_⟩
      · simp [StartEventQueue.next, hp, hpend, ← hev]
      · rw [StartEventQueue.measure, ← hev, length_cons]
        omega
      · rw [hstop range' hr]
        exact hle event (by simp [← hev])
    · have hempty : pending.isEmpty = false := by simpa using hpend
      split at hev
      · -- only the pending event is left
        rename_i hq
        cases hev
        refine ⟨⟨none, []⟩, ?_, rfl, ?_, fun range' hr => (hstop range' hr) ▸ le_rfl⟩
        · simp [StartEventQueue.next, hp, hempty, hq]
        · simp [StartEventQueue.measure, hp, hempty]
      · rename_i event' events' hq
        have hle' := hle event' (by simp [hq])
        split_ifs at hev with hlt
        · -- the pending event comes before the queue
          cases hev
          refine ⟨⟨none, event' :: events'⟩, ?_, rfl, ?_,
            fun range' hr => (hstop range' hr) ▸ le_rfl⟩
          · simp [StartEventQueue.next, hp, hempty, hq, hlt]
          · simp [StartEventQueue.measure, hp, hempty, hq]
        · -- both are at the same offset
          have heq : range.stop = event'.offset := by omega
          cases hev
          refine ⟨⟨none, events⟩, ?_, rfl, ?_, fun range' hr => ?_⟩
          · simp [StartEventQueue.next, hp, hempty, hq, heq]
          · simp only [StartEventQueue.measure, hq, length_cons]
            omega
          · rw [hstop range' hr]
            exact hle'

end Ready

end Deno
