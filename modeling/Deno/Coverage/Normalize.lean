import Deno.Coverage.Forest
import Mathlib.Data.List.Chain

/-!
# Normalizing keeps the values

The trees of a chain touch and have the same difference, so joining them changes no value, and
neither does replacing a node by an only child of its range. Joining makes nothing deeper, so
the depth of a tree is enough for the recursion.
-/

namespace Deno.RangeTree

open List

variable {κ : Type}

/-! ### Chains -/

/-- A tree continues another one: the same difference, and no gap. -/
def Linked (a b : RangeTree κ) : Prop := a.delta = b.delta ∧ a.stop = b.start

section

variable [DecidableEq κ]

lemma flatten_chains (chain cs : List (RangeTree κ)) : (chains chain cs).flatten = chain ++ cs := by
  induction cs generalizing chain with
  | nil =>
    unfold chains
    split_ifs with h
    · simp_all
    · simp
  | cons c cs ih =>
    unfold chains
    split_ifs
    · rw [flatten_cons, ih]
      rfl
    · rw [ih, append_assoc]
      rfl

variable {chain : List (RangeTree κ)}

lemma linked_of_not_isChainEnd {c : RangeTree κ}
    (h : ¬ isChainEnd chain c = true) : ∀ t ∈ chain.getLast?, Linked t c := by
  intro t ht
  rw [isChainEnd, ht] at h
  simpa [Linked] using h

lemma isChain_chains (h : chain.IsChain Linked)
    (cs : List (RangeTree κ)) : ∀ c ∈ chains chain cs, c.IsChain Linked := by
  induction cs generalizing chain with
  | nil =>
    intro c hc
    unfold chains at hc
    split_ifs at hc
    · cases hc
    · rwa [List.mem_singleton.mp hc]
  | cons c cs ih =>
    unfold chains
    split_ifs with hend
    · exact List.forall_mem_cons.mpr ⟨h, ih (isChain_singleton c)⟩
    · refine ih (h.append (isChain_singleton c) fun t ht u hu => ?_)
      rw [head?_cons, Option.mem_some_iff] at hu
      exact hu ▸ linked_of_not_isChainEnd hend t ht

end

variable [AddCommGroup κ]

/-! ### Changing the difference of a node -/

@[simp] lemma start_addDelta (d : κ) (t : RangeTree κ) : (t.addDelta d).start = t.start := by
  cases t
  rfl

@[simp] lemma stop_addDelta (d : κ) (t : RangeTree κ) : (t.addDelta d).stop = t.stop := by
  cases t
  rfl

@[simp] lemma children_addDelta (d : κ) (t : RangeTree κ) :
    (t.addDelta d).children = t.children := by
  cases t
  rfl

@[simp] lemma addDelta_zero (t : RangeTree κ) : t.addDelta 0 = t := by
  cases t
  simp [addDelta]

variable {t : RangeTree κ}

lemma WF.addDelta (h : t.WF) (d : κ) : (t.addDelta d).WF := by
  cases t
  exact wf_node.mpr (wf_node.mp h)

lemma valueAt_addDelta (x : ℕ) (d : κ) (t : RangeTree κ) : (t.addDelta d).valueAt x =
    if t.start ≤ x ∧ x < t.stop then d + t.valueAt x else 0 := by
  obtain ⟨s, e, d', cs⟩ := t
  rw [addDelta, valueAt_node, valueAt_node]
  by_cases hx : s ≤ x ∧ x < e
  · simp [hx, add_left_comm, add_assoc]
  · simp [hx]

/-! ### Joining -/

lemma absorb_eq {a b : RangeTree κ} (h : Linked a b) :
    absorb a b = node a.start b.stop a.delta (a.children ++ b.children) := by
  have hzero : b.children.map (addDelta (b.delta - a.delta)) = b.children := by
    rw [h.1, sub_self]
    exact map_id'' addDelta_zero _
  rw [absorb, hzero]

variable {lo hi : ℕ} {ts : List (RangeTree κ)}

lemma ForestWF.absorb {a b : RangeTree κ}
    (hwf : ForestWF lo hi (a :: b :: ts)) (h : Linked a b) : ForestWF lo hi (a.absorb b :: ts) ∧
      ∀ x, forestValue x (a.absorb b :: ts) = forestValue x (a :: b :: ts) := by
  obtain ⟨hlo, ha, hahi, hrest⟩ := forestWF_cons.mp hwf
  obtain ⟨hab, hb, hbhi, hts⟩ := forestWF_cons.mp hrest
  have halt := ha.lt
  have hblt := hb.lt
  have hbchildren : ForestWF a.stop b.stop b.children := h.2 ▸ hb.children
  rw [absorb_eq h]
  refine ⟨forestWF_cons.mpr ⟨hlo, wf_node.mpr ⟨by omega, ?_⟩, hbhi, hts⟩, fun x => ?_⟩
  · exact ha.children.append hbchildren halt.le (by omega)
  · rw [forestValue_cons, forestValue_cons, forestValue_cons, ← add_assoc, valueAt_node,
      valueAt_eq x a, valueAt_eq x b, forestValue_append, ← h.1, ← h.2]
    -- an offset lies in at most one of the two trees
    rcases lt_or_ge x a.stop with hx | hx
    · rw [forestValue_of_outside hbchildren (by omega), add_zero,
        if_neg (by omega : ¬ (a.stop ≤ x ∧ x < b.stop)), add_zero]
      congr 1
      exact if_congr (by omega) rfl rfl
    · rw [forestValue_of_outside ha.children (by omega), zero_add,
        if_neg (by omega : ¬ (a.start ≤ x ∧ x < a.stop)), zero_add]
      congr 1
      exact if_congr (by omega) rfl rfl

lemma ForestWF.foldl_absorb {chain ts : List (RangeTree κ)} {head : RangeTree κ}
    (hwf : ForestWF lo hi (head :: chain ++ ts)) (h : (head :: chain).IsChain Linked) :
    ForestWF lo hi (chain.foldl RangeTree.absorb head :: ts) ∧
      ∀ x, forestValue x (chain.foldl RangeTree.absorb head :: ts) =
        forestValue x (head :: chain ++ ts) := by
  induction chain generalizing head with
  | nil => exact ⟨hwf, fun _ => rfl⟩
  | cons t chain ih =>
    obtain ⟨hlink, hchain⟩ := List.isChain_cons_cons.mp h
    obtain ⟨hwf', hvalue⟩ := ForestWF.absorb hwf hlink
    -- the joined tree ends where the second one did, so the chain goes on
    have hnext : (head.absorb t :: chain).IsChain Linked := by
      cases chain with
      | nil => simp
      | cons u chain =>
        obtain ⟨hlink', hchain'⟩ := List.isChain_cons_cons.mp hchain
        refine List.isChain_cons_cons.mpr ⟨⟨?_, hlink'.2⟩, hchain'⟩
        exact hlink.1.trans hlink'.1
    obtain ⟨hwf'', hvalue'⟩ := ih hwf' hnext
    exact ⟨hwf'', fun x => (hvalue' x).trans (hvalue x)⟩

lemma ForestWF.collapse {cs : List (List (RangeTree κ))}
    (hwf : ForestWF lo hi cs.flatten) (h : ∀ c ∈ cs, c.IsChain Linked) :
    ForestWF lo hi (cs.filterMap RangeTree.collapse) ∧
      ∀ x, forestValue x (cs.filterMap RangeTree.collapse) = forestValue x cs.flatten := by
  induction cs generalizing lo with
  | nil => simp
  | cons c cs ih =>
    have hcs : ∀ c ∈ cs, c.IsChain Linked := fun c' hc' => h c' (mem_cons_of_mem _ hc')
    cases c with
    | nil => exact ih hwf hcs
    | cons t c =>
      obtain ⟨hwf', hvalue⟩ := ForestWF.foldl_absorb hwf (h _ mem_cons_self)
      obtain ⟨hlo, ht, hhi, hrest⟩ := forestWF_cons.mp hwf'
      obtain ⟨hforest, hvalues⟩ := ih hrest hcs
      simp only [filterMap_cons, RangeTree.collapse]
      refine ⟨forestWF_cons.mpr ⟨hlo, ht, hhi, hforest⟩, fun x => ?_⟩
      rw [flatten_cons, ← hvalue, forestValue_cons, forestValue_cons, hvalues]

/-! ### Normalizing -/

lemma hoist_realizes {s e : ℕ} {d : κ} {cs : List (RangeTree κ)} (h : (node s e d cs).WF) :
    Realizes s e (fun x => (node s e d cs).valueAt x) (hoist s e d cs) := by
  unfold hoist
  split
  · split_ifs with hr
    · obtain ⟨hs, he⟩ := hr
      have hchild := ((wf_node.mp h).2.mem mem_cons_self).2.1
      refine ⟨hchild.addDelta d, by simpa using hs, by simpa using he, fun x => ?_⟩
      rw [valueAt_addDelta, valueAt_node, hs, he]
      simp
    · exact ⟨h, rfl, rfl, fun _ => rfl⟩
  · exact ⟨h, rfl, rfl, fun _ => rfl⟩

/-- Trees replaced by others of the same ranges and values. -/
lemma ForestWF.map_realizes {f : RangeTree κ → RangeTree κ} (hwf : ForestWF lo hi ts)
    (hf : ∀ t : RangeTree κ, t.WF → Realizes t.start t.stop (fun x => t.valueAt x) (f t)) :
    ForestWF lo hi (ts.map f) ∧ ∀ x, forestValue x (ts.map f) = forestValue x ts := by
  induction ts generalizing lo with
  | nil => simp
  | cons t ts ih =>
    obtain ⟨hlo, ht, hhi, hts⟩ := forestWF_cons.mp hwf
    obtain ⟨hwf', hs, he, hvalue⟩ := hf t ht
    obtain ⟨hforest, hvalues⟩ := ih hts
    rw [map_cons]
    refine ⟨forestWF_cons.mpr ⟨hs ▸ hlo, hwf', he ▸ hhi, he ▸ hforest⟩, fun x => ?_⟩
    rw [forestValue_cons, forestValue_cons, hvalue, hvalues]

variable [DecidableEq κ]

/-- Normalizing to any depth keeps the range and the values of a tree. -/
theorem normalizeTo_realizes (n : ℕ) (h : t.WF) :
    Realizes t.start t.stop (fun x => t.valueAt x) (normalizeTo n t) := by
  induction n generalizing t with
  | zero => exact ⟨h, rfl, rfl, fun _ => rfl⟩
  | succ n ih =>
    obtain ⟨s, e, d, cs⟩ := t
    obtain ⟨hlt, hcs⟩ := wf_node.mp h
    have hflat := flatten_chains [] cs
    rw [nil_append] at hflat
    obtain ⟨hwf₁, hvalue₁⟩ := ForestWF.collapse (hflat.symm ▸ hcs) (isChain_chains isChain_nil cs)
    obtain ⟨hwf₂, hvalue₂⟩ := hwf₁.map_realizes fun u hu => ih hu
    rw [normalizeTo]
    obtain ⟨hwf, hs, he, hvalue⟩ := hoist_realizes (wf_node.mpr ⟨hlt, hwf₂⟩)
    refine ⟨hwf, hs, he, fun x => ?_⟩
    rw [hvalue, valueAt_node, valueAt_node, hvalue₂, hvalue₁, hflat]

/-! ### The depth is enough -/

omit [DecidableEq κ] in
lemma forestDepth_map_addDelta (d : κ) (ts : List (RangeTree κ)) :
    forestDepth (ts.map (addDelta d)) = forestDepth ts := by
  induction ts with
  | nil => rfl
  | cons t ts ih => simp [ih, depth_eq]

omit [DecidableEq κ] in
lemma depth_absorb (a b : RangeTree κ) : (absorb a b).depth = max a.depth b.depth := by
  rw [depth_eq, depth_eq, depth_eq, absorb, children_node, forestDepth_append,
    forestDepth_map_addDelta, Nat.add_max_add_right]

omit [DecidableEq κ] in
lemma depth_foldl_absorb (chain : List (RangeTree κ)) (head : RangeTree κ) :
    (chain.foldl absorb head).depth = forestDepth (head :: chain) := by
  induction chain generalizing head with
  | nil => simp
  | cons t chain ih => simp [ih, depth_absorb, max_assoc]

omit [DecidableEq κ] in
lemma forestDepth_collapse (cs : List (List (RangeTree κ))) :
    forestDepth (cs.filterMap collapse) = forestDepth cs.flatten := by
  induction cs with
  | nil => rfl
  | cons c cs ih =>
    cases c with
    | nil => exact ih
    | cons t c =>
      rw [filterMap_cons, collapse, flatten_cons, forestDepth_append, forestDepth_cons,
        depth_foldl_absorb, ih]

/-- Beyond the depth of the tree the bound does not matter. -/
lemma normalizeTo_of_le {n m : ℕ} (hn : t.depth ≤ n) (hm : t.depth ≤ m) :
    normalizeTo n t = normalizeTo m t := by
  induction n generalizing m t with
  | zero =>
    rw [depth_eq] at hn
    omega
  | succ n ih =>
    obtain ⟨s, e, d, cs⟩ := t
    rw [depth_eq, children_node] at hn hm
    cases m with
    | zero => omega
    | succ m =>
      rw [normalizeTo]
      congr 1
      refine map_congr_left fun u hu => ?_
      have hu' := depth_le_forestDepth hu
      rw [forestDepth_collapse, flatten_chains, nil_append] at hu'
      exact ih (by omega) (by omega)

/-- `normalize` as the source defines it: the chains of the children are joined and normalized. -/
theorem normalize_node (s e : ℕ) (d : κ) (cs : List (RangeTree κ)) : normalize (node s e d cs) =
      hoist s e d (((chains [] cs).filterMap collapse).map normalize) := by
  rw [normalize, depth_eq, normalizeTo]
  congr 1
  refine map_congr_left fun u hu => ?_
  have hu' := depth_le_forestDepth hu
  rw [forestDepth_collapse, flatten_chains] at hu'
  exact normalizeTo_of_le hu' le_rfl

end Deno.RangeTree
