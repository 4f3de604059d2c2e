import Deno.Coverage.RangeTree
import Mathlib.Order.Nat

/-!
# Well-formed forests and their values

A forest is well formed between two offsets if its trees follow one another there, without
overlap, and each of them is well formed itself. The value of a forest at an offset is the sum of
the differences of all nodes around it, which is the count at that offset. Cutting a forest
distributes its value to the two sides.
-/

namespace Deno.RangeTree

open List

variable {κ : Type}

/-! ### Well-formedness -/

mutual

/-- A tree with a proper range, whose children follow one another inside. -/
def WF : RangeTree κ → Prop
  | .node s e _ cs => s < e ∧ ForestWF s e cs

/-- Well-formed trees that follow one another between two offsets. -/
def ForestWF : ℕ → ℕ → List (RangeTree κ) → Prop
  | _, _, [] => True
  | lo, hi, t :: ts => lo ≤ t.start ∧ WF t ∧ t.stop ≤ hi ∧ ForestWF t.stop hi ts

end

@[simp] lemma wf_node {s e : ℕ} {d : κ} {cs : List (RangeTree κ)} :
    (node s e d cs).WF ↔ s < e ∧ ForestWF s e cs := by
  rw [WF]

variable {lo hi : ℕ}

@[simp] lemma forestWF_nil : ForestWF lo hi ([] : List (RangeTree κ)) := by
  trivial

variable {ts : List (RangeTree κ)} {t : RangeTree κ}

@[simp] lemma forestWF_cons :
    ForestWF lo hi (t :: ts) ↔ lo ≤ t.start ∧ t.WF ∧ t.stop ≤ hi ∧ ForestWF t.stop hi ts := by
  rw [ForestWF]

lemma WF.lt (h : t.WF) : t.start < t.stop := by
  cases t
  exact (wf_node.mp h).1

lemma WF.children (h : t.WF) : ForestWF t.start t.stop t.children := by
  cases t
  exact (wf_node.mp h).2

/-- Every tree lies between the offsets, and each one ends before the next one starts. -/
lemma forestWF_iff : ForestWF lo hi ts ↔ (∀ t ∈ ts, lo ≤ t.start ∧ t.WF ∧ t.stop ≤ hi) ∧
      ts.Pairwise fun a b => a.stop ≤ b.start := by
  induction ts generalizing lo with
  | nil => simp
  | cons t ts ih =>
    rw [forestWF_cons, pairwise_cons, ih]
    constructor
    · rintro ⟨hlo, ht, hhi, hts, hpair⟩
      refine ⟨List.forall_mem_cons.mpr ⟨⟨hlo, ht, hhi⟩, fun u hu => ?_⟩, fun u hu => (hts u hu).1,
        hpair⟩
      exact ⟨(hlo.trans ht.lt.le).trans (hts u hu).1, (hts u hu).2⟩
    · rintro ⟨hall, hnext, hpair⟩
      obtain ⟨hlo, ht, hhi⟩ := hall t mem_cons_self
      refine ⟨hlo, ht, hhi, fun u hu => ?_, hpair⟩
      exact ⟨hnext u hu, (hall u (mem_cons_of_mem t hu)).2⟩

section

variable {lo hi : ℕ} {ts us : List (RangeTree κ)}

section

variable (h : ForestWF lo hi ts)

include h

lemma ForestWF.mem {t : RangeTree κ} (ht : t ∈ ts) :
    lo ≤ t.start ∧ t.WF ∧ t.stop ≤ hi := (forestWF_iff.mp h).1 t ht

lemma ForestWF.pairwise : ts.Pairwise fun a b => a.stop ≤ b.start := (forestWF_iff.mp h).2

lemma ForestWF.pairwise_start : ts.Pairwise fun a b => a.start < b.start :=
  h.pairwise.imp_of_mem fun ha _ hab => (h.mem ha).2.1.lt.trans_le hab

lemma ForestWF.mono {lo' hi' : ℕ} (hlo : lo' ≤ lo) (hhi : hi ≤ hi') : ForestWF lo' hi' ts := by
  refine forestWF_iff.mpr ⟨fun t ht => ?_, h.pairwise⟩
  obtain ⟨h1, h2, h3⟩ := h.mem ht
  exact ⟨hlo.trans h1, h2, h3.trans hhi⟩

lemma ForestWF.sublist (hus : us.Sublist ts) : ForestWF lo hi us :=
  forestWF_iff.mpr ⟨fun _ hu => h.mem (hus.subset hu), h.pairwise.sublist hus⟩

end

lemma ForestWF.append {mid : ℕ} (h : ForestWF lo mid ts) (h' : ForestWF mid hi us)
    (hlo : lo ≤ mid) (hhi : mid ≤ hi) : ForestWF lo hi (ts ++ us) := by
  refine forestWF_iff.mpr ⟨fun t ht => ?_, ?_⟩
  · rcases List.mem_append.mp ht with ht | ht
    · exact (h.mono le_rfl hhi).mem ht
    · exact (h'.mono hlo le_rfl).mem ht
  · refine List.pairwise_append.mpr ⟨h.pairwise, h'.pairwise, fun a ha b hb => ?_⟩
    exact (h.mem ha).2.2.trans (h'.mem hb).1

/-- Of the trees of a forest only one starts at a given offset. -/
lemma ForestWF.eq_nil_or_eq_nil (h : ForestWF lo hi (ts ++ us)) {o : ℕ}
    (hts : ∀ t ∈ ts, t.start = o) (hus : ∀ u ∈ us, u.start = o) : ts = [] ∨ us = [] := by
  cases ts with
  | nil => exact Or.inl rfl
  | cons t ts =>
    cases us with
    | nil => exact Or.inr rfl
    | cons u us =>
      have hpair := (List.pairwise_append.mp h.pairwise).2.2 t mem_cons_self u mem_cons_self
      have ht := (h.mem (mem_append_left _ mem_cons_self : t ∈ t :: ts ++ u :: us)).2.1.lt
      rw [hts t mem_cons_self] at ht
      rw [hus u mem_cons_self] at hpair
      omega

end

/-! ### Cutting -/

/-- What lies in front of an offset. -/
def left (v : ℕ) (ts : List (RangeTree κ)) : List (RangeTree κ) := (splitChildren v ts).1

/-- What lies behind an offset. -/
def right (v : ℕ) (ts : List (RangeTree κ)) : List (RangeTree κ) := (splitChildren v ts).2

lemma split_node (v s e : ℕ) (d : κ) (cs : List (RangeTree κ)) :
    split v (node s e d cs) = (node s v d (left v cs), node v e d (right v cs)) := by
  rfl

/-- The part of a tree in front of an offset behind its start. -/
def leftPart (v : ℕ) (t : RangeTree κ) : RangeTree κ := if v < t.stop then (split v t).1 else t

section

variable (v : ℕ)

include v

@[simp] lemma left_nil : left v ([] : List (RangeTree κ)) = [] := by
  rw [left, splitChildren]

@[simp] lemma right_nil : right v ([] : List (RangeTree κ)) = [] := by
  rw [right, splitChildren]

lemma left_cons (t : RangeTree κ) (ts : List (RangeTree κ)) : left v (t :: ts) =
      if t.stop ≤ v then t :: left v ts
      else if v ≤ t.start then left v ts
      else (split v t).1 :: left v ts := by
  rw [left, splitChildren]
  split_ifs <;> rfl

lemma right_cons (t : RangeTree κ) (ts : List (RangeTree κ)) : right v (t :: ts) =
      if t.stop ≤ v then right v ts
      else if v ≤ t.start then t :: right v ts
      else (split v t).2 :: right v ts := by
  rw [right, splitChildren]
  split_ifs <;> rfl

lemma left_append (ts us : List (RangeTree κ)) : left v (ts ++ us) = left v ts ++ left v us := by
  induction ts with
  | nil => simp
  | cons t ts ih =>
    rw [cons_append, left_cons, left_cons, ih]
    split_ifs <;> rfl

lemma right_append (ts us : List (RangeTree κ)) :
    right v (ts ++ us) = right v ts ++ right v us := by
  induction ts with
  | nil => simp
  | cons t ts ih =>
    rw [cons_append, right_cons, right_cons, ih]
    split_ifs <;> rfl

section

variable (t : RangeTree κ)

@[simp] lemma split_fst_start : (split v t).1.start = t.start := by
  cases t
  rfl

@[simp] lemma split_fst_stop : (split v t).1.stop = v := by
  cases t
  rfl

@[simp] lemma split_snd_start : (split v t).2.start = v := by
  cases t
  rfl

@[simp] lemma split_snd_stop : (split v t).2.stop = t.stop := by
  cases t
  rfl

lemma leftPart_start : (leftPart v t).start = t.start := by
  unfold leftPart
  split_ifs
  · exact split_fst_start v t
  · rfl

end

end

lemma cut_of_le {lo hi v : ℕ} (h : ForestWF lo hi ts) (hv : v ≤ lo) :
    left v ts = [] ∧ right v ts = ts := by
  induction ts generalizing lo with
  | nil => simp
  | cons t ts ih =>
    obtain ⟨h1, ht, _, hts⟩ := forestWF_cons.mp h
    have hlt := ht.lt
    obtain ⟨hl, hr⟩ := ih hts (by omega)
    rw [left_cons, right_cons, if_neg (by omega), if_pos (by omega), if_neg (by omega),
      if_pos (by omega), hl, hr]
    exact ⟨rfl, rfl⟩

mutual

lemma split_wf (v : ℕ) : ∀ t : RangeTree κ, t.WF → t.start < v → v < t.stop →
    (split v t).1.WF ∧ (split v t).2.WF
  | .node s e d cs, h, hs, he => by
    obtain ⟨hlt, hcs⟩ := wf_node.mp h
    obtain ⟨hl, hr⟩ := cut_wf v cs hcs (Nat.le_of_lt hs) (Nat.le_of_lt he)
    exact ⟨wf_node.mpr ⟨hs, hl⟩, wf_node.mpr ⟨he, hr⟩⟩

lemma cut_wf (v : ℕ) : ∀ {lo hi : ℕ} (ts : List (RangeTree κ)), ForestWF lo hi ts →
    lo ≤ v → v ≤ hi → ForestWF lo v (left v ts) ∧ ForestWF v hi (right v ts)
  | lo, hi, [], _, _, _ => by simp
  | lo, hi, t :: ts, h, hlo, hhi => by
    obtain ⟨h1, ht, h3, hts⟩ := forestWF_cons.mp h
    rw [left_cons, right_cons]
    split_ifs with hstop hstart
    · obtain ⟨hl, hr⟩ := cut_wf v ts hts hstop hhi
      exact ⟨forestWF_cons.mpr ⟨h1, ht, hstop, hl⟩, hr⟩
    · -- everything behind the tree is behind the offset as well
      obtain ⟨hl, hr⟩ := cut_of_le hts (by omega : v ≤ t.stop)
      rw [hl, hr]
      exact ⟨forestWF_nil, forestWF_cons.mpr ⟨hstart, ht, h3, hts⟩⟩
    · obtain ⟨hl, hr⟩ := cut_of_le hts (by omega : v ≤ t.stop)
      obtain ⟨hwl, hwr⟩ := split_wf v t ht (by omega) (by omega)
      rw [hl, hr, forestWF_cons, forestWF_cons, split_fst_start, split_fst_stop, split_snd_start,
        split_snd_stop]
      exact ⟨⟨h1, hwl, le_rfl, forestWF_nil⟩, le_rfl, hwr, h3, hts⟩

end

/-! ### Values -/

section

variable [AddCommGroup κ]

mutual

/-- The sum of the differences of all nodes around an offset. -/
def valueAt (x : ℕ) : RangeTree κ → κ
  | .node s e d cs => if s ≤ x ∧ x < e then d + forestValue x cs else 0

def forestValue (x : ℕ) : List (RangeTree κ) → κ
  | [] => 0
  | t :: ts => valueAt x t + forestValue x ts

end

lemma valueAt_node (x s e : ℕ) (d : κ) (cs : List (RangeTree κ)) :
    valueAt x (node s e d cs) = if s ≤ x ∧ x < e then d + forestValue x cs else 0 := by
  rw [valueAt]

variable (x : ℕ)

lemma valueAt_eq (t : RangeTree κ) : t.valueAt x =
    if t.start ≤ x ∧ x < t.stop then t.delta + forestValue x t.children else 0 := by
  cases t
  rfl

@[simp] lemma forestValue_nil : forestValue x ([] : List (RangeTree κ)) = 0 := by
  rw [forestValue]

@[simp] lemma forestValue_cons (t : RangeTree κ) (ts : List (RangeTree κ)) :
    forestValue x (t :: ts) = t.valueAt x + forestValue x ts := by
  rw [forestValue]

lemma forestValue_append (ts us : List (RangeTree κ)) :
    forestValue x (ts ++ us) = forestValue x ts + forestValue x us := by
  induction ts with
  | nil => simp
  | cons t ts ih => simp [ih, add_assoc]

lemma valueAt_of_lt {x : ℕ} {t : RangeTree κ} (h : x < t.start) : t.valueAt x = 0 := by
  rw [valueAt_eq, if_neg (by omega)]

lemma valueAt_of_le {x : ℕ} {t : RangeTree κ} (h : t.stop ≤ x) : t.valueAt x = 0 := by
  rw [valueAt_eq, if_neg (by omega)]

lemma forestValue_of_outside {lo hi x : ℕ} {ts : List (RangeTree κ)} (h : ForestWF lo hi ts)
    (hx : ¬ (lo ≤ x ∧ x < hi)) : forestValue x ts = 0 := by
  induction ts generalizing lo with
  | nil => simp
  | cons t ts ih =>
    obtain ⟨h1, ht, h3, hts⟩ := forestWF_cons.mp h
    have hlt := ht.lt
    rw [forestValue_cons, ih hts (by omega), add_zero, valueAt_eq, if_neg (by omega)]

mutual

lemma valueAt_split (x v : ℕ) : ∀ t : RangeTree κ, t.start < v → v < t.stop →
    (split v t).1.valueAt x = (if x < v then t.valueAt x else 0) ∧
      (split v t).2.valueAt x = if x < v then 0 else t.valueAt x
  | .node s e d cs, hs, he => by
    simp only [start_node, stop_node] at hs he
    obtain ⟨hl, hr⟩ := forestValue_cut x v cs
    rw [split_node, valueAt_node, valueAt_node, valueAt_node, hl, hr]
    by_cases hx : x < v
    · refine ⟨?_, ?_⟩
      · rw [if_pos hx, if_pos hx]
        exact if_congr (by omega) rfl rfl
      · rw [if_neg (by omega : ¬ (v ≤ x ∧ x < e)), if_pos hx]
    · refine ⟨?_, ?_⟩
      · rw [if_neg (by omega : ¬ (s ≤ x ∧ x < v)), if_neg hx]
      · rw [if_neg hx, if_neg hx]
        exact if_congr (by omega) rfl rfl

lemma forestValue_cut (x v : ℕ) : ∀ ts : List (RangeTree κ),
    forestValue x (left v ts) = (if x < v then forestValue x ts else 0) ∧
      forestValue x (right v ts) = if x < v then 0 else forestValue x ts
  | [] => by simp
  | t :: ts => by
    obtain ⟨hl, hr⟩ := forestValue_cut x v ts
    rw [left_cons, right_cons]
    by_cases hx : x < v
    · rw [if_pos hx] at hl hr ⊢
      split_ifs with hstop hstart
      · simp [hl, hr]
      · simp [hl, hr, valueAt_of_lt (by omega : x < t.start)]
      · obtain ⟨hsl, hsr⟩ := valueAt_split x v t (by omega) (by omega)
        simp [hl, hr, hsl, hsr, hx]
    · rw [if_neg hx] at hl hr ⊢
      split_ifs with hstop hstart
      · simp [hl, hr, valueAt_of_le (by omega : t.stop ≤ x)]
      · simp [hl, hr]
      · obtain ⟨hsl, hsr⟩ := valueAt_split x v t (by omega) (by omega)
        simp [hl, hr, hsl, hsr, hx]

end

lemma forestValue_left_add_right (x v : ℕ) (ts : List (RangeTree κ)) :
    forestValue x (left v ts) + forestValue x (right v ts) = forestValue x ts := by
  obtain ⟨hl, hr⟩ := forestValue_cut x v ts
  rw [hl, hr]
  split_ifs <;> simp

/-- A well-formed tree of the given range with the given values. -/
structure Realizes (s e : ℕ) (value : ℕ → κ) (t : RangeTree κ) : Prop where
  wf : t.WF
  start_eq : t.start = s
  stop_eq : t.stop = e
  valueAt_eq : ∀ x, t.valueAt x = value x

end

/-! ### Depths -/

lemma depth_eq (t : RangeTree κ) : t.depth = forestDepth t.children + 1 := by
  cases t
  rfl

@[simp] lemma forestDepth_nil : forestDepth ([] : List (RangeTree κ)) = 0 := by
  rw [forestDepth]

@[simp] lemma forestDepth_cons (t : RangeTree κ) (ts : List (RangeTree κ)) :
    forestDepth (t :: ts) = max t.depth (forestDepth ts) := by
  rw [forestDepth]

lemma forestDepth_append (ts us : List (RangeTree κ)) :
    forestDepth (ts ++ us) = max (forestDepth ts) (forestDepth us) := by
  induction ts with
  | nil => simp
  | cons t ts ih => simp [ih, max_assoc]

lemma depth_le_forestDepth (h : t ∈ ts) : t.depth ≤ forestDepth ts := by
  induction ts with
  | nil => cases h
  | cons u ts ih =>
    rcases List.mem_cons.mp h with rfl | h
    · exact le_max_left _ _
    · exact (ih h).trans (le_max_right _ _)

mutual

lemma depth_split (v : ℕ) : ∀ t : RangeTree κ,
    (split v t).1.depth ≤ t.depth ∧ (split v t).2.depth ≤ t.depth
  | .node s e d cs => by
    obtain ⟨hl, hr⟩ := forestDepth_cut v cs
    rw [split_node, depth_eq, depth_eq, depth_eq]
    simp only [children_node]
    omega

lemma forestDepth_cut (v : ℕ) : ∀ ts : List (RangeTree κ),
    forestDepth (left v ts) ≤ forestDepth ts ∧ forestDepth (right v ts) ≤ forestDepth ts
  | [] => by simp
  | t :: ts => by
    obtain ⟨hl, hr⟩ := forestDepth_cut v ts
    obtain ⟨hsl, hsr⟩ := depth_split v t
    rw [left_cons, right_cons]
    split_ifs <;> simp only [forestDepth_cons] <;> omega

end

end Deno.RangeTree
