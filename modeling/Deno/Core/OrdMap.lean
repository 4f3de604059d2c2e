import Mathlib.Data.List.Sort
import Mathlib.Data.List.Perm.Basic

/-!
# Ordered sets and ordered maps of lists

Sets and maps that are kept, and iterated, in the order of their keys. A map collects under each
key the values pushed there, in the order in which they came; `group` collects a whole list. What
`group` yields is determined by the keys that occur and, for each of them, by the values paired
with it.
-/

namespace Core

open List

/-! ### Sets -/

structure OrdSet (K : Type*) [LinearOrder K] where
  elems : List K
  sorted : elems.Pairwise (· < ·)

section

variable {K : Type*} [LinearOrder K]

def insertKey (k : K) : List K → List K
  | [] => [k]
  | k' :: ks =>
    if k < k' then k :: k' :: ks
    else if k = k' then k' :: ks
    else k' :: insertKey k ks

variable {ks : List K}

@[simp] lemma mem_insertKey {k k' : K} : k' ∈ insertKey k ks ↔ k' = k ∨ k' ∈ ks := by
  induction ks with
  | nil => simp [insertKey]
  | cons k'' ks ih =>
    unfold insertKey
    split_ifs with hlt heq
    · simp
    · subst heq
      simp
    · simp only [mem_cons, ih]
      tauto

lemma pairwise_insertKey (k : K) (h : ks.Pairwise (· < ·)) : (insertKey k ks).Pairwise (· < ·) := by
  induction ks with
  | nil => simp [insertKey]
  | cons k' ks ih =>
    obtain ⟨hhead, htail⟩ := List.pairwise_cons.mp h
    unfold insertKey
    split_ifs with hlt heq
    · refine List.pairwise_cons.mpr ⟨List.forall_mem_cons.mpr ⟨hlt, fun a ha => ?_⟩, h⟩
      exact hlt.trans (hhead a ha)
    · exact h
    · refine List.pairwise_cons.mpr ⟨fun a ha => ?_, ih htail⟩
      rcases mem_insertKey.mp ha with rfl | ha
      · exact lt_of_le_of_ne (not_lt.mp hlt) (Ne.symm heq)
      · exact hhead a ha

lemma eq_of_pairwise_of_mem_iff {α : Type*} (f : α → K) {l l' : List α}
    (h : l.Pairwise (f · < f ·)) (h' : l'.Pairwise (f · < f ·)) (hmem : ∀ a, a ∈ l ↔ a ∈ l') :
    l = l' := by
  have hperm : l.Perm l' := by
    refine (perm_ext_iff_of_nodup ?_ ?_).mpr hmem
    · exact h.imp fun hab heq => hab.ne (congrArg f heq)
    · exact h'.imp fun hab heq => hab.ne (congrArg f heq)
  exact hperm.eq_of_pairwise (fun a b _ _ hab hba => absurd hab hba.asymm) h h'

/-- A list that ascends with the keys of its members is put together from its parts, taken in the
order of the keys. -/
lemma flatMap_filter_eq {α : Type*} (f : α → K) (hks : ks.Pairwise (· < ·))
    {l : List α} (hl : l.Pairwise fun a b => f a < f b) (hmem : ∀ a ∈ l, f a ∈ ks) :
    (ks.flatMap fun k => l.filter fun a => f a = k) = l := by
  refine eq_of_pairwise_of_mem_iff f ?_ hl fun a => ?_
  · refine pairwise_flatMap.mpr ⟨fun k _ => hl.filter _, hks.imp ?_⟩
    intro k k' hlt a ha b hb
    rw [mem_filter, decide_eq_true_eq] at ha hb
    rwa [ha.2, hb.2]
  · simpa using hmem a

end

namespace OrdSet

variable {K : Type*} [LinearOrder K]

instance : Membership K (OrdSet K) := ⟨fun s k => k ∈ s.elems⟩

def empty : OrdSet K := ⟨[], List.Pairwise.nil⟩

def insert (s : OrdSet K) (k : K) : OrdSet K := ⟨insertKey k s.elems, pairwise_insertKey k s.sorted⟩

def ofList (ks : List K) : OrdSet K := ks.foldl insert empty

@[simp] lemma mem_ofList {ks : List K} {k : K} : k ∈ (ofList ks).elems ↔ k ∈ ks := by
  have hfold : ∀ (s : OrdSet K), k ∈ (ks.foldl insert s).elems ↔ k ∈ ks ∨ k ∈ s.elems := by
    induction ks with
    | nil => simp
    | cons k' ks ih =>
      intro s
      rw [foldl_cons, ih, mem_cons]
      simp only [insert, mem_insertKey]
      tauto
  rw [ofList, hfold empty]
  simp [empty]

end OrdSet

/-! ### Maps -/

/-- A map from keys to lists of values, in the order of the keys. -/
structure OrdMap (K V : Type*) [LinearOrder K] where
  entries : List (K × List V)
  sorted : (entries.map Prod.fst).Pairwise (· < ·)

section

variable {K V : Type*} [LinearOrder K]

def pushEntry (k : K) (v : V) : List (K × List V) → List (K × List V)
  | [] => [(k, [v])]
  | (k', vs) :: m =>
    if k < k' then (k, [v]) :: (k', vs) :: m
    else if k = k' then (k', vs ++ [v]) :: m
    else (k', vs) :: pushEntry k v m

def valuesAt (k : K) : List (K × List V) → List V
  | [] => []
  | (k', vs) :: m => if k = k' then vs else valuesAt k m

lemma map_fst_pushEntry (k : K) (v : V) (m : List (K × List V)) :
    (pushEntry k v m).map Prod.fst = insertKey k (m.map Prod.fst) := by
  induction m with
  | nil => rfl
  | cons e m ih =>
    unfold pushEntry
    split_ifs with hlt heq
    · simp [insertKey, hlt]
    · simp [insertKey, heq]
    · simp [insertKey, hlt, heq, ih]

variable {m : List (K × List V)}

lemma valuesAt_of_not_mem {k : K} (h : ¬ k ∈ m.map Prod.fst) : valuesAt k m = [] := by
  induction m with
  | nil => rfl
  | cons e m ih =>
    rw [map_cons, mem_cons, not_or] at h
    rw [valuesAt, if_neg h.1, ih h.2]

lemma valuesAt_pushEntry (h : (m.map Prod.fst).Pairwise (· < ·)) (k k' : K)
    (v : V) : valuesAt k' (pushEntry k v m) =
      if k' = k then valuesAt k m ++ [v] else valuesAt k' m := by
  induction m with
  | nil => simp [pushEntry, valuesAt]
  | cons e m ih =>
    obtain ⟨hhead, htail⟩ := List.pairwise_cons.mp h
    by_cases hlt : k < e.1
    · -- the key is smaller than all others, so it had no values
      have hnot : ¬ k ∈ (e :: m).map Prod.fst := by
        intro hmem
        rcases List.mem_cons.mp hmem with rfl | hmem
        · exact lt_irrefl _ hlt
        · exact lt_irrefl _ (hlt.trans (hhead k hmem))
      rw [pushEntry, if_pos hlt, valuesAt, valuesAt_of_not_mem hnot, nil_append]
    · by_cases heq : k = e.1
      · rw [pushEntry]
        by_cases hk : k' = k
        · simp [valuesAt, heq, hk]
        · rw [heq] at hk
          simp [valuesAt, heq, hk]
      · rw [pushEntry, if_neg hlt, if_neg heq, valuesAt, ih htail]
        by_cases hk : k' = k
        · simp [valuesAt, heq, hk]
        · simp [valuesAt, hk]

lemma eq_map_valuesAt (h : (m.map Prod.fst).Pairwise (· < ·)) :
    m = (m.map Prod.fst).map fun k => (k, valuesAt k m) := by
  induction m with
  | nil => rfl
  | cons e m ih =>
    obtain ⟨hhead, htail⟩ := List.pairwise_cons.mp h
    have hrest : (m.map Prod.fst).map (fun k => (k, valuesAt k (e :: m))) =
        (m.map Prod.fst).map fun k => (k, valuesAt k m) := by
      refine map_congr_left fun k hk => ?_
      rw [valuesAt, if_neg (hhead k hk).ne']
    rw [map_cons, map_cons, hrest, ← ih htail, valuesAt, if_pos rfl]

end

namespace OrdMap

variable {K V : Type*} [LinearOrder K]

def empty : OrdMap K V := ⟨[], List.Pairwise.nil⟩

def push (m : OrdMap K V) (k : K) (v : V) : OrdMap K V :=
  ⟨pushEntry k v m.entries, by
    rw [map_fst_pushEntry]
    exact pairwise_insertKey k m.sorted⟩

def group (l : List (K × V)) : OrdMap K V := l.foldl (fun m p => m.push p.1 p.2) empty

def keys (m : OrdMap K V) : List K := m.entries.map Prod.fst

def get (m : OrdMap K V) (k : K) : List V := valuesAt k m.entries

def paired (l : List (K × V)) (k : K) : List V := (l.filter fun p => p.1 = k).map Prod.snd

lemma mem_keys_push {m : OrdMap K V} {k k' : K} {v : V} :
    k' ∈ (m.push k v).keys ↔ k' = k ∨ k' ∈ m.keys := by
  rw [keys, push, map_fst_pushEntry, mem_insertKey]
  rfl

@[simp] lemma mem_keys_group {l : List (K × V)} {k : K} :
    k ∈ (group l).keys ↔ k ∈ l.map Prod.fst := by
  have hfold : ∀ m : OrdMap K V,
      k ∈ (l.foldl (fun m p => m.push p.1 p.2) m).keys ↔ k ∈ l.map Prod.fst ∨ k ∈ m.keys := by
    induction l with
    | nil => simp
    | cons p l ih =>
      intro m
      rw [foldl_cons, ih, map_cons, mem_cons, mem_keys_push]
      tauto
  rw [group, hfold empty]
  simp [empty, keys]

lemma get_group (l : List (K × V)) (k : K) : (group l).get k = paired l k := by
  have hfold : ∀ m : OrdMap K V,
      (l.foldl (fun m p => m.push p.1 p.2) m).get k = m.get k ++ paired l k := by
    induction l with
    | nil => simp [paired]
    | cons p l ih =>
      intro m
      rw [foldl_cons, ih, get, push, valuesAt_pushEntry m.sorted]
      by_cases hk : k = p.1
      · simp [paired, get, hk]
      · simp [paired, get, hk, Ne.symm hk]
  rw [group, hfold empty]
  simp [empty, get, valuesAt]

/-- Grouping lists the keys that occur, in order, each with the values paired with it. -/
theorem group_entries (l : List (K × V)) :
    (group l).entries = (group l).keys.map fun k => (k, paired l k) := by
  refine (eq_map_valuesAt (group l).sorted).trans (map_congr_left fun k _ => ?_)
  rw [← get_group]
  rfl

lemma pairwise_keys (m : OrdMap K V) : m.keys.Pairwise (· < ·) := m.sorted

variable {l l' : List (K × V)}

/-- Grouping the same pairs in another order only reorders the values of each key. -/
theorem group_perm (h : l.Perm l') :
    List.Forall₂ (fun e e' => e.1 = e'.1 ∧ e.2.Perm e'.2) (group l).entries (group l').entries := by
  have hkeys : (group l).keys = (group l').keys :=
    eq_of_pairwise_of_mem_iff id (pairwise_keys _) (pairwise_keys _) fun k => by
      rw [mem_keys_group, mem_keys_group, (h.map Prod.fst).mem_iff]
  rw [group_entries, group_entries, ← hkeys, forall₂_map_left_iff, forall₂_map_right_iff]
  exact List.forall₂_same.mpr fun k _ => ⟨rfl, (h.filter _).map _⟩

lemma mem_of_mem_group {l : List (K × V)} {e : K × List V} (he : e ∈ (group l).entries) :
    e.2 ≠ [] ∧ ∀ v ∈ e.2, (e.1, v) ∈ l := by
  rw [group_entries] at he
  obtain ⟨k, hk, rfl⟩ := List.mem_map.mp he
  refine ⟨?_, fun v hv => ?_⟩
  · obtain ⟨p, hp, rfl⟩ := List.mem_map.mp (mem_keys_group.mp hk)
    exact ne_nil_of_mem (mem_map_of_mem (List.mem_filter.mpr ⟨hp, by simp⟩))
  · obtain ⟨p, hp, rfl⟩ := List.mem_map.mp hv
    obtain ⟨hmem, hkey⟩ := List.mem_filter.mp hp
    rwa [← (by simpa using hkey : p.1 = k)]

end OrdMap

end Core
