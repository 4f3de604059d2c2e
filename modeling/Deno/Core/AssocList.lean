import Mathlib.Data.List.Nodup

/-!
# Maps as lists of entries

`List.lookup` finds the first entry of a key. Where the keys are distinct, it finds every entry.
-/

namespace Core

variable {Key Value : Type*} {map : List (Key × Value)} {key : Key}

lemma eq_of_mem_of_nodup (h : (map.map Prod.fst).Nodup) {value value' : Value}
    (hmem : (key, value) ∈ map) (hmem' : (key, value') ∈ map) : value = value' :=
  congrArg Prod.snd (List.inj_on_of_nodup_map h hmem hmem' rfl)

variable [BEq Key] [LawfulBEq Key]

lemma mem_of_lookup {value : Value} (h : map.lookup key = some value) : (key, value) ∈ map := by
  induction map with
  | nil => cases h
  | cons entry map ih =>
    rw [List.lookup_cons] at h
    split at h
    · next heq =>
      obtain rfl := Option.some.inj h
      exact (beq_iff_eq.mp heq) ▸ List.mem_cons_self
    · exact List.mem_cons_of_mem _ (ih h)

lemma lookup_cons_if [DecidableEq Key] (k key : Key) (value : Value) (map : List (Key × Value)) :
    ((k, value) :: map).lookup key = if key = k then some value else map.lookup key := by
  rw [List.lookup_cons]
  split_ifs with h
  · simp [h]
  · rw [beq_false_of_ne h]

lemma lookup_of_mem (h : (map.map Prod.fst).Nodup) {value : Value}
    (hmem : (key, value) ∈ map) : map.lookup key = some value := by
  cases hlookup : map.lookup key with
  | none =>
    rw [List.lookup_eq_none_iff] at hlookup
    simpa using hlookup _ hmem
  | some value' => rw [eq_of_mem_of_nodup h (mem_of_lookup hlookup) hmem]

lemma lookup_eq_none_iff_notMem : map.lookup key = none ↔ key ∉ map.map Prod.fst := by
  simp only [List.lookup_eq_none_iff, List.mem_map, not_exists, not_and, bne_iff_ne, ne_eq]
  exact ⟨fun h entry hmem heq => h entry hmem heq.symm,
    fun h entry hmem heq => h entry hmem heq.symm⟩

end Core
