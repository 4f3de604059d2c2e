import Deno.Core.AssocList
import Deno.Core.JsString
import Deno.Core.StableSort

/-!
# Objects as maps

The properties of an object are kept in the order in which they were added. They are listed with
the array indices first, in the order of the numbers.
-/

namespace Core

open List

def isDigit (u : UInt16) : Bool := 0x30 ≤ u && u ≤ 0x39

def decimalValue (digits : JsString) : ℕ :=
  digits.foldl (fun n u => n * 10 + (u.toNat - 0x30)) 0

/-- The number of a key that is an array index. -/
def arrayIndex (key : JsString) : Option ℕ :=
  if key ≠ [] ∧ key.all isDigit ∧ (key.head? = some 0x30 → key.length = 1) ∧
      decimalValue key < 2 ^ 32 - 1 then
    some (decimalValue key)
  else none

/-- An object without a prototype. -/
structure JsObject (V : Type*) where
  /-- The properties in the order in which they were added. -/
  entries : List (JsString × V)
  nodup : (entries.map Prod.fst).Nodup

namespace JsObject

variable {V : Type*}

def order (entries : List (JsString × V)) : List (JsString × V) :=
  sortBy (fun e => (arrayIndex e.1).getD 0) (entries.filter fun e => (arrayIndex e.1).isSome) ++
    entries.filter fun e => (arrayIndex e.1).isNone

/-- `Object.keys`, with the value of each key. -/
def ownEntries (obj : JsObject V) : List (JsString × V) := order obj.entries

def empty : JsObject V := ⟨[], nodup_nil⟩

def get? (obj : JsObject V) (key : JsString) : Option V := obj.entries.lookup key

/-- The entries with a new value for a key: in its place, or at the end. -/
def setEntry (entries : List (JsString × V)) (key : JsString) (value : V) : List (JsString × V) :=
  if key ∈ entries.map Prod.fst then
    entries.map fun e => if e.1 = key then (key, value) else e
  else entries ++ [(key, value)]

variable {entries : List (JsString × V)} {key : JsString} {value value' : V}

lemma map_fst_setEntry (entries : List (JsString × V)) (key : JsString) (value : V) :
    (setEntry entries key value).map Prod.fst =
      if key ∈ entries.map Prod.fst then entries.map Prod.fst
      else entries.map Prod.fst ++ [key] := by
  unfold setEntry
  split_ifs with hmem
  · rw [map_map]
    refine map_congr_left fun e _ => ?_
    simp only [Function.comp_apply]
    split_ifs with he
    · exact he.symm
    · rfl
  · rw [map_append]
    rfl

lemma nodup_setEntry (h : (entries.map Prod.fst).Nodup) (key : JsString) (value : V) :
    ((setEntry entries key value).map Prod.fst).Nodup := by
  rw [map_fst_setEntry]
  split_ifs with hmem
  · exact h
  · rw [← concat_eq_append, nodup_concat]
    exact ⟨hmem, h⟩

def set (obj : JsObject V) (key : JsString) (value : V) : JsObject V :=
  ⟨setEntry obj.entries key value, nodup_setEntry obj.nodup key value⟩

section

variable (h : key ∉ entries.map Prod.fst)

include h

lemma setEntry_of_notMem : setEntry entries key value = entries ++ [(key, value)] := if_neg h

lemma setEntry_append :
    setEntry (entries ++ [(key, value)]) key value' = entries ++ [(key, value')] := by
  have hother : ∀ e ∈ entries, e.1 ≠ key := by
    rintro e he rfl
    exact h (mem_map_of_mem he)
  unfold setEntry
  rw [if_pos (by simp), map_append]
  congr 1
  · conv_rhs => rw [← map_id entries]
    exact map_congr_left fun e he => if_neg (hother e he)
  · simp

lemma lookup_append : (entries ++ [(key, value)]).lookup key = some value := by
  rw [List.lookup_append, lookup_eq_none_iff_notMem.mpr h]
  simp

end

lemma lookup_setEntry (entries : List (JsString × V)) (key key' : JsString) (value : V) :
    (setEntry entries key value).lookup key' =
      if key' = key then some value else entries.lookup key' := by
  by_cases h : key ∈ entries.map Prod.fst
  · rw [setEntry, if_pos h]
    by_cases hkey : key' = key
    · subst hkey
      induction entries with
      | nil => simp at h
      | cons e entries ih =>
        obtain ⟨k, v⟩ := e
        by_cases hk : k = key'
        · simp [hk]
        · have hrest : key' ∈ entries.map Prod.fst := by simpa [Ne.symm hk] using h
          simpa [hk, Ne.symm hk, lookup_cons_if] using ih hrest
    · rw [if_neg hkey]
      clear h
      induction entries with
      | nil => rfl
      | cons e entries ih =>
        obtain ⟨k, v⟩ := e
        by_cases hk : k = key
        · subst hk
          simpa [hkey, lookup_cons_if] using ih
        · simpa [hk, lookup_cons_if] using congrArg (if key' = k then some v else ·) ih
  · rw [setEntry_of_notMem h, List.lookup_append, lookup_cons_if]
    split_ifs with hkey'
    · rw [hkey', lookup_eq_none_iff_notMem.mpr h]
      rfl
    · simp

/-- Properties that were added in the order in which they are listed. -/
lemma order_append {indices names : List (JsString × V)}
    (hsorted : indices.Pairwise fun a b => (arrayIndex a.1).getD 0 ≤ (arrayIndex b.1).getD 0)
    (hindices : ∀ e ∈ indices, (arrayIndex e.1).isSome)
    (hnames : ∀ e ∈ names, (arrayIndex e.1).isNone) :
    order (indices ++ names) = indices ++ names := by
  have hindices' : ∀ e ∈ indices, ¬(arrayIndex e.1).isNone := by
    intro e he
    simpa [Option.isSome_iff_ne_none] using hindices e he
  have hnames' : ∀ e ∈ names, ¬(arrayIndex e.1).isSome := by
    intro e he
    simpa using hnames e he
  rw [order, filter_append, filter_append, List.filter_eq_self.mpr hindices,
    List.filter_eq_nil_iff.mpr hnames', List.filter_eq_nil_iff.mpr hindices',
    List.filter_eq_self.mpr hnames, append_nil, nil_append, sortBy,
    mergeSort_of_pairwise (hsorted.imp decide_eq_true)]

lemma order_order (entries : List (JsString × V)) : order (order entries) = order entries := by
  refine order_append (pairwise_sortBy _ _) (fun e he => ?_) fun e he => ?_
  · rw [sortBy, mem_mergeSort, mem_filter] at he
    exact he.2
  · exact (List.mem_filter.mp he).2

lemma perm_order (entries : List (JsString × V)) : (order entries).Perm entries := by
  have hsplit := filter_append_perm (fun e : JsString × V => (arrayIndex e.1).isSome) entries
  refine ((mergeSort_perm _ _).append_right _).trans ?_
  simpa using hsplit

end JsObject

end Core
