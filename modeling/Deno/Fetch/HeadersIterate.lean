import Deno.Fetch.Headers
import Deno.Core.StableSort

/-!
# Iterating headers

The entries are combined in one pass over the list, with an object that maps the names to the
indices of their entries, and then sorted.
-/

namespace Deno.Fetch

open Core List

def setCookie : JsString := js "set-cookie"

section

variable (unsafeProto : Bool)

/-- What `{}[name]` is if `name` was not set: a property that every object inherits. The accessor
`__proto__` is there with `--unstable-unsafe-proto` only. -/
def inheritedProperties : List JsString :=
  (["constructor", "__defineGetter__", "__defineSetter__", "hasOwnProperty", "__lookupGetter__",
    "__lookupSetter__", "isPrototypeOf", "propertyIsEnumerable", "toString", "valueOf",
    "toLocaleString"] ++ if unsafeProto then ["__proto__"] else []).map js

/-- A property of the object of indices. -/
inductive SeenIndex where
  | undefined
  | own (index : ℕ)
  | inherited
  deriving DecidableEq

/-- The state of the pass: the indices of the names seen, and the entries. -/
structure Combining where
  seenHeaders : List (JsString × ℕ) := []
  entries : List Header := []
  deriving DecidableEq

def Combining.seenIndex (state : Combining) (name : JsString) : SeenIndex :=
  match state.seenHeaders.lookup name with
  | some index => .own index
  | none => if name ∈ inheritedProperties unsafeProto then .inherited else .undefined

def combineValue (entryValue value : JsString) : JsString :=
  if entryValue.length > 0 then entryValue ++ js ", " ++ value else value

def cannotRead : AnyError := typeError "Cannot read properties of undefined (reading '1')"

def Combining.step (state : Combining) (entry : Header) : Except AnyError Combining :=
  let name := byteLowerCase entry.1
  let value := entry.2
  if name = setCookie then .ok { state with entries := state.entries ++ [(name, value)] }
  else
    match state.seenIndex unsafeProto name with
    | .own index =>
      match state.entries[index]? with
      | some (seen, entryValue) =>
        .ok { state with entries := state.entries.set index (seen, combineValue entryValue value) }
      | none => .error cannotRead
    -- a function or an object is no index, so there is no entry
    | .inherited => .error cannotRead
    | .undefined =>
      .ok {
        seenHeaders := (name, state.entries.length) :: state.seenHeaders
        entries := state.entries ++ [(name, value)] }

/-- The entries in the order of their names, kept for headers that do not change. -/
def Headers.iterableHeaders (headers : Headers) : Except AnyError (List Header × Headers) := do
  if headers.guard = .immutable then
    if let some cache := headers.iterableHeadersCache then return (cache, headers)
  let state ← headers.headerList.foldlM (Combining.step unsafeProto) {}
  let entries := sortBy Prod.fst state.entries
  return (entries, { headers with iterableHeadersCache := some entries })

end

/-! ### What the iteration should yield -/

/-- The entries under a name: one, or one for each value if the name is that of a cookie. -/
def entriesUnder (combine : List JsString → Option JsString) (name : JsString)
    (values : List JsString) : List Header :=
  if name = setCookie then values.map (name, ·) else (combine values).toList.map (name, ·)

/-- The entries are sorted by name, and under each name they are what `get` returns. -/
structure IsIteration (values : JsString → List JsString) (entries : List Header) : Prop where
  sorted : entries.Pairwise fun a b => a.1 ≤ b.1
  under : ∀ name, (entries.filter fun e => e.1 = name) = entriesUnder joinValues name (values name)

/-! ### What the pass yields -/

/-- The values under a name as the pass combines them. -/
def recombine : List JsString → Option JsString
  | [] => none
  | value :: values => some (values.foldl combineValue value)

variable {values : List JsString} {v : JsString}

lemma recombine_append_singleton (h : recombine values = some v) (value : JsString) :
    recombine (values ++ [value]) = some (combineValue v value) := by
  cases values with
  | nil => cases h
  | cons first values =>
    cases h
    simp [recombine]

/-- A name the pass cannot store. -/
def Inherited (unsafeProto : Bool) (name : JsString) : Prop :=
  name ≠ setCookie ∧ name ∈ inheritedProperties unsafeProto

/-- What the pass has after a list: under each name its values as it combines them, and the index
of the entry of each name that is not the one of a cookie. -/
structure Combining.Holds (unsafeProto : Bool) (list : HeaderList) (state : Combining) : Prop where
  under : ∀ name, (state.entries.filter fun e => e.1 = name) =
    entriesUnder recombine name (valuesOf list name)
  index : ∀ name index, state.seenHeaders.lookup name = some index →
    ¬Inherited unsafeProto name ∧ name ≠ setCookie ∧ ∃ v, state.entries[index]? = some (name, v)
  seen : ∀ name, name ≠ setCookie → valuesOf list name ≠ [] →
    ∃ index, state.seenHeaders.lookup name = some index

namespace Combining

variable {unsafeProto : Bool} {list : HeaderList} {state : Combining} {entry : Header}

lemma holds_nil : Holds unsafeProto [] {} where
  under := by
    intro name
    by_cases h : name = setCookie
    · simp [entriesUnder, h, valuesOf]
    · simp [entriesUnder, h, valuesOf, recombine]
  index := nofun
  seen := fun name _ h => absurd rfl h

lemma valuesOf_snoc (name : JsString) : valuesOf (list ++ [entry]) name =
      if name = byteLowerCase entry.1 then valuesOf list name ++ [entry.2] else valuesOf list name := by
  rw [valuesOf_append_singleton rfl, Function.update_apply]
  split_ifs with h
  · rw [h]
  · rfl

lemma filter_push (h : Holds unsafeProto list state)
    (hnew : byteLowerCase entry.1 = setCookie ∨ valuesOf list (byteLowerCase entry.1) = [])
    (name : JsString) :
    ((state.entries ++ [(byteLowerCase entry.1, entry.2)]).filter fun e => e.1 = name) =
      entriesUnder recombine name (valuesOf (list ++ [entry]) name) := by
  rw [filter_append, h.under, valuesOf_snoc]
  by_cases hname : name = byteLowerCase entry.1
  · subst hname
    rcases hnew with hcookie | hempty
    · simp [entriesUnder, hcookie]
    · by_cases hcookie : byteLowerCase entry.1 = setCookie
      · simp [entriesUnder, hcookie]
      · simp [entriesUnder, hcookie, hempty, recombine]
  · simp [hname, Ne.symm hname]

variable {index : ℕ}

lemma filter_eq_of_index (h : Holds unsafeProto list state) {name v : JsString}
    (hname : name ≠ setCookie) (hentry : state.entries[index]? = some (name, v)) :
    (state.entries.filter fun e => e.1 = name) = [(name, v)] ∧
      recombine (valuesOf list name) = some v := by
  have hmem : (name, v) ∈ state.entries.filter fun e => e.1 = name :=
    List.mem_filter.mpr ⟨mem_of_getElem? hentry, decide_eq_true rfl⟩
  have hunder := h.under name
  rw [entriesUnder, if_neg hname] at hunder
  rw [hunder] at hmem ⊢
  cases hvalues : recombine (valuesOf list name) with
  | none =>
    rw [hvalues] at hmem
    cases hmem
  | some w =>
    rw [hvalues] at hmem
    simp only [Option.toList_some, map_cons, map_nil, mem_singleton,
      Prod.mk.injEq, true_and] at hmem
    rw [hmem]
    exact ⟨rfl, rfl⟩

variable {entries : List Header}

lemma filter_set {name v w : JsString} (hentry : entries[index]? = some (name, v))
    (hunder : (entries.filter fun e => e.1 = name) = [(name, v)]) (other : JsString) :
    ((entries.set index (name, w)).filter fun e => e.1 = other) =
      if other = name then [(name, w)] else entries.filter fun e => e.1 = other := by
  obtain ⟨hlt, hget⟩ := List.getElem?_eq_some_iff.mp hentry
  have hsplit : entries = entries.take index ++ (name, v) :: entries.drop (index + 1) := by
    rw [← hget, getElem_cons_drop, take_append_drop]
  rw [set_eq_take_append_cons_drop]
  split_ifs with hother
  · subst hother
    rw [hsplit] at hunder
    have hlength := congrArg List.length hunder
    simp only [filter_append, length_append, decide_true, filter_cons_of_pos,
      length_cons, length_nil] at hlength
    have hbefore : ((entries.take index).filter fun e => e.1 = other) = [] :=
      List.length_eq_zero_iff.mp (by omega)
    have hafter : ((entries.drop (index + 1)).filter fun e => e.1 = other) = [] :=
      List.length_eq_zero_iff.mp (by omega)
    rw [filter_append, hbefore, filter_cons_of_pos (by simp), hafter]
    rfl
  · conv_rhs => rw [hsplit]
    simp [Ne.symm hother]

lemma getElem?_push {e new : Header}
    (h : entries[index]? = some e) : (entries ++ [new])[index]? = some e := by
  rw [getElem?_append_left (List.getElem?_eq_some_iff.mp h).1, h]

variable (h : Holds unsafeProto list state)

include h

lemma Holds.cookie (hcookie : byteLowerCase entry.1 = setCookie) :
    Holds unsafeProto (list ++ [entry])
      { state with entries := state.entries ++ [(byteLowerCase entry.1, entry.2)] } where
  under := filter_push h (.inl hcookie)
  index := by
    intro name index hlookup
    obtain ⟨hinh, hname, v, hv⟩ := h.index name index hlookup
    exact ⟨hinh, hname, v, getElem?_push hv⟩
  seen := by
    intro name hname hvalues
    rw [valuesOf_snoc, if_neg (hcookie ▸ hname)] at hvalues
    exact h.seen name hname hvalues

lemma Holds.combine (hcookie : byteLowerCase entry.1 ≠ setCookie)
    (hlookup : state.seenHeaders.lookup (byteLowerCase entry.1) = some index)
    (hv : state.entries[index]? = some (byteLowerCase entry.1, v)) :
    Holds unsafeProto (list ++ [entry]) { state with
      entries := state.entries.set index (byteLowerCase entry.1, combineValue v entry.2) } where
  under := by
    intro name
    obtain ⟨hunder, hvalues⟩ := filter_eq_of_index h hcookie hv
    rw [filter_set hv hunder, valuesOf_snoc]
    split_ifs with hname
    · subst hname
      simp [entriesUnder, hcookie, recombine_append_singleton hvalues]
    · exact h.under name
  index := by
    intro name other hother
    obtain ⟨hnot, hname, w, hw⟩ := h.index name other hother
    refine ⟨hnot, hname, ?_⟩
    by_cases hsame : index = other
    · subst hsame
      rw [hv] at hw
      cases hw
      refine ⟨combineValue v entry.2, ?_⟩
      exact getElem?_set_self (List.getElem?_eq_some_iff.mp hv).1
    · exact ⟨w, by rw [getElem?_set_ne hsame, hw]⟩
  seen := by
    intro name hname hvalues
    rw [valuesOf_snoc] at hvalues
    split_ifs at hvalues with hsame
    · exact ⟨index, hsame ▸ hlookup⟩
    · exact h.seen name hname hvalues

lemma Holds.push (hinh : ¬Inherited unsafeProto (byteLowerCase entry.1))
    (hcookie : byteLowerCase entry.1 ≠ setCookie)
    (hlookup : state.seenHeaders.lookup (byteLowerCase entry.1) = none) :
    Holds unsafeProto (list ++ [entry]) {
      seenHeaders := (byteLowerCase entry.1, state.entries.length) :: state.seenHeaders
      entries := state.entries ++ [(byteLowerCase entry.1, entry.2)] } where
  under := by
    refine filter_push h (.inr ?_)
    by_contra hvalues
    obtain ⟨index, hindex⟩ := h.seen _ hcookie hvalues
    rw [hlookup] at hindex
    cases hindex
  index := by
    intro name index hother
    rw [List.lookup_cons] at hother
    split at hother
    · rename_i hname
      rw [beq_iff_eq] at hname
      cases hother
      subst hname
      exact ⟨hinh, hcookie, entry.2, getElem?_concat_length⟩
    · obtain ⟨hnot, hname, v, hv⟩ := h.index name index hother
      exact ⟨hnot, hname, v, getElem?_push hv⟩
  seen := by
    intro name hname hvalues
    rw [valuesOf_snoc] at hvalues
    rw [List.lookup_cons]
    split
    · exact ⟨_, rfl⟩
    · rename_i hne
      rw [beq_eq_false_iff_ne] at hne
      rw [if_neg hne] at hvalues
      exact h.seen name hname hvalues

/-- A step either cannot store the name, or keeps what the pass has. -/
lemma step_spec (entry : Header) : (Inherited unsafeProto (byteLowerCase entry.1) ∧
        state.step unsafeProto entry = .error cannotRead) ∨
      (¬Inherited unsafeProto (byteLowerCase entry.1) ∧
        ∃ state', state.step unsafeProto entry = .ok state' ∧
          Holds unsafeProto (list ++ [entry]) state') := by
  by_cases hcookie : byteLowerCase entry.1 = setCookie
  · exact .inr ⟨fun hinh => hinh.1 hcookie, _, if_pos hcookie, h.cookie hcookie⟩
  · cases hlookup : state.seenHeaders.lookup (byteLowerCase entry.1) with
    | some index =>
      obtain ⟨hinh, -, v, hv⟩ := h.index _ _ hlookup
      refine .inr ⟨hinh, _, ?_, h.combine hcookie hlookup hv⟩
      simp [step, hcookie, seenIndex, hlookup, hv]
    | none =>
      by_cases hmem : byteLowerCase entry.1 ∈ inheritedProperties unsafeProto
      · refine .inl ⟨⟨hcookie, hmem⟩, ?_⟩
        simp [step, hcookie, seenIndex, hlookup, hmem]
      · have hinh : ¬Inherited unsafeProto (byteLowerCase entry.1) := fun hinh => hmem hinh.2
        refine .inr ⟨hinh, _, ?_, h.push hinh hcookie hlookup⟩
        simp [step, hcookie, seenIndex, hlookup, hmem]

/-- The pass fails at a name it cannot store, and combines the values otherwise. -/
theorem foldlM_step (rest : HeaderList) :
    (∃ entry ∈ rest, Inherited unsafeProto (byteLowerCase entry.1)) ∧
        rest.foldlM (step unsafeProto) state = .error cannotRead ∨
      (∀ entry ∈ rest, ¬Inherited unsafeProto (byteLowerCase entry.1)) ∧
        ∃ state', rest.foldlM (step unsafeProto) state = .ok state' ∧
          Holds unsafeProto (list ++ rest) state' := by
  induction rest generalizing list state with
  | nil => exact .inr ⟨nofun, state, rfl, by rwa [append_nil]⟩
  | cons entry rest ih =>
    rw [foldlM_cons]
    rcases step_spec h entry with ⟨hinh, hstep⟩ | ⟨hinh, next, hstep, hnext⟩
    · rw [hstep]
      exact .inl ⟨⟨entry, mem_cons_self, hinh⟩, rfl⟩
    · rw [hstep]
      rcases ih hnext with ⟨⟨bad, hbad, hbadinh⟩, herror⟩ | ⟨hall, state', hok, hholds⟩
      · exact .inl ⟨⟨bad, mem_cons_of_mem _ hbad, hbadinh⟩, herror⟩
      · refine .inr ⟨List.forall_mem_cons.mpr ⟨hinh, hall⟩, state', hok, ?_⟩
        rwa [append_assoc] at hholds

end Combining

/-! ### The two ways of joining values -/

lemma intercalate_cons (sep v : JsString) (vs : List JsString) :
    sep.intercalate (v :: vs) = v ++ vs.flatMap (sep ++ ·) := by
  induction vs generalizing v with
  | nil => simp
  | cons w vs ih => rw [intercalate_cons_cons, ih]; simp

lemma foldl_combineValue (h : v ≠ []) (vs : List JsString) :
    vs.foldl combineValue v = v ++ vs.flatMap (js ", " ++ ·) := by
  induction vs generalizing v with
  | nil => simp
  | cons w vs ih =>
    have hcombine : combineValue v w = v ++ (js ", " ++ w) := by
      rw [combineValue, if_pos (List.length_pos_iff.mpr h), append_assoc]
    rw [foldl_cons, hcombine, ih (by simp [h]), flatMap_cons, append_assoc]

lemma length_foldl_combineValue_le (v : JsString) (vs : List JsString) :
    (vs.foldl combineValue v).length ≤ (v ++ vs.flatMap (js ", " ++ ·)).length := by
  induction vs generalizing v with
  | nil => simp
  | cons w vs ih =>
    have hcombine : (combineValue v w).length ≤ (v ++ js ", " ++ w).length := by
      rw [combineValue]
      split_ifs
      · exact Nat.le_refl _
      · rw [length_append]
        exact Nat.le_add_left _ _
    refine (ih _).trans ?_
    simp only [flatMap_cons, length_append] at hcombine ⊢
    omega

/-- The pass joins as `get` does, unless the first of several values is empty. -/
lemma recombine_eq_joinValues_iff :
    recombine values = joinValues values ↔ (2 ≤ values.length → values.head? ≠ some []) := by
  match values with
  | [] | [_] => simp [recombine, joinValues]
  | v :: w :: vs =>
    rw [recombine, joinValues, Option.some.injEq, intercalate_cons]
    swap
    · simp
    by_cases h : v = []
    · subst h
      have hle := length_foldl_combineValue_le w vs
      simp only [length_cons, head?_cons, ne_eq, not_true_eq_false, imp_false]
      refine iff_of_false (fun heq => ?_) (by omega)
      have hlength := congrArg List.length heq
      simp only [foldl_cons, combineValue, length_nil, lt_self_iff_false, if_false,
        flatMap_cons, nil_append, length_append] at hlength hle
      have hcomma : (js ", ").length = 2 := rfl
      omega
    · simp [h, foldl_combineValue h]

lemma entriesUnder_eq_iff {name : JsString} (h : name ≠ setCookie) :
    entriesUnder recombine name values = entriesUnder joinValues name values ↔
      (2 ≤ values.length → values.head? ≠ some []) := by
  rw [← recombine_eq_joinValues_iff, entriesUnder, entriesUnder, if_neg h, if_neg h]
  constructor
  · intro hmap
    have hlist := congrArg (List.map Prod.snd) hmap
    simpa [Function.comp_def] using congrArg List.head? hlist
  · intro heq
    rw [heq]

/-! ### Iterating after a run -/

namespace Headers

lemma mem_names_iff {list : HeaderList} {p : JsString → Prop} :
    (∃ entry ∈ list, p (byteLowerCase entry.1)) ↔ ∃ name, valuesOf list name ≠ [] ∧ p name := by
  constructor
  · rintro ⟨entry, hmem, hp⟩
    refine ⟨_, ?_, hp⟩
    simp only [valuesOf, ne_eq, map_eq_nil_iff, filter_eq_nil_iff, not_forall, not_not]
    exact ⟨entry, hmem, Header.hasName_iff.mpr rfl⟩
  · rintro ⟨name, hvalues, hp⟩
    simp only [valuesOf, ne_eq, map_eq_nil_iff, filter_eq_nil_iff, not_forall, not_not] at hvalues
    obtain ⟨entry, hmem, hname⟩ := hvalues
    exact ⟨entry, hmem, Header.hasName_iff.mp hname ▸ hp⟩

/-- Iterating over a list yields its entries, or fails at a name that every object inherits. -/
lemma iterableHeaders_spec {headers : Headers} (h : headers.guard = .none) (unsafeProto : Bool) :
    (∃ name, valuesOf headers.headerList name ≠ [] ∧ Inherited unsafeProto name) ∧
        headers.iterableHeaders unsafeProto = .error cannotRead ∨
      (∀ name, valuesOf headers.headerList name ≠ [] → ¬Inherited unsafeProto name) ∧
        ∃ entries headers', headers.iterableHeaders unsafeProto = .ok (entries, headers') ∧
          (entries.Pairwise fun a b => a.1 ≤ b.1) ∧
          ∀ name, (entries.filter fun e => e.1 = name) =
            entriesUnder recombine name (valuesOf headers.headerList name) := by
  have hiter : headers.iterableHeaders unsafeProto = (do
      let state ← headers.headerList.foldlM (Combining.step unsafeProto) {}
      let entries := sortBy Prod.fst state.entries
      return (entries, { headers with iterableHeadersCache := some entries })) := by
    simp [iterableHeaders, h]
  rcases Combining.foldlM_step Combining.holds_nil headers.headerList with
    ⟨hbad, herror⟩ | ⟨hall, state, hok, hholds⟩
  · refine .inl ⟨mem_names_iff.mp hbad, ?_⟩
    rw [hiter, herror]
    rfl
  · refine .inr ⟨?_, sortBy Prod.fst state.entries, { headers with
      iterableHeadersCache := some (sortBy Prod.fst state.entries) }, ?_, pairwise_sortBy _ _, ?_⟩
    · intro name hvalues hinh
      obtain ⟨entry, hmem, hentry⟩ := mem_names_iff.mpr ⟨name, hvalues, hinh⟩
      exact hall entry hmem hentry
    · rw [hiter, hok]
      rfl
    · intro name
      rw [filter_sortBy Prod.fst]
      exact hholds.under name

/-- Iterating over headers agrees with `get` after any valid calls, if no name is one that every
object inherits and no name has an empty value before others. -/
theorem iterableHeaders_iff (unsafeProto : Bool) (ops : List HeaderOp) :
    ∃ headers, run ops = .ok headers ∧ (∀ name : HeaderName,
        headers.get name.text = .ok (joinValues (insertedValues ops name.lower))) ∧
      ((∃ entries headers', headers.iterableHeaders unsafeProto = .ok (entries, headers') ∧
          IsIteration (insertedValues ops) entries) ↔
        ∀ name, name ≠ setCookie → insertedValues ops name ≠ [] →
          name ∉ inheritedProperties unsafeProto ∧
            (2 ≤ (insertedValues ops name).length → (insertedValues ops name).head? ≠ some [])) := by
  obtain ⟨headers, hrun, hguard, hvalues⟩ := run_eq_ok ops
  refine ⟨headers, hrun, fun name => hvalues ▸ headers.get_eq name, ?_⟩
  have hspec := iterableHeaders_spec hguard unsafeProto
  rw [hvalues] at hspec
  rcases hspec with ⟨⟨name, hname, hinh⟩, herror⟩ | ⟨hall, entries, headers', hok, hsorted, hunder⟩
  · constructor
    · rintro ⟨entries, headers', hok, -⟩
      rw [herror] at hok
      cases hok
    · intro hgood
      exact absurd hinh.2 (hgood name hinh.1 hname).1
  · constructor
    · rintro ⟨entries', headers'', hok', hiter⟩ name hcookie hname
      rw [hok] at hok'
      cases hok'
      refine ⟨fun hmem => hall name hname ⟨hcookie, hmem⟩, ?_⟩
      rw [← entriesUnder_eq_iff hcookie, ← hunder, hiter.under]
    · intro hgood
      refine ⟨entries, headers', hok, hsorted, fun name => ?_⟩
      rw [hunder]
      by_cases hcookie : name = setCookie
      · rw [entriesUnder, entriesUnder, if_pos hcookie, if_pos hcookie]
      · by_cases hname : insertedValues ops name = []
        · rw [hname]
          rfl
        · exact (entriesUnder_eq_iff hcookie).mpr (hgood name hcookie hname).2

/-- A header named `constructor` makes the iteration throw, and an empty value that another one
follows is lost. -/
theorem iterableHeaders_constructor_and_empty :
    (∃ headers, run [.append ⟨js "constructor", by decide⟩ ⟨js "1", by decide, by decide⟩] =
        .ok headers ∧ headers.iterableHeaders false = .error cannotRead) ∧
      ∃ headers headers', run [.append ⟨js "a", by decide⟩ ⟨[], by decide, by decide⟩,
          .append ⟨js "A", by decide⟩ ⟨js "x", by decide, by decide⟩] = .ok headers ∧
        headers.get (js "a") = .ok (some (js ", x")) ∧
        headers.iterableHeaders false = .ok ([(js "a", js "x")], headers') := by
  refine ⟨⟨{ headerList := [(js "constructor", js "1")] }, by decide, by decide⟩, ?_⟩
  have hpass : [(js "a", []), (js "a", js "x")].foldlM (Combining.step false) {} =
      .ok { seenHeaders := [(js "a", 0)], entries := [(js "a", js "x")] } := by decide
  refine ⟨{ headerList := [(js "a", []), (js "a", js "x")] }, {
    headerList := [(js "a", []), (js "a", js "x")]
    iterableHeadersCache := some [(js "a", js "x")] }, by decide, by decide, ?_⟩
  simp only [iterableHeaders, hpass]
  simp [sortBy]

end Headers

end Deno.Fetch
