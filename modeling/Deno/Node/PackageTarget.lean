import Deno.Node.PackageKeys

/-!
# Targets of package exports and imports

A target is a string, a list of targets to try, an object with a target for each condition, or
`null`. The code returns a URL, nothing, or an error; Node tells apart a target that is `null` from
one that is undefined, none of its conditions being active.
-/

namespace Deno

open Core

/-- A value of JSON. Numbers and booleans are kept as their texts; the entries of an object are in
their order, no key twice. -/
inductive JsonValue where
  | null
  | scalar (text : List Char)
  | str (text : List Char)
  | arr (items : List JsonValue)
  | obj (entries : List (List Char × JsonValue))

/-- Induction over the items and the entries. -/
@[elab_as_elim]
theorem JsonValue.ind {motive : JsonValue → Prop} (null : motive .null)
    (scalar : ∀ text, motive (.scalar text)) (str : ∀ text, motive (.str text))
    (arr : ∀ items, (∀ item ∈ items, motive item) → motive (.arr items))
    (obj : ∀ entries, (∀ entry ∈ entries, motive entry.2) → motive (.obj entries)) :
    ∀ value, motive value
  | .null => null
  | .scalar text => scalar text
  | .str text => str text
  | .arr items => arr items fun item _ => ind null scalar str arr obj item
  | .obj entries => obj entries fun ⟨key, value⟩ hmem => by
      have hlt := List.sizeOf_lt_of_mem hmem
      rw [Prod.mk.sizeOf_spec] at hlt
      have : sizeOf value < 1 + sizeOf entries := by omega
      exact ind null scalar str arr obj value

/-- Whether an error says that a target is invalid; the code looks at the beginning of its text. A
panic is no error to look at. -/
def AnyError.isInvalidTarget : AnyError → Bool
  | .custom _ message => "[ERR_INVALID_PACKAGE_TARGET]".toList.isPrefixOf message.toList
  | .msg text => "[ERR_INVALID_PACKAGE_TARGET]".toList.isPrefixOf text.toList
  | .io text => "[ERR_INVALID_PACKAGE_TARGET]".toList.isPrefixOf text.toList
  | .panic _ => false

inductive Resolution (Url : Type) where
  | url (url : Url)
  | null
  | undefined
  | failed (error : AnyError)

/-- What the code can say of a resolution: it has one value for `null` and undefined. -/
def Resolution.result {Url : Type} : Resolution Url → Except AnyError (Option Url)
  | .url u => .ok (some u)
  | .null => .ok none
  | .undefined => .ok none
  | .failed e => .error e

/-- Neither a URL nor an error. -/
def Resolution.NoTarget {Url : Type} : Resolution Url → Prop
  | .url _ => False
  | .null => True
  | .undefined => True
  | .failed _ => False

/-- What the resolution of targets is given: where and for whom, the conditions, the functions for
strings and declaration files, and the text of a value. -/
structure TargetEnv (Url : Type) where
  packageDir : Path
  subpath : List Char
  packageSubpath : List Char
  referrer : Referrer
  pattern : Bool
  internal : Bool
  conditions : List (List Char)
  mode : NodeResolutionMode
  resolvePackageTargetString : List Char → List Char → List Char → Bool → Bool → Except AnyError Url
  isFile : Url → Bool
  pathToDeclarationUrl : Url → Except AnyError (Option Url)
  toText : JsonValue → List Char

namespace TargetEnv

variable {Url : Type} (env : TargetEnv Url)

def isActive (key : List Char) : Bool :=
  key = "default".toList || env.conditions.contains key || env.mode.isTypes && key = "types".toList

/-- A string target. In the mode for types a file stands for its declarations. -/
def resolveString (target : List Char) : Except AnyError (Option Url) := do
  let url ← env.resolvePackageTargetString target env.subpath env.packageSubpath env.pattern
    env.internal
  if env.mode.isTypes && env.isFile url then env.pathToDeclarationUrl url
  else return some url

def invalidTarget (target : JsonValue) : AnyError :=
  throwInvalidPackageTarget env.packageSubpath (env.toText target) env.packageDir env.internal
    env.referrer

mutual

def resolvePackageTarget : JsonValue → Except AnyError (Option Url)
  | .str target => env.resolveString target
  | .arr items => resolveItems none items
  | .obj entries => do
      match ← resolveEntries entries with
      | some resolved => return some resolved
      | none => .error (env.invalidTarget (.obj entries))
  | .null => .ok none
  | .scalar text => .error (env.invalidTarget (.scalar text))

/-- The loop over the items of an array, with `last_error`. -/
def resolveItems (lastError : Option AnyError) : List JsonValue → Except AnyError (Option Url)
  | [] =>
    match lastError with
    | none => .ok none
    | some e => .error e
  | item :: rest =>
    match resolvePackageTarget item with
    | .ok (some resolved) => .ok (some resolved)
    | .ok none => resolveItems none rest
    | .error e => if e.isInvalidTarget then resolveItems (some e) rest else .error e

def resolveEntries : List (List Char × JsonValue) → Except AnyError (Option Url)
  | [] => .ok none
  | (key, target) :: rest =>
    if env.isActive key then
      match resolvePackageTarget target with
      | .ok (some resolved) => .ok (some resolved)
      | .ok none => resolveEntries rest
      | .error e => .error e
    else resolveEntries rest

end

/-! ### The rule of Node -/

mutual

/-- `PACKAGE_TARGET_RESOLVE`. -/
def packageTargetResolve : JsonValue → Resolution Url
  | .str target =>
    match env.resolveString target with
    | .ok (some url) => .url url
    | .ok none => .undefined
    | .error e => .failed e
  | .arr items => firstItem none items
  | .obj entries => firstEntry entries
  | .null => .null
  | .scalar text => .failed (env.invalidTarget (.scalar text))

/-- The first item that is neither invalid nor undefined nor `null`, else the last error or
`null`. -/
def firstItem (last : Option AnyError) : List JsonValue → Resolution Url
  | [] =>
    match last with
    | none => .null
    | some e => .failed e
  | item :: rest =>
    match packageTargetResolve item with
    | .url url => .url url
    | .null => firstItem none rest
    | .undefined => firstItem last rest
    | .failed e => if e.isInvalidTarget then firstItem (some e) rest else .failed e

/-- The first entry that is active and not undefined; `null` ends the search. -/
def firstEntry : List (List Char × JsonValue) → Resolution Url
  | [] => .undefined
  | (key, target) :: rest =>
    if env.isActive key then
      match packageTargetResolve target with
      | .undefined => firstEntry rest
      | resolution => resolution
    else firstEntry rest

end

/-- An item that the search goes on from. -/
def Passed (item : JsonValue) : Prop :=
  match env.packageTargetResolve item with
  | .url _ => False
  | .null => True
  | .undefined => True
  | .failed e => e.isInvalidTarget

/-- The items of an array that the search looks at. -/
inductive ReachesItem : List JsonValue → JsonValue → Prop where
  | head (item : JsonValue) (rest : List JsonValue) : ReachesItem (item :: rest) item
  | tail {item target : JsonValue} {rest : List JsonValue}
      (hpassed : env.Passed item) (h : ReachesItem rest target) : ReachesItem (item :: rest) target

/-- The targets of an object that the search looks at. -/
inductive ReachesEntry : List (List Char × JsonValue) → JsonValue → Prop where
  | head {key : List Char} (hactive : env.isActive key) (target : JsonValue)
      (rest : List (List Char × JsonValue)) : ReachesEntry ((key, target) :: rest) target
  | tail {key : List Char} {other target : JsonValue} {rest : List (List Char × JsonValue)}
      (hpassed : env.isActive key → env.packageTargetResolve other = .undefined)
      (h : ReachesEntry rest target) : ReachesEntry ((key, other) :: rest) target

/-- The targets that the search of Node comes to. -/
inductive Visits : JsonValue → JsonValue → Prop where
  | refl (target : JsonValue) : Visits target target
  | item {items : List JsonValue} {item target : JsonValue}
      (hitem : env.ReachesItem items item)
      (h : Visits item target) : Visits (.arr items) target
  | entry {entries : List (List Char × JsonValue)} {value target : JsonValue}
      (hentry : env.ReachesEntry entries value)
      (h : Visits value target) : Visits (.obj entries) target

variable {env} {target value item : JsonValue} {items : List JsonValue}
variable {entries : List (List Char × JsonValue)}

lemma Visits.trans (h : env.Visits target value) (h' : env.Visits value item) :
    env.Visits target item := by
  induction h with
  | refl _ => exact h'
  | item hitem _ ih => exact .item hitem (ih h')
  | entry hentry _ ih => exact .entry hentry (ih h')

lemma ReachesItem.mem (h : env.ReachesItem items item) : item ∈ items := by
  induction h with
  | head item rest => exact List.mem_cons_self
  | tail _ _ ih => exact List.mem_cons_of_mem _ ih

lemma ReachesEntry.exists_mem (h : env.ReachesEntry entries value) : ∃ key, (key, value) ∈ entries := by
  induction h with
  | head _ target rest => exact ⟨_, List.mem_cons_self⟩
  | tail _ _ ih =>
    obtain ⟨key, hmem⟩ := ih
    exact ⟨key, List.mem_cons_of_mem _ hmem⟩

/-! ### Comparing the two -/

/-- The code has no way to say that an object has no target. -/
lemma resolvePackageTarget_obj_ne_none (entries : List (List Char × JsonValue)) :
    env.resolvePackageTarget (.obj entries) ≠ .ok none := by
  rw [resolvePackageTarget]
  cases env.resolveEntries entries with
  | error e => exact nofun
  | ok resolved => cases resolved <;> exact nofun

variable (last : Option AnyError)

lemma firstItem_ne_undefined (items : List JsonValue) : env.firstItem last items ≠ .undefined := by
  induction items generalizing last with
  | nil => cases last <;> simp [firstItem]
  | cons item rest ih =>
    rw [firstItem]
    cases env.packageTargetResolve item with
    | url u => exact nofun
    | null => exact ih none
    | undefined => exact ih last
    | failed e =>
      dsimp only
      split_ifs
      · exact ih (some e)
      · exact nofun

/-- Only objects are undefined, as long as strings are not. -/
lemma exists_obj_of_undefined (hstring : ∀ text, env.resolveString text ≠ .ok none)
    (h : env.packageTargetResolve target = .undefined) : ∃ entries, target = .obj entries := by
  cases target with
  | null | scalar text => cases h
  | str text =>
    rw [packageTargetResolve] at h
    have := hstring text
    generalize env.resolveString text = result at h this
    match result with
    | .ok none => exact absurd rfl this
    | .ok (some _) | .error _ => cases h
  | arr items =>
    exact absurd h (firstItem_ne_undefined none items)
  | obj entries => exact ⟨entries, rfl⟩

lemma resolveItems_eq
    (h : ∀ item, env.ReachesItem items item → env.packageTargetResolve item ≠ .undefined ∧
      env.resolvePackageTarget item = (env.packageTargetResolve item).result) :
    env.resolveItems last items = (env.firstItem last items).result := by
  induction items generalizing last with
  | nil => cases last <;> rfl
  | cons item rest ih =>
    obtain ⟨hdefined, hitem⟩ := h item (.head item rest)
    have hrest (hpassed : env.Passed item) (last : Option AnyError) :
        env.resolveItems last rest = (env.firstItem last rest).result :=
      ih last fun item' hreaches => h item' (.tail hpassed hreaches)
    rw [Passed] at hrest
    rw [resolveItems, firstItem, hitem]
    cases hresolve : env.packageTargetResolve item with
    | url u => rfl
    | undefined => exact absurd hresolve hdefined
    | null =>
      rw [hresolve] at hrest
      exact hrest trivial none
    | failed e =>
      rw [hresolve] at hrest
      simp only [Resolution.result]
      split_ifs with hinvalid
      · exact hrest hinvalid (some e)
      · rfl

lemma resolveEntries_eq (htarget : ¬ (env.firstEntry entries).NoTarget)
    (h : ∀ value, env.ReachesEntry entries value →
      env.resolvePackageTarget value = (env.packageTargetResolve value).result) :
    env.resolveEntries entries = (env.firstEntry entries).result := by
  induction entries with
  | nil => exact absurd trivial htarget
  | cons entry rest ih =>
    obtain ⟨key, value⟩ := entry
    rw [firstEntry] at htarget
    rw [resolveEntries, firstEntry]
    split_ifs at htarget ⊢ with hactive
    · rw [h value (.head hactive value rest)]
      cases hresolve : env.packageTargetResolve value with
      | url u | failed e => rfl
      | null =>
        rw [hresolve] at htarget
        exact absurd trivial htarget
      | undefined =>
        rw [hresolve] at htarget
        exact ih htarget fun value' hreaches => h value' (.tail (fun _ => hresolve) hreaches)
    · exact ih htarget fun value' hreaches =>
        h value' (.tail (fun h => absurd h hactive) hreaches)

/-- Where the search comes to no object without a target, the code returns what Node does. -/
lemma resolvePackageTarget_eq (hstring : ∀ text, env.resolveString text ≠ .ok none)
    (h : ∀ entries, env.Visits target (.obj entries) →
      ¬ (env.packageTargetResolve (.obj entries)).NoTarget) :
    env.resolvePackageTarget target = (env.packageTargetResolve target).result := by
  induction target using JsonValue.ind with
  | null | scalar text => rfl
  | str text =>
    rw [resolvePackageTarget, packageTargetResolve]
    match env.resolveString text with
    | .ok (some _) | .ok none | .error _ => rfl
  | arr items ih =>
    refine resolveItems_eq none fun item hitem => ⟨fun hundefined => ?_, ?_⟩
    · obtain ⟨entries, rfl⟩ := exists_obj_of_undefined hstring hundefined
      apply h entries (.item hitem (.refl _))
      rw [hundefined]
      trivial
    · exact ih item hitem.mem fun entries hvisits => h entries (.item hitem hvisits)
  | obj entries ih =>
    have htarget := h entries (.refl _)
    rw [packageTargetResolve] at htarget
    have hentries : env.resolveEntries entries = (env.firstEntry entries).result := by
      refine resolveEntries_eq htarget fun value hvalue => ?_
      obtain ⟨key, hmem⟩ := hvalue.exists_mem
      exact ih (key, value) hmem fun entries' hvisits => h entries' (.entry hvalue hvisits)
    rw [resolvePackageTarget, packageTargetResolve, hentries]
    cases hfirst : env.firstEntry entries with
    | url u | failed e => rfl
    | null | undefined =>
      rw [hfirst] at htarget
      exact absurd trivial htarget

variable (env) in
/-- The code follows Node at every target that the search comes to exactly if none of them is an
object without a target. -/
theorem resolvePackageTarget_follows_iff (hstring : ∀ text, env.resolveString text ≠ .ok none)
    (target : JsonValue) :
    (∀ value, env.Visits target value →
      env.resolvePackageTarget value = (env.packageTargetResolve value).result) ↔
    ∀ entries, env.Visits target (.obj entries) →
      ¬ (env.packageTargetResolve (.obj entries)).NoTarget := by
  constructor
  · intro h entries hvisits htarget
    have hnone := h (.obj entries) hvisits
    generalize env.packageTargetResolve (.obj entries) = resolution at hnone htarget
    cases resolution with
    | url u | failed e => exact htarget
    | null | undefined => exact resolvePackageTarget_obj_ne_none entries hnone
  · intro h value hvisits
    exact resolvePackageTarget_eq hstring fun entries hvisits' => h entries (hvisits.trans hvisits')

/-- A package in `/p` that is required by a module of Node. -/
def required : TargetEnv String where
  packageDir := .ofString "/p"
  subpath := []
  packageSubpath := ".".toList
  referrer := ⟨"file:///m.js", "file:///m.js"⟩
  pattern := false
  internal := false
  conditions := ["node".toList, "require".toList]
  mode := .execution
  resolvePackageTargetString target _ _ _ _ := .ok ("file:///p/" ++ String.ofList (target.drop 2))
  isFile _ := true
  pathToDeclarationUrl url := .ok (some url)
  toText _ := "\x7b\"import\":\"./a.js\"\x7d".toList

/-- An object with one entry, which is active. -/
theorem resolvePackageTarget_follows_iff_default :
    required.packageTargetResolve (.obj [("default".toList, .str "./b.js".toList)]) =
      .url "file:///p/b.js" ∧
    ∀ value, required.Visits (.obj [("default".toList, .str "./b.js".toList)]) value →
      required.resolvePackageTarget value = (required.packageTargetResolve value).result := by
  refine ⟨rfl, (resolvePackageTarget_follows_iff required (fun text => nofun) _).mpr ?_⟩
  intro entries hvisits
  cases hvisits with
  | refl _ => exact fun h => h
  | entry hentry h =>
    cases hentry with
    | head _ _ _ => cases h
    | tail _ hrest => cases hrest

/-- The first condition that is active leads to an object without a target, which the code calls
invalid; or it leads to `null`, which the code passes over. -/
theorem resolvePackageTarget_no_target :
    (required.packageTargetResolve (.obj [("node".toList, .obj [("import".toList,
        .str "./a.js".toList)]), ("default".toList, .str "./b.js".toList)]) =
        .url "file:///p/b.js" ∧
      required.resolvePackageTarget (.obj [("node".toList, .obj [("import".toList,
        .str "./a.js".toList)]), ("default".toList, .str "./b.js".toList)]) =
        .error (required.invalidTarget (.obj [("import".toList, .str "./a.js".toList)]))) ∧
    required.packageTargetResolve (.obj [("node".toList, .null),
      ("default".toList, .str "./b.js".toList)]) = .null ∧
    required.resolvePackageTarget (.obj [("node".toList, .null),
      ("default".toList, .str "./b.js".toList)]) = .ok (some "file:///p/b.js") :=
  ⟨⟨rfl, rfl⟩, rfl, rfl⟩

end TargetEnv

end Deno
