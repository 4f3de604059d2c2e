import Deno.Core.AssocList
import Deno.Core.ByteString
import Deno.Node.Errors

/-!
# Keys of package exports and imports

A subpath of a package, or an internal specifier, is resolved through the key of the `exports` or
`imports` of its `package.json` that matches it best. A key with a star is a pattern.
-/

namespace Deno

open Core List
open String (utf8Len)

/-- An object of JSON: its entries in their order, no key twice. -/
structure JsonMap (V : Type) where
  entries : List (List Char × V)
  nodup : (entries.map Prod.fst).Nodup

namespace JsonMap

variable {V : Type} (self : JsonMap V)

def keys : List (List Char) := self.entries.map Prod.fst

def get (key : List Char) : Option V := self.entries.lookup key

def containsKey (key : List Char) : Bool := key ∈ self.keys

lemma get_eq_some_iff {self : JsonMap V} {key : List Char} {v : V} :
    self.get key = some v ↔ (key, v) ∈ self.entries :=
  ⟨mem_of_lookup, lookup_of_mem self.nodup⟩

lemma exists_get_of_mem_keys {self : JsonMap V} {key : List Char} (h : key ∈ self.keys) :
    ∃ v, self.get key = some v := by
  obtain ⟨⟨_, v⟩, hmem, rfl⟩ := List.mem_map.mp h
  exact ⟨v, get_eq_some_iff.mpr hmem⟩

lemma get_eq_of_perm {self other : JsonMap V} (h : self.entries.Perm other.entries)
    (key : List Char) : self.get key = other.get key := by
  refine Option.ext fun v => ?_
  rw [get_eq_some_iff, get_eq_some_iff]
  exact h.mem_iff

end JsonMap

/-- The part of `package.json` that the resolution of imports reads. -/
structure PackageJson (V : Type) where
  «exists» : Bool
  dir : Path
  imports : Option (JsonMap V)

/-- `resolve_package_target`, with the arguments that its callers choose: the target, the text for
the star, the key, and whether the key is a pattern and whether it is one of imports. -/
abbrev TargetResolver (V Url : Type) :=
  V → List Char → List Char → Bool → Bool → Except AnyError (Option Url)

/-- A slice of a text panics if it is out of range or cuts a character. -/
def strSlice (text : List Char) (start stop : ℕ) : Except AnyError (List Char) :=
  match sliceBytes start stop text with
  | some s => .ok s
  | none => .error (.panic "byte index is out of bounds or not a char boundary")

def startsWith (text start : List Char) : Bool := start.isPrefixOf text

def endsWith (text stop : List Char) : Bool := stop.isSuffixOf text

def patternKeyCompare (a b : List Char) : ℤ :=
  let aPatternIndex := findByte '*' a
  let bPatternIndex := findByte '*' b
  let baseLenA := match aPatternIndex with
    | some index => index + 1
    | none => utf8Len a
  let baseLenB := match bPatternIndex with
    | some index => index + 1
    | none => utf8Len b
  if baseLenA > baseLenB then -1
  else if baseLenB > baseLenA then 1
  else if aPatternIndex.isNone then 1
  else if bPatternIndex.isNone then -1
  else if utf8Len a > utf8Len b then -1
  else if utf8Len b > utf8Len a then 1
  else 0

/-- The best key so far, and the text its star stands for; no key is the empty one. -/
structure BestMatch where
  key : List Char
  subpath : Option (List Char)

variable {V Url : Type}

/-- The body of the loop over the keys in `package_exports_resolve`. -/
def exportsStep (packageSubpath : List Char) (best : BestMatch) (key : List Char) :
    Except AnyError BestMatch :=
  match findByte '*' key with
  | none => .ok best
  | some patternIndex => do
    let keySub ← strSlice key 0 patternIndex
    if startsWith packageSubpath keySub then
      let patternTrailer ← strSlice key (patternIndex + 1) (utf8Len key)
      if utf8Len packageSubpath ≥ utf8Len key ∧ endsWith packageSubpath patternTrailer ∧
          patternKeyCompare best.key key = 1 ∧ rfindByte '*' key = some patternIndex then
        let subpath ← strSlice packageSubpath patternIndex
          (utf8Len packageSubpath - utf8Len patternTrailer)
        return ⟨key, some subpath⟩
      else return best
    else return best

/-- The body of the loop over the keys in `package_imports_resolve`. It takes the star into the
part that the name has to start with, and one byte more at the end of the text for the star. -/
def importsStep (name : List Char) (best : BestMatch) (key : List Char) :
    Except AnyError BestMatch :=
  match findByte '*' key with
  | none => .ok best
  | some patternIndex => do
    let keySub ← strSlice key 0 (patternIndex + 1)
    if startsWith name keySub then
      let patternTrailer ← strSlice key (patternIndex + 1) (utf8Len key)
      if utf8Len name > utf8Len key ∧ endsWith name patternTrailer ∧
          patternKeyCompare best.key key = 1 ∧ rfindByte '*' key = some patternIndex then
        let subpath ← strSlice name patternIndex (utf8Len name - utf8Len patternTrailer + 1)
        return ⟨key, some subpath⟩
      else return best
    else return best

variable (resolveTarget : TargetResolver V Url)

/-- Resolve the target of the best key, if there is one. -/
def resolveBestMatch (map : JsonMap V) (internal : Bool)
    (best : BestMatch) : Except AnyError (Option Url) := do
  if best.key ≠ [] then
    let target ← unwrapOption (map.get best.key)
    let subpath ← unwrapOption best.subpath
    resolveTarget target subpath best.key true internal
  else return none

def packageExportsResolve (packageDir : Path)
    (referrer : Referrer) (mode : NodeResolutionMode) (packageExports : JsonMap V)
    (packageSubpath : List Char) : Except AnyError Url := do
  let resolved ←
    if packageExports.containsKey packageSubpath ∧ (findByte '*' packageSubpath).isNone ∧
        ¬ endsWith packageSubpath ['/'] then do
      let target ← unwrapOption (packageExports.get packageSubpath)
      resolveTarget target [] packageSubpath false false
    else do
      let best ← packageExports.keys.foldlM (exportsStep packageSubpath) ⟨[], none⟩
      resolveBestMatch resolveTarget packageExports false best
  match resolved with
  | some url => .ok url
  | none => .error (throwExportsNotFound packageSubpath packageDir referrer mode)

/-- The target that the imports of a package give for a name, if there is one. -/
def resolveImports (imports : JsonMap V) (name : List Char) : Except AnyError (Option Url) := do
  if imports.containsKey name ∧ '*' ∉ name then
    let target ← unwrapOption (imports.get name)
    resolveTarget target [] name false true
  else
    let best ← imports.keys.foldlM (importsStep name) ⟨[], none⟩
    resolveBestMatch resolveTarget imports true best

def packageImportsResolve (referrer : Referrer)
    (referrerPkgJson : Option (PackageJson V)) (name : List Char) : Except AnyError Url := do
  if name = ['#'] ∨ startsWith name ['#', '/'] ∨ endsWith name ['/'] then
    .error (errInvalidModuleSpecifier (String.ofList name)
      "is not a valid internal imports specifier name" (some referrer.display))
  else
    match referrerPkgJson.filter (·.exists) with
    | none => .error (throwImportNotDefined name none referrer)
    | some pkgJson =>
      let resolved ← match pkgJson.imports with
        | some imports => resolveImports resolveTarget imports name
        | none => .ok none
      match resolved with
      | some url => .ok url
      | none => .error (throwImportNotDefined name (some pkgJson.dir) referrer)

end Deno
