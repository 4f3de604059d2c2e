import Deno.Core.AssocList
import Deno.Core.ExceptLoop
import Mathlib.Order.Lattice
import Mathlib.Algebra.Ring.Nat

/-!
# The order in which packages are published

A package is published once its dependencies are. The graph counts, for each package, the
dependencies that are not published.
-/

namespace Deno.Publish

open Core

variable {Name : Type} [LinearOrder Name]

/-! ### Maps -/

def keys {Value : Type} (map : List (Name × Value)) : List Name := map.map Prod.fst

variable {Value : Type} {name : Name} {map : List (Name × Value)}

omit [LinearOrder Name] in
lemma mem_keys : name ∈ keys map ↔ ∃ value, (name, value) ∈ map := by
  simp [keys]

def remove {Value : Type} (name : Name) (map : List (Name × Value)) : List (Name × Value) :=
  map.filter fun entry => entry.1 ≠ name

/-- `entry(name).or_default().push(value)`. -/
def pushTo (name value : Name) : List (Name × List Name) → List (Name × List Name)
  | [] => [(name, [value])]
  | (other, vs) :: rest =>
    if other = name then (other, vs ++ [value]) :: rest else (other, vs) :: pushTo name value rest

/-! ### The graph -/

structure PublishOrderGraph (Name : Type) where
  packages : List (Name × List Name)
  inDegree : List (Name × ℕ)
  reverseMap : List (Name × List Name)

inductive Failure (Name : Type) where
  | panicked
  | circular (path : List Name)
  deriving DecidableEq

def buildPublishOrderGraph (packages : List (Name × List Name)) : PublishOrderGraph Name where
  packages := packages
  inDegree := packages.map fun (name, deps) => (name, deps.length)
  reverseMap := packages.foldl
    (fun map (name, deps) => deps.foldl (fun map dep => pushTo dep name map) map) []

lemma length_filter_contains_cons {α : Type} [BEq α] [LawfulBEq α] {a : α} {all visited : List α}
    (hmem : a ∈ all) (hnew : ¬ visited.contains a) :
    (all.filter fun b => !(a :: visited).contains b).length <
      (all.filter fun b => !visited.contains b).length := by
  have hsub : (all.filter fun b => !(a :: visited).contains b) =
      (all.filter fun b => !visited.contains b).filter fun b => b != a := by
    rw [List.filter_filter]
    simp [bne]
  rw [hsub]
  refine List.length_filter_lt_length_iff_exists.mpr ⟨a, ?_, by simp⟩
  exact List.mem_filter.mpr ⟨hmem, by simpa using hnew⟩

def unvisited {Value : Type} (map : List (Name × Value)) (visited : List Name) : List Name :=
  (keys map).filter fun name => !visited.contains name

lemma mem_keys_of_lookup {value : Value} (h : map.lookup name = some value) : name ∈ keys map :=
  mem_keys.mpr ⟨value, mem_of_lookup h⟩

/-- The longest way up, to a package that no other one depends on. -/
def computeDepth (reverseMap : List (Name × List Name)) (name : Name) (visited : List Name) : ℕ :=
  if _hnew : visited.contains name then 0
  else
    match _hparents : reverseMap.lookup name with
    | none => 0
    | some parents =>
      1 + ((parents.map fun child => computeDepth reverseMap child (name :: visited)).max?.getD 0)
termination_by (unvisited reverseMap visited).length
decreasing_by exact length_filter_contains_cons (mem_keys_of_lookup _hparents) _hnew

/-- The names with the deepest first, and by name where the depths are the same. -/
def before (a b : Name × ℕ) : Bool := b.2 < a.2 || (a.2 = b.2 && a.1 ≤ b.1)

/-- The way down from a package until one is met again, the last first. -/
def identifyCycle (packages : List (Name × List Name)) (current : Name) (visited : List Name) :
    Except (Failure Name) (Option (List Name)) :=
  if _hnew : visited.contains current then .ok (some [current])
  else
    match _hdeps : packages.lookup current with
    | none => .error .panicked
    | some deps => do
      let cycle ← deps.findSomeM? fun dep => identifyCycle packages dep (current :: visited)
      return cycle.map (· ++ [current])
termination_by (unvisited packages visited).length
decreasing_by exact length_filter_contains_cons (mem_keys_of_lookup _hdeps) _hnew

namespace PublishOrderGraph

variable (graph : PublishOrderGraph Name)

def ready : List Name :=
  let names := keys (graph.inDegree.filter fun entry => entry.2 == 0)
  let withDepth := names.map fun name => (name, computeDepth graph.reverseMap name [])
  (withDepth.mergeSort before).map Prod.fst

def next : List Name × PublishOrderGraph Name :=
  let names := graph.ready
  (names, { graph with inDegree := names.foldl (fun map name => remove name map) graph.inDegree })

def decrement (inDegree : List (Name × ℕ)) (name : Name) :
    Except (Failure Name) (List (Name × ℕ)) :=
  match inDegree.lookup name with
  | none | some 0 => .error .panicked
  | some (degree + 1) =>
    .ok (inDegree.map fun entry => if entry.1 = name then (entry.1, degree) else entry)

def finishPackage (name : Name) : Except (Failure Name) (PublishOrderGraph Name) :=
  match graph.reverseMap.lookup name with
  | none => .ok graph
  | some names => do
    let inDegree ← names.foldlM decrement graph.inDegree
    return { graph with inDegree := inDegree, reverseMap := remove name graph.reverseMap }

def ensureNoPending : Except (Failure Name) Unit :=
  match (keys graph.inDegree).mergeSort with
  | [] => .ok ()
  | name :: _ => do
    match ← identifyCycle graph.packages name [] with
    | none => .error .panicked
    | some cycle => .error (.circular cycle.reverse)

end PublishOrderGraph

end Deno.Publish
