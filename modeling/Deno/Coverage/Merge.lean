import Deno.Core.HashSet
import Deno.Core.OrdMap
import Deno.Coverage.RangeTree
import Deno.Error
import Mathlib.Data.String.Basic
import Mathlib.Data.Prod.Lex

/-!
# Merging coverage profiles

Profiles of several processes are merged script by script, function by function. The range trees
of one function are merged from the root down: the children of all trees are swept from left to
right into ranges that are wide enough for every tree that starts with them; what lies in such a
range is regrouped into one tree per parent, and these trees are merged in turn.
-/

namespace Deno

open Core

structure FunctionCoverage (κ : Type) where
  functionName : String
  ranges : List (CoverageRange κ)
  isBlockCoverage : Bool
  deriving DecidableEq

structure ScriptCoverage (κ : Type) where
  scriptId : String
  url : String
  functions : List (FunctionCoverage κ)
  deriving DecidableEq

structure ProcessCoverage (κ : Type) where
  result : List (ScriptCoverage κ)
  deriving DecidableEq

structure CharRange where
  start : ℕ
  stop : ℕ
  deriving DecidableEq

/-- Ranges are ordered by their start and then, the wider one first, by their end. -/
def CharRange.key (r : CharRange) : ℕ ×ₗ ℕᵒᵈ := toLex (r.start, OrderDual.toDual r.stop)

instance : LinearOrder CharRange :=
  LinearOrder.lift' CharRange.key (by
    rintro ⟨s, e⟩ ⟨s', e'⟩ h
    simpa [CharRange.key] using h)

/-! ### The event queue -/

/-- The trees that start at an offset, each with the index of its parent. -/
structure StartEvent (κ : Type) where
  offset : ℕ
  trees : List (ℕ × RangeTree κ)

structure StartEventQueue (κ : Type) where
  pending : Option (StartEvent κ)
  queue : List (StartEvent κ)

variable {κ : Type}

/-- The children of the parents by the offset at which they start. -/
def intoStartEvents (trees : List (RangeTree κ)) : List (StartEvent κ) :=
  let result := OrdMap.group (trees.zipIdx.flatMap fun (tree, parentIndex) =>
    tree.children.map fun child => (child.start, (parentIndex, child)))
  result.entries.map fun (offset, trees) => ⟨offset, trees⟩

namespace StartEventQueue

variable (q : StartEventQueue κ)

def setPendingOffset (offset : ℕ) : StartEventQueue κ :=
  { q with pending := some ⟨offset, []⟩ }

def pushPendingTree (tree : ℕ × RangeTree κ) : StartEventQueue κ :=
  { q with pending := q.pending.map fun event => { event with trees := event.trees ++ [tree] } }

/-- The next event: the first one of the queue, the pending one, or both as one. -/
def next : Option (StartEvent κ × StartEventQueue κ) :=
  match q.pending with
  | some pending =>
    if pending.trees.isEmpty then q.queue.head?.map (·, { q with queue := q.queue.tail })
    else
      match q.queue with
      | [] => some (pending, ⟨none, []⟩)
      | event :: events =>
        if pending.offset < event.offset then some (pending, ⟨none, event :: events⟩)
        else if pending.offset = event.offset then
          some (⟨event.offset, event.trees ++ pending.trees⟩, ⟨none, events⟩)
        else some (event, ⟨some pending, events⟩)
  | none => q.queue.head?.map (·, { q with queue := q.queue.tail })

end StartEventQueue

/-! ### Merging children -/

/-- A hash map from parents to trees, as the list of its entries. -/
abbrev NestedMap (κ : Type) := List (ℕ × List (RangeTree κ))

/-- `entry(parent_index).or_default().push(tree)`. -/
def pushNested (parentIndex : ℕ) (tree : RangeTree κ) : NestedMap κ → NestedMap κ
  | [] => [(parentIndex, [tree])]
  | (i, trees) :: entries =>
    if i = parentIndex then (i, trees ++ [tree]) :: entries
    else (i, trees) :: pushNested parentIndex tree entries

def pushAt (trees : ℕ → List (RangeTree κ)) (parentIndex : ℕ) (tree : RangeTree κ) :
    ℕ → List (RangeTree κ) :=
  Function.update trees parentIndex (trees parentIndex ++ [tree])

structure MergeState (κ : Type) where
  queue : StartEventQueue κ
  openRange : Option CharRange
  parentToNested : NestedMap κ
  flatChildren : ℕ → List (RangeTree κ)
  wrappedChildren : ℕ → List (RangeTree κ)

variable [AddCommGroup κ] (ord : IterOrder (ℕ × List (RangeTree κ)))

/-- Close a range: what is nested in it becomes one tree per parent. -/
def closeRange (range : CharRange) (st : MergeState κ) : MergeState κ :=
  { st with
    openRange := none
    parentToNested := []
    wrappedChildren := (ord.run st.parentToNested).foldl (fun wrapped (parentIndex, nested) =>
        pushAt wrapped parentIndex (.node range.start range.stop 0 nested))
      st.wrappedChildren }

def closeOpen (st : MergeState κ) : MergeState κ :=
  match st.openRange with
  | some range => closeRange ord range st
  | none => st

/-- Put a tree into the open range; what sticks out is left pending. -/
def nestTree (range : CharRange) (st : MergeState κ) (tree : ℕ × RangeTree κ) : MergeState κ :=
  if range.stop < tree.2.stop then
    let (left, right) := tree.2.split range.stop
    { st with
      queue := st.queue.pushPendingTree (tree.1, right)
      parentToNested := pushNested tree.1 left st.parentToNested }
  else { st with parentToNested := pushNested tree.1 tree.2 st.parentToNested }

def openRangeEnd (event : StartEvent κ) : ℕ :=
  event.trees.foldl (fun stop tree => if stop < tree.2.stop then tree.2.stop else stop)
    (event.offset + 1)

/-- Put a tree that starts a range beside the others, or into the range if it is shorter. -/
def placeTree (stop : ℕ) (st : MergeState κ) (tree : ℕ × RangeTree κ) : MergeState κ :=
  if tree.2.stop = stop then
    { st with flatChildren := pushAt st.flatChildren tree.1 tree.2 }
  else { st with parentToNested := pushNested tree.1 tree.2 st.parentToNested }

def processEvent (st : MergeState κ) (event : StartEvent κ) : MergeState κ :=
  let st :=
    match st.openRange with
    | some range => if range.stop ≤ event.offset then closeRange ord range st else st
    | none => st
  match st.openRange with
  | some range => event.trees.foldl (nestTree range) st
  | none =>
    let stop := openRangeEnd event
    let st := event.trees.foldl (placeTree stop) st
    { st with
      queue := st.queue.setPendingOffset stop
      openRange := some ⟨event.offset, stop⟩ }

def eventLoop (ord : IterOrder (ℕ × List (RangeTree κ))) : ℕ → MergeState κ → MergeState κ
  | 0, st => st
  | fuel + 1, st =>
    match st.queue.next with
    | none => st
    | some (event, queue) => eventLoop ord fuel (processEvent ord { st with queue := queue } event)

/-- `merge_children_lists`: both lists in one, ordered by their starts. -/
def mergeChildrenLists (a b : List (RangeTree κ)) : List (RangeTree κ) :=
  a.merge b fun treeA treeB => treeA.start < treeB.start

/-- The offsets at which trees start and end. -/
def getChildEventsFromForests (forests : List (List (RangeTree κ))) : OrdSet ℕ :=
  .ofList (forests.flatMap fun forest => forest.flatMap fun tree => [tree.start, tree.stop])

/-- The first tree of a forest, if it starts at the offset. -/
def peekAt (event : ℕ) (forest : List (RangeTree κ)) : Option (RangeTree κ) :=
  forest.head?.filter fun tree => tree.start = event

/-- The rest of the forest once that tree is taken. -/
def popAt (event : ℕ) (forest : List (RangeTree κ)) : List (RangeTree κ) :=
  if (peekAt event forest).isSome then forest.tail else forest

/-- The last loop of `merge_range_tree_children`: merge the trees that start together. -/
def mergeForests (mergeRangeTrees : List (RangeTree κ) → Option (RangeTree κ)) :
    List ℕ → List (List (RangeTree κ)) → List (RangeTree κ)
  | [], _ => []
  | event :: events, forests =>
    let matchingTrees := forests.filterMap (peekAt event)
    let forests := forests.map (popAt event)
    match mergeRangeTrees matchingTrees with
    | some merged => merged :: mergeForests mergeRangeTrees events forests
    | none => mergeForests mergeRangeTrees events forests

def mergeRangeTreeChildren (mergeRangeTrees : List (RangeTree κ) → Option (RangeTree κ))
    (parentTrees : List (RangeTree κ)) : List (RangeTree κ) :=
  let events := intoStartEvents parentTrees
  -- every event of the queue, and a pending one after each of them
  let st := eventLoop ord (2 * events.length + 1)
    ⟨⟨none, events⟩, none, [], fun _ => [], fun _ => []⟩
  let st := closeOpen ord st
  let childForests := (List.range parentTrees.length).map fun i =>
    mergeChildrenLists (st.flatChildren i) (st.wrappedChildren i)
  mergeForests mergeRangeTrees (getChildEventsFromForests childForests).elems childForests

/-- `merge_range_trees`; `fuel` bounds the depth of the recursion. -/
def mergeRangeTrees (ord : IterOrder (ℕ × List (RangeTree κ))) :
    ℕ → List (RangeTree κ) → Option (RangeTree κ)
  | 0, _ => none
  | fuel + 1, trees =>
    match trees with
    | [] => none
    | [tree] => some tree
    | first :: _ =>
      let delta := trees.foldl (fun acc tree => acc + tree.delta) 0
      some (.node first.start first.stop delta
        (mergeRangeTreeChildren ord (mergeRangeTrees ord fuel) trees))

/-! ### Merging functions, scripts and processes -/

variable [DecidableEq κ]

section

variable (ord : IterOrder (ℕ × List (RangeTree κ)))

def mergeFunctions (funcs : List (FunctionCoverage κ)) :
    Except AnyError (Option (FunctionCoverage κ)) :=
  match funcs with
  | [] => .ok none
  | [func] => .ok (some func)
  | first :: _ =>
    -- the capacity of the arena; the depth of all trees together does not exceed it
    let rtaCapacity := funcs.foldl (fun acc func => acc + func.ranges.length) 0
    let trees := funcs.filterMap fun func => RangeTree.fromSortedRanges func.ranges
    match mergeRangeTrees ord rtaCapacity trees with
    | none => .error (.panic "called `Option::unwrap()` on a `None` value")
    | some merged =>
      let ranges := merged.normalize.toRanges
      let isBlockCoverage := !(ranges.length == 1 && ranges.head?.map (·.count) == some 0)
      .ok (some ⟨first.functionName, ranges, isBlockCoverage⟩)

def unwrapMerged {α : Type} : Except AnyError (Option α) → Except AnyError α
  | .ok (some a) => .ok a
  | .ok none => .error (.panic "called `Option::unwrap()` on a `None` value")
  | .error e => .error e

def rootRange (func : FunctionCoverage κ) : Except AnyError CharRange :=
  match func.ranges with
  | [] => .error (.panic "index out of bounds: the len is 0 but the index is 0")
  | range :: _ => .ok ⟨range.startCharOffset, range.endCharOffset⟩

def mergeScripts (scripts : List (ScriptCoverage κ)) :
    Except AnyError (Option (ScriptCoverage κ)) :=
  match scripts with
  | [] => .ok none
  | [script] => .ok (some script)
  | first :: _ => do
    let keyed ← (scripts.flatMap (·.functions)).mapM fun func => do
      return ((← rootRange func), func)
    let rangeToFuncs := OrdMap.group keyed
    let functions ← rangeToFuncs.entries.mapM fun (_, funcs) =>
      unwrapMerged (mergeFunctions ord funcs)
    return some ⟨first.scriptId, first.url, functions⟩

def mergeProcesses
    (processes : List (ProcessCoverage κ)) : Except AnyError (Option (ProcessCoverage κ)) :=
  match processes with
  | [] => .ok none
  | [process] => .ok (some process)
  | _ => do
    let urlToScripts := OrdMap.group
      ((processes.flatMap (·.result)).map fun script => (script.url, script))
    let result ← urlToScripts.entries.zipIdx.mapM fun ((_, scripts), scriptId) => do
      let merged ← unwrapMerged (mergeScripts ord scripts)
      return { merged with scriptId := toString scriptId }
    return some ⟨result⟩

end

end Deno
