import Mathlib.Algebra.Ring.Nat
import Mathlib.Algebra.BigOperators.Group.List.Basic

/-!
# Range trees

The ranges of a function's coverage, nested as a tree. A node holds the difference of its count
to the count of its parent. Counts are taken from any commutative group: the integers, or machine
integers that wrap around.
-/

namespace Deno

structure CoverageRange (κ : Type) where
  startCharOffset : ℕ
  endCharOffset : ℕ
  count : κ
  deriving DecidableEq

inductive RangeTree (κ : Type) where
  | node (start stop : ℕ) (delta : κ) (children : List (RangeTree κ))
  deriving Repr

def usizeMax : ℕ := 2 ^ 64 - 1

namespace RangeTree

variable {κ : Type}

def start : RangeTree κ → ℕ
  | .node s _ _ _ => s

def stop : RangeTree κ → ℕ
  | .node _ e _ _ => e

def delta : RangeTree κ → κ
  | .node _ _ d _ => d

def children : RangeTree κ → List (RangeTree κ)
  | .node _ _ _ cs => cs

variable (s e : ℕ)

@[simp] lemma start_node (d : κ) (cs : List (RangeTree κ)) : (node s e d cs).start = s := rfl

@[simp] lemma stop_node (d : κ) (cs : List (RangeTree κ)) : (node s e d cs).stop = e := rfl

@[simp] lemma children_node (d : κ) (cs : List (RangeTree κ)) : (node s e d cs).children = cs := rfl

/-! ### Splitting -/

mutual

def split (value : ℕ) : RangeTree κ → RangeTree κ × RangeTree κ
  | .node s e d cs =>
    let (left, right) := splitChildren value cs
    (.node s value d left, .node value e d right)

/-- Distribute trees to the two sides of an offset, cutting those that lie across. -/
def splitChildren (value : ℕ) : List (RangeTree κ) → List (RangeTree κ) × List (RangeTree κ)
  | [] => ([], [])
  | child :: cs =>
    let (left, right) := splitChildren value cs
    if child.stop ≤ value then (child :: left, right)
    else if value ≤ child.start then (left, child :: right)
    else
      let (leftChild, rightChild) := split value child
      (leftChild :: left, rightChild :: right)

end

/-! ### Sizes -/

mutual

/-- The number of nodes on the longest way down. -/
def depth : RangeTree κ → ℕ
  | .node _ _ _ cs => forestDepth cs + 1

def forestDepth : List (RangeTree κ) → ℕ
  | [] => 0
  | t :: ts => max (depth t) (forestDepth ts)

end

mutual

def size : RangeTree κ → ℕ
  | .node _ _ _ cs => forestSize cs + 1

def forestSize : List (RangeTree κ) → ℕ
  | [] => 0
  | t :: ts => size t + forestSize ts

end

section

variable [AddCommGroup κ]

/-! ### Normalizing -/

def addDelta (d : κ) : RangeTree κ → RangeTree κ
  | .node s e d' cs => .node s e (d' + d) cs

/-- Prolong a node by a tree that follows it. -/
def absorb (head tree : RangeTree κ) : RangeTree κ :=
  .node head.start tree.stop head.delta
    (head.children ++ tree.children.map (addDelta (tree.delta - head.delta)))

/-- One node for a chain of trees; `none` for the empty chain. -/
def collapse : List (RangeTree κ) → Option (RangeTree κ)
  | [] => none
  | head :: trees => some (trees.foldl absorb head)

variable [DecidableEq κ]

/-- Whether a child does not continue the chain: another count, or a gap. -/
def isChainEnd (chain : List (RangeTree κ)) (child : RangeTree κ) : Bool :=
  match chain.getLast? with
  | some tree => (tree.delta, tree.stop) ≠ (child.delta, child.start)
  | none => false

/-- The chains among the children, `chain` being the one under construction. -/
def chains (chain : List (RangeTree κ)) : List (RangeTree κ) → List (List (RangeTree κ))
  | [] => if chain.isEmpty then [] else [chain]
  | child :: cs =>
    if isChainEnd chain child then chain :: chains [child] cs else chains (chain ++ [child]) cs

/-- A node whose only child has its range gives way to the child. -/
def hoist (s e : ℕ) (d : κ) : List (RangeTree κ) → RangeTree κ
  | [child] => if child.start = s ∧ child.stop = e then child.addDelta d else .node s e d [child]
  | cs => .node s e d cs

/-- `normalize` down to a given depth: chains of children become one child each, and a node with
one child of its own range gives way to it. -/
def normalizeTo : ℕ → RangeTree κ → RangeTree κ
  | 0, t => t
  | n + 1, .node s e d cs =>
    hoist s e d (((chains [] cs).filterMap collapse).map (normalizeTo n))

def normalize (t : RangeTree κ) : RangeTree κ := normalizeTo t.depth t

/-! ### Trees and lists of ranges -/

/-- The loop of `to_ranges`: the stack holds trees with the counts of their parents. -/
def toRangesLoop : ℕ → List (RangeTree κ × κ) → List (CoverageRange κ)
  | 0, _ => []
  | _ + 1, [] => []
  | fuel + 1, (cur, parentCount) :: stack =>
    let count := parentCount + cur.delta
    ⟨cur.start, cur.stop, count⟩ :: toRangesLoop fuel (cur.children.map (·, count) ++ stack)

/-- `to_ranges`; every node is popped once. -/
def toRanges (t : RangeTree κ) : List (CoverageRange κ) := toRangesLoop t.size [(t, 0)]

mutual

/-- `from_sorted_ranges_inner`: the next tree, if a range starts in front of the end of the
parent, and the ranges left over. -/
def fromSortedRangesInner : ℕ → List (CoverageRange κ) → ℕ → κ →
    Option (RangeTree κ) × List (CoverageRange κ)
  | 0, ranges, _, _ => (none, ranges)
  | _ + 1, [], _, _ => (none, [])
  | fuel + 1, range :: ranges, parentEnd, parentCount =>
    if range.startCharOffset < parentEnd then
      let (children, rest) :=
        fromSortedRangesChildren fuel ranges range.endCharOffset range.count
      (some (.node range.startCharOffset range.endCharOffset (range.count - parentCount) children),
        rest)
    else (none, range :: ranges)

/-- Its inner loop: trees, as long as there are any. -/
def fromSortedRangesChildren : ℕ → List (CoverageRange κ) → ℕ → κ →
    List (RangeTree κ) × List (CoverageRange κ)
  | 0, ranges, _, _ => ([], ranges)
  | fuel + 1, ranges, parentEnd, parentCount =>
    match fromSortedRangesInner fuel ranges parentEnd parentCount with
    | (none, rest) => ([], rest)
    | (some child, rest) =>
      let (children, rest) := fromSortedRangesChildren fuel rest parentEnd parentCount
      (child :: children, rest)

end

/-- `from_sorted_ranges`; the fuel allows two calls for every range. -/
def fromSortedRanges (ranges : List (CoverageRange κ)) : Option (RangeTree κ) :=
  (fromSortedRangesInner (2 * ranges.length + 1) ranges usizeMax 0).1

end

end RangeTree

end Deno
