import RedBlack.OrderedSet.Traversal

/-!
Views, and set operations on two of them. A view is what an operation may know of an operand of any
kind: its size, its elements in the operand's own order, and membership by the operand's own notion
of equality.
-/

set_option autoImplicit false

namespace RedBlack

structure View (α : Type) where
  size : Nat
  contains : α → Except Fault Bool
  elements : List α

namespace View
variable {α : Type}

def isEmpty (v : View α) : Bool := v.size == 0

/-- Two views with the one of fewer elements first; equally large ones stay as they are. -/
def smallerFirst (a b : View α) : View α × View α := if b.size < a.size then (b, a) else (a, b)

def isSubset (a b : View α) : Except Fault Bool :=
  if a.size ≤ b.size then a.elements.allM b.contains else return false

def isSuperset (a b : View α) : Except Fault Bool :=
  if b.size ≤ a.size then b.elements.allM a.contains else return false

def isDisjoint (a b : View α) : Except Fault Bool :=
  let (scanned, other) := smallerFirst a b
  scanned.elements.allM fun v => return !(← other.contains v)

end View

def OrderedSet.view {α : Type} (s : OrderedSet α) : Except Fault (View α) :=
  return ⟨s.size, s.contains, ← s.elements⟩

inductive Combination where
  | union | intersection | difference | symmetricDifference
  deriving DecidableEq

namespace OrderedSet
variable {α : Type}

def insertWhere (s : OrderedSet α) (keep : α → Except Fault Bool) :
    List α → Traced Event (OrderedSet α)
  | [] => return s
  | v :: vs => do
    if ← keep v then
      let (_, s) ← s.insert v
      s.insertWhere keep vs
    else
      s.insertWhere keep vs

def insertUnion (s : OrderedSet α) (a b : View α) : Traced Event (OrderedSet α) := do
  Traced.emit (.uniting a.size b.size)
  (← s.insertWhere (fun _ => .ok true) a.elements).insertWhere (fun _ => .ok true) b.elements

/-- Inserts the elements of the smaller view that are in the larger one. -/
def insertIntersection (s : OrderedSet α) (a b : View α) : Traced Event (OrderedSet α) := do
  let (scanned, other) := a.smallerFirst b
  Traced.emit (.intersecting scanned.size other.size)
  s.insertWhere other.contains scanned.elements

def insertDifference (s : OrderedSet α) (a b : View α) : Traced Event (OrderedSet α) := do
  Traced.emit (.subtracting a.size b.size)
  s.insertWhere (fun v => return !(← b.contains v)) a.elements

def insertCombination (s : OrderedSet α) (kind : Combination) (a b : View α) :
    Traced Event (OrderedSet α) :=
  match kind with
  | .union => s.insertUnion a b
  | .intersection => s.insertIntersection a b
  | .difference => s.insertDifference a b
  | .symmetricDifference => do (← s.insertDifference a b).insertDifference b a

def combine (s : OrderedSet α) (kind : Combination) (id : Nat) (other : View α) :
    Traced Event (OrderedSet α) := do
  (s.emptyLike id).insertCombination kind (← s.view) other

section Operators

/-- The operators stand for combinations with another set. Each makes a set with the identity that
is given last. -/
instance : HOr (OrderedSet α) (OrderedSet α) (Nat → Traced Event (OrderedSet α)) where
  hOr s t id := do s.combine .union id (← t.view)

instance : HAnd (OrderedSet α) (OrderedSet α) (Nat → Traced Event (OrderedSet α)) where
  hAnd s t id := do s.combine .intersection id (← t.view)

instance : HSub (OrderedSet α) (OrderedSet α) (Nat → Traced Event (OrderedSet α)) where
  hSub s t id := do s.combine .difference id (← t.view)

instance : HXor (OrderedSet α) (OrderedSet α) (Nat → Traced Event (OrderedSet α)) where
  hXor s t id := do s.combine .symmetricDifference id (← t.view)

def operate (s t : OrderedSet α) : Combination → Nat → Traced Event (OrderedSet α)
  | .union => s ||| t
  | .intersection => s &&& t
  | .difference => s - t
  | .symmetricDifference => s ^^^ t

end Operators

def equal [BEq α] (s t : OrderedSet α) : Except Fault Bool :=
  if s.size = t.size then do return (← s.elements) == (← t.elements) else return false

end OrderedSet
end RedBlack
