import RedBlack.Algebra
import RedBlack.Holder
import RedBlack.Settings

set_option autoImplicit false

namespace RedBlack

structure SortedSet (α : Type) where
  comparator : Comparator α
  values : List α

namespace SortedSet
variable {α : Type}

/-- A list with `v` in its place, or nothing if a value in it compares equal. -/
def insertInto? (compare : α → α → Ordering) (v : α) : List α → Option (List α)
  | [] => some [v]
  | x :: xs =>
    match compare v x with
    | .lt => some (v :: x :: xs)
    | .eq => none
    | .gt => (insertInto? compare v xs).map (x :: ·)

def insert (s : SortedSet α) (v : α) : Bool × SortedSet α :=
  match insertInto? s.comparator.compare v s.values with
  | some vs => (true, { s with values := vs })
  | none => (false, s)

def insertMany (s : SortedSet α) : List α → Nat × SortedSet α
  | [] => (0, s)
  | v :: vs =>
    let (new, s) := s.insert v
    let (n, s) := s.insertMany vs
    (if new then n + 1 else n, s)

def get? (s : SortedSet α) (key : α) : Option α :=
  s.values.find? fun v => s.comparator.compare key v == .eq

def contains (s : SortedSet α) (key : α) : Bool := (s.get? key).isSome

def take (s : SortedSet α) (key : α) : Option α × SortedSet α :=
  (s.get? key, { s with values := s.values.eraseP fun v => s.comparator.compare key v == .eq })

end SortedSet

structure UnorderedSet (α : Type) where
  /-- Each value once, in the order of a visit. -/
  values : List α

namespace UnorderedSet
variable {α : Type} [BEq α]

def contains (s : UnorderedSet α) (v : α) : Bool := s.values.contains v

def insert (s : UnorderedSet α) (v : α) : Bool × UnorderedSet α :=
  if s.contains v then (false, s) else (true, ⟨v :: s.values⟩)

def insertMany (s : UnorderedSet α) : List α → Nat × UnorderedSet α
  | [] => (0, s)
  | v :: vs =>
    let (new, s) := s.insert v
    let (n, s) := s.insertMany vs
    (if new then n + 1 else n, s)

def sorted [Ord α] (s : UnorderedSet α) : List α :=
  s.values.mergeSort fun a b => (Ord.compare a b).isLE

end UnorderedSet

inductive Container (α : Type) where
  | ordered (h : Holder α)
  | sorted (s : SortedSet α)
  | unordered (s : UnorderedSet α)

inductive Operand (α : Type) where
  | itself
  | other (c : Container α)

def Operand.beside {α : Type} (o : Operand α) (left : Container α) : Container α :=
  match o with
  | .itself => left
  | .other c => c

inductive Relation where
  | subset | superset | disjoint
  deriving DecidableEq

variable {α : Type}

def Relation.holds : Relation → View α → View α → Except Fault Bool
  | .subset, a, b => a.isSubset b
  | .superset, a, b => a.isSuperset b
  | .disjoint, a, b => a.isDisjoint b

namespace Container

def holder? : Container α → Option (Holder α)
  | ordered h => some h
  | _ => none

def plain? : Container α → Option (OrderedSet α)
  | ordered (.plain s) => some s
  | _ => none

def isUnordered : Container α → Bool
  | unordered _ => true
  | _ => false

variable [BEq α]

def view : Container α → Traced Event (View α)
  | ordered h => h.view
  | sorted s => return ⟨s.values.length, fun v => .ok (s.contains v), s.values⟩
  | unordered s => return ⟨s.values.length, fun v => .ok (s.contains v), s.values⟩

/-- The views of a left and a right operand. A set that is both is viewed once. -/
def views (c : Container α) : Operand α → Traced Event (View α × View α)
  | .itself => do
    let v ← c.view
    return (v, v)
  | .other o => do return (← c.view, ← o.view)

def snapshot [Ord α] : Container α → Traced Event (List α)
  | unordered s => return s.sorted
  | c => do return (← c.view).elements

def insertMany (c : Container α) (vs : List α) : Traced Event (Nat × Container α) :=
  match c with
  | ordered h => do
    let (n, h) ← h.insertMany vs
    return (n, ordered h)
  | sorted s => return ((s.insertMany vs).1, sorted (s.insertMany vs).2)
  | unordered s => return ((s.insertMany vs).1, unordered (s.insertMany vs).2)

end Container

/-- Combines an ordered set with an operand of any kind into a set with the settings of the
first, behind a lock if that is. The lock is taken once for the settings before both operands are
viewed. -/
def Holder.combine [BEq α] (h : Holder α) (kind : Combination) (id : Nat) (operand : Operand α) :
    Traced Event (Holder α) := do
  let like ← h.acquire
  let (a, b) ← (Container.ordered h).views operand
  return h.renew (← (like.emptyLike id).insertCombination kind a b)

end RedBlack
