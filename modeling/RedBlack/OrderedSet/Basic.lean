import RedBlack.Arena.Traversal
import RedBlack.Arena.Update
import RedBlack.Settings
import RedBlack.Traced

/-!
Sets of distinct values kept in order by a comparator. Every structural change adds one to the
version; the identity tells a set from every other one, equal or not. A `retain` takes the tree
apart and builds it up again, and a panic loses no value that the predicate had not rejected.
-/

set_option autoImplicit false

namespace RedBlack

structure OrderedSet (α : Type) where
  id : Nat
  settings : Settings α
  tree : Arena α
  version : Nat

namespace OrderedSet
variable {α : Type}

def empty (id : Nat) (settings : Settings α) : OrderedSet α := ⟨id, settings, .empty, 0⟩

def size (s : OrderedSet α) : Nat := s.tree.size

def isEmpty (s : OrderedSet α) : Bool := s.size == 0

def compare (s : OrderedSet α) : α → α → Ordering := s.settings.comparator.compare

def touch (s : OrderedSet α) : OrderedSet α := { s with version := s.version + 1 }

/-- Puts a value in its place without counting a change; says whether it was new. -/
def place (s : OrderedSet α) (v : α) : Traced Event (Bool × OrderedSet α) := do
  let (new, t) ← s.tree.insert s.compare v
  return (new, { s with tree := t })

def insert (s : OrderedSet α) (v : α) : Traced Event (Bool × OrderedSet α) := do
  let (new, s) ← s.place v
  return (new, if new then s.touch else s)

def insertMany (s : OrderedSet α) : List α → Traced Event (Nat × OrderedSet α)
  | [] => return (0, s)
  | v :: vs => do
    let (new, s) ← s.insert v
    let (n, s) ← s.insertMany vs
    return (if new then n + 1 else n, s)

def removeAt (s : OrderedSet α) (i : Nat) : Traced Event (α × OrderedSet α) := do
  let (v, t) ← s.tree.removeNode i
  return (v, { s with tree := t }.touch)

def take (s : OrderedSet α) (key : α) : Traced Event (Option α × OrderedSet α) := do
  match ← s.tree.lookup (s.compare key) with
  | some i => do
    let (v, s) ← s.removeAt i
    return (some v, s)
  | none => return (none, s)

def remove (s : OrderedSet α) (key : α) : Traced Event (Bool × OrderedSet α) := do
  let (v, s) ← s.take key
  return (v.isSome, s)

def pop (s : OrderedSet α) (side : Side) : Traced Event (Option α × OrderedSet α) := do
  match ← s.tree.extreme side with
  | some i => do
    let (v, s) ← s.removeAt i
    return (some v, s)
  | none => return (none, s)

/-- Removes every value. This counts as a change of an empty set too. -/
def clear (s : OrderedSet α) : Traced Event (OrderedSet α) := do
  Traced.emit (.cleared s.size)
  return { s with tree := .empty }.touch

def get? (s : OrderedSet α) (key : α) : Except Fault (Option α) := do
  match ← s.tree.lookup (s.compare key) with
  | some i => return some (← s.tree.value i)
  | none => return none

def contains (s : OrderedSet α) (key : α) : Except Fault Bool :=
  return (← s.tree.lookup (s.compare key)).isSome

def extreme? (s : OrderedSet α) (side : Side) : Except Fault (Option α) := do
  match ← s.tree.extreme side with
  | some i => return some (← s.tree.value i)
  | none => return none

def emptyLike (s : OrderedSet α) (id : Nat) : OrderedSet α := empty id s.settings

def clone (s : OrderedSet α) (id : Nat) : OrderedSet α := { s with id := id, version := 0 }

def deepClone (s : OrderedSet α) (id : Nat) : OrderedSet α :=
  { s with id := id, version := 0, tree := s.tree.map s.settings.copy }

section Predicate
variable {π : Type} [Predicate π α]

def placeMany (s : OrderedSet α) : List α → Traced Event (OrderedSet α)
  | [] => return s
  | v :: vs => do
    let (_, s) ← s.place v
    s.placeMany vs

structure Sifted (α π : Type) where
  set : OrderedSet α
  predicate : π
  /-- The panic that ended the sifting early. -/
  panic : Option String

/-- Puts back the pending values that the predicate accepts. After a panic the value under test and
all that follow are put back as well. -/
def sift (s : OrderedSet α) (p : π) : List α → Traced Event (Sifted α π)
  | [] => return ⟨s, p, none⟩
  | v :: vs =>
    match Predicate.test p v with
    | (.accept, p) => do
      let (_, s) ← s.place v
      s.sift p vs
    | (.reject, p) => s.sift p vs
    | (.panic m, p) => return ⟨← s.placeMany (v :: vs), p, some m⟩

structure Retained (α π : Type) where
  set : OrderedSet α
  predicate : π
  /-- The number of values removed, or the predicate's panic. -/
  outcome : Except Failure Nat

/-- Keeps the values a predicate accepts, asking in ascending order. This counts as one change
unless the set is empty. -/
def retain (s : OrderedSet α) (p : π) : Traced Event (Retained α π) :=
  if s.isEmpty then
    return ⟨s, p, .ok 0⟩
  else do
    let pending ← s.tree.takeSorted
    let sifted ← { s.touch with tree := .empty }.sift p pending
    match sifted.panic with
    | some m => return ⟨sifted.set, sifted.predicate, .error (.predicate m)⟩
    | none =>
      if sifted.set.size ≤ s.size then
        return ⟨sifted.set, sifted.predicate, .ok (s.size - sifted.set.size)⟩
      else
        .stopped .overrun

end Predicate
end OrderedSet
end RedBlack
