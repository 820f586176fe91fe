import RedBlack.Arena.Traversal
import RedBlack.OrderedSet.Basic
import RedBlack.Settings
import RedBlack.Traced

/-!
Cursors: traversals that hold on to no set between steps. A cursor remembers the identity and the
version of the set that created it, works with no other set, and never again once that has changed.
-/

set_option autoImplicit false

namespace RedBlack

inductive Cursor.State where
  | active | exhausted | invalidated
  deriving DecidableEq

def Cursor.State.name : Cursor.State → String
  | .active => "Active"
  | .exhausted => "Exhausted"
  | .invalidated => "Invalidated"

structure Cursor (π : Type) where
  setId : Nat
  version : Nat
  walk : Walk
  state : Cursor.State
  /-- Decide which of the elements walked over are yielded. -/
  filters : List π
  /-- Decide how far the walk goes; they see every element before the filters do. -/
  takeWhiles : List π

variable {α π : Type}

def OrderedSet.cursor (s : OrderedSet α) (d : Direction) : Except Fault (Cursor π) :=
  return ⟨s.id, s.version, ← Walk.start s.tree d, .active, [], []⟩

namespace Cursor

def filter (c : Cursor π) (p : π) : Cursor π := { c with filters := c.filters ++ [p] }

def takeWhile (c : Cursor π) (p : π) : Cursor π := { c with takeWhiles := c.takeWhiles ++ [p] }

def isInvalidated (c : Cursor π) : Bool := c.state = .invalidated

def record (c : Cursor π) : Text.Record where
  name := "Cursor"
  fields := [("order", c.walk.direction.name), ("version", toString c.version),
    ("state", c.state.name), ("filtered", toString !c.filters.isEmpty),
    ("take_while", toString !c.takeWhiles.isEmpty)]

def stop (c : Cursor π) (state : State) : Cursor π :=
  { c with walk := .ended c.walk.direction, state := state }

/-- Checks that a set is the one that created the cursor, as it was then. -/
def validate (c : Cursor π) (s : OrderedSet α) : Traced Event (Except Failure Unit × Cursor π) :=
  if c.setId ≠ s.id then
    return (.error .foreignCursor, c)
  else if c.state = .invalidated then
    return (.error (.modified c.version s.version), c)
  else if c.version ≠ s.version then do
    Traced.emit (.invalidated c.version s.version)
    return (.error (.modified c.version s.version), c.stop .invalidated)
  else
    return (.ok (), c)

/-- Goes back to the first element. The predicates keep their states. -/
def restart (c : Cursor π) (s : OrderedSet α) : Traced Event (Except Failure Unit × Cursor π) := do
  match ← c.validate s with
  | (.error e, c) => return (.error e, c)
  | (.ok (), c) =>
    return (.ok (), { c with walk := ← Walk.start s.tree c.walk.direction, state := .active })

variable [Predicate π α]

inductive Judgement where
  | yield | skip | finish
  | panic (message : String)
  deriving DecidableEq

/-- Shows an element to the predicates. The filters see only what every other predicate accepts. -/
def judge (c : Cursor π) (v : α) : Judgement × Cursor π :=
  match Predicate.testAll c.takeWhiles v with
  | (.panic m, ps) => (.panic m, { c with takeWhiles := ps })
  | (.reject, ps) => (.finish, { c with takeWhiles := ps })
  | (.accept, ps) =>
    match Predicate.testAll c.filters v with
    | (.panic m, qs) => (.panic m, { c with takeWhiles := ps, filters := qs })
    | (.accept, qs) => (.yield, { c with takeWhiles := ps, filters := qs })
    | (.reject, qs) => (.skip, { c with takeWhiles := ps, filters := qs })

/-- Walks to one more element. A panic leaves the walk behind the element under test. -/
def seekRound (a : Arena α) (c : Cursor π) :
    Except Fault (Round (Cursor π) (Except Failure (Option α) × Cursor π)) := do
  match ← c.walk.step a with
  | none => return .over (.ok none, c.stop .exhausted)
  | some (i, w) => do
    let v ← a.value i
    match { c with walk := w }.judge v with
    | (.yield, c) => return .over (.ok (some v), c)
    | (.skip, c) => return .again c
    | (.finish, c) => return .over (.ok none, c.stop .exhausted)
    | (.panic m, c) => return .over (.error (.predicate m), c)

def seek (c : Cursor π) (a : Arena α) : Except Fault (Except Failure (Option α) × Cursor π) :=
  a.loop (seekRound a) c

def next (c : Cursor π) (s : OrderedSet α) :
    Traced Event (Except Failure (Option α) × Cursor π) := do
  match ← c.validate s with
  | (.error e, c) => return (.error e, c)
  | (.ok (), c) => if c.state = .exhausted then return (.ok none, c) else c.seek s.tree

end Cursor
end RedBlack
