import RedBlack.OrderedSet.Action

/-!
Ordered sets as they are, or behind a lock. A panic of whoever holds the lock for writing poisons
it; it is taken all the same, with a warning every time, and the set inside behaves as it would
without a lock.
-/

set_option autoImplicit false

namespace RedBlack

structure SharedSet (α : Type) where
  inner : OrderedSet α
  poisoned : Bool

namespace SharedSet
variable {α π : Type}

def share (s : OrderedSet α) : SharedSet α := ⟨s, false⟩

def acquire (s : SharedSet α) : Traced Event (OrderedSet α) :=
  .done s.inner (if s.poisoned then [.recovered] else [])

/-- A panic while the lock is held for writing and the set is unchanged. -/
def poison (s : SharedSet α) : Traced Event (SharedSet α) := do
  return ⟨← s.acquire, true⟩

section Text
variable [Render α]

def record (s : SharedSet α) (style : Text.Style) : Except Fault Text.Record := do
  return { name := "SharedOrderedSet", fields := [("inner", (← s.inner.record).render style)] }

def ask (s : SharedSet α) (q : Query α) : Traced Event (Except Failure (Reply α)) := do
  let inner ← s.acquire
  match q with
  | .debug style => return .ok (.text ((← s.record style).render style))
  | q => inner.ask q

end Text

def update [Predicate π α] (s : SharedSet α) (u : Update α π) :
    Traced Event (Except Failure (Reply α) × SharedSet α) := do
  let (outcome, inner) ← (← s.acquire).update u
  match outcome with
  | .ok r => return (.ok r, ⟨inner, s.poisoned⟩)
  | .error e => return (.error e, ⟨inner, s.poisoned || e.isPanic⟩)

end SharedSet

inductive Holder (α : Type) where
  | plain (s : OrderedSet α)
  | shared (s : SharedSet α)

namespace Holder
variable {α π : Type}

def inner : Holder α → OrderedSet α
  | plain s => s
  | shared s => s.inner

def acquire : Holder α → Traced Event (OrderedSet α)
  | plain s => return s
  | shared s => s.acquire

def renew : Holder α → OrderedSet α → Holder α
  | plain _, s => plain s
  | shared _, s => shared (.share s)

def view (h : Holder α) : Traced Event (View α) := do (← h.acquire).view

def insertMany (h : Holder α) (vs : List α) : Traced Event (Nat × Holder α) :=
  match h with
  | plain s => do
    let (n, s) ← s.insertMany vs
    return (n, plain s)
  | shared s => do
    let (n, inner) ← (← s.acquire).insertMany vs
    return (n, shared { s with inner := inner })

def update [Predicate π α] (h : Holder α) (u : Update α π) :
    Traced Event (Except Failure (Reply α) × Holder α) :=
  match h with
  | plain s => do
    let (outcome, s) ← s.update u
    return (outcome, plain s)
  | shared s => do
    let (outcome, s) ← s.update u
    return (outcome, shared s)

section Text
variable [Render α]

def ask (h : Holder α) (q : Query α) : Traced Event (Except Failure (Reply α)) :=
  match h with
  | plain s => s.ask q
  | shared s => s.ask q

def record : Holder α → Except Fault Text.Record
  | plain s => s.record
  | shared s => s.record .compact

end Text
end Holder
end RedBlack
