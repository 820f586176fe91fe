import RedBlack.Arena.Traversal
import RedBlack.OrderedSet.Basic

set_option autoImplicit false

namespace RedBlack
variable {α : Type}

structure Traversal (α : Type) where
  tree : Arena α
  walk : Walk
  /-- The number of values still to come. -/
  remaining : Nat

namespace Traversal

def next (t : Traversal α) : Except Fault (Option α × Traversal α) := do
  match ← t.walk.step t.tree with
  | none => return (none, t)
  | some (i, w) =>
    match t.remaining with
    | 0 => .error .overrun
    | n + 1 => return (some (← t.tree.value i), { t with walk := w, remaining := n })

theorem remaining_next {t u : Traversal α} {v : α} (h : t.next = .ok (some v, u)) :
    u.remaining < t.remaining := by
  unfold next at h
  cases hs : t.walk.step t.tree with
  | error e => rw [hs] at h; cases h
  | ok x =>
    rw [hs, ok_bind] at h
    cases x with
    | none => cases h
    | some x =>
      obtain ⟨i, w⟩ := x
      cases hr : t.remaining with
      | zero => simp only [hr] at h; cases h
      | succ n =>
        simp only [hr] at h
        cases hv : t.tree.value i with
        | error e => rw [hv] at h; cases h
        | ok v => rw [hv, ok_bind] at h; cases h; exact Nat.lt_succ_self n

/-- The values still to come, and the traversal after the last of them. -/
def drain (t : Traversal α) : Except Fault (List α × Traversal α) :=
  match _h : t.next with
  | .error e => .error e
  | .ok (none, u) => .ok ([], u)
  | .ok (some v, u) =>
    match u.drain with
    | .error e => .error e
    | .ok (vs, u) => .ok (v :: vs, u)
termination_by t.remaining
decreasing_by exact remaining_next (by assumption)

end Traversal

namespace OrderedSet

def traverse (s : OrderedSet α) (d : Direction) : Except Fault (Traversal α) :=
  return ⟨s.tree, ← Walk.start s.tree d, s.size⟩

def elements (s : OrderedSet α) : Except Fault (List α) :=
  return (← (← s.traverse .ascending).drain).1

end OrderedSet

structure Extraction (α : Type) where
  /-- The values not yet taken, in ascending order. -/
  values : List α

namespace Extraction

def next (e : Extraction α) : Option α × Extraction α := (e.values.head?, ⟨e.values.tail⟩)

def nextBack (e : Extraction α) : Option α × Extraction α :=
  (e.values.getLast?, ⟨e.values.dropLast⟩)

def size (e : Extraction α) : Nat := e.values.length

end Extraction

def OrderedSet.extract (s : OrderedSet α) : Except Fault (Extraction α) :=
  return ⟨← s.tree.takeSorted⟩

inductive Traversal.Step where
  | next
  | extent
  | direction
  /-- Drains a copy. -/
  | copyRest
  | rest
  deriving DecidableEq

inductive Extraction.Step where
  | next
  | nextBack
  | extent
  | rest
  /-- Drains from the back. -/
  | restBack
  deriving DecidableEq

inductive Note (α : Type) where
  | element (v : Option α)
  | elements (vs : List α)
  /-- The number of values to come, and an upper bound of it. -/
  | extent (size bound : Nat)
  | direction (d : Direction)

namespace Traversal

def perform (t : Traversal α) : Step → Except Fault (Note α × Traversal α)
  | .next => t.next.map fun (v, u) => (.element v, u)
  | .extent => .ok (.extent t.remaining t.remaining, t)
  | .direction => .ok (.direction t.walk.direction, t)
  | .copyRest => t.drain.map fun (vs, _) => (.elements vs, t)
  | .rest => t.drain.map fun (vs, u) => (.elements vs, u)

def run (t : Traversal α) : List Step → Except Fault (List (Note α))
  | [] => .ok []
  | step :: steps => do
    let (note, u) ← t.perform step
    return note :: (← u.run steps)

end Traversal

namespace Extraction

def perform (e : Extraction α) : Step → Note α × Extraction α
  | .next => (.element e.next.1, e.next.2)
  | .nextBack => (.element e.nextBack.1, e.nextBack.2)
  | .extent => (.extent e.size e.size, e)
  | .rest => (.elements e.values, ⟨[]⟩)
  | .restBack => (.elements e.values.reverse, ⟨[]⟩)

def run (e : Extraction α) : List Step → List (Note α)
  | [] => []
  | step :: steps => (e.perform step).1 :: (e.perform step).2.run steps

end Extraction
end RedBlack
