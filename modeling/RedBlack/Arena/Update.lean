import RedBlack.Arena.Basic

/-!
Insertion and removal. A new value enters as a red leaf, and a red node under a red parent is
repaired from there upwards, two nodes at a time. A node with two children takes the value of its
predecessor, which leaves in its place, and a black leaf about to leave is made up for on the way
up. The last node of the arena moves to the slot of the one that left, so that an arena is never
larger than its tree.
-/

set_option autoImplicit false

namespace RedBlack

namespace Arena
variable {α : Type}

structure Descent where
  parent : Link
  side : Side
  link : Link

def descentRound (a : Arena α) (cut : α → Ordering) (d : Descent) :
    Except Fault (Round Descent (Option (Link × Side))) :=
  match d.link with
  | none => return .over (some (d.parent, d.side))
  | some i => do
    let n ← a.node i
    match cut n.value with
    | .lt => return .again ⟨some i, .left, n.left⟩
    | .gt => return .again ⟨some i, .right, n.right⟩
    | .eq => return .over none

def descend (a : Arena α) (cut : α → Ordering) : Except Fault (Option (Link × Side)) :=
  a.loop (a.descentRound cut) ⟨none, .left, a.root⟩

def attach (a : Arena α) (v : α) (parent : Link) (side : Side) : Except Fault (Arena α) :=
  let grown : Arena α := { a with nodes := a.nodes.push ⟨v, .red, parent, none, none⟩ }
  match parent with
  | some p => grown.setChild p side (some a.size)
  | none => .ok { grown with root := some a.size }

/-- The upper one of a red node and its red parent, once the lower one is on the given side. -/
def align (a : Arena α) (p i : Nat) (side : Side) : Traced Event (Arena α × Nat) := do
  if (← a.sideOf p i) = side then
    return (a, p)
  else
    return (← a.rotate p side, i)

/-- Repairs a red node under its red parent and its grandparent. A red uncle lends its colour to the
grandparent, which may now be part of a red pair itself. -/
def relieve (a : Arena α) (i p g : Nat) : Traced Event (Round (Arena α × Nat) (Arena α)) := do
  let side ← a.sideOf g p
  match ← a.redChild g side.opposite with
  | some uncle => do
    let a ← a.setColor p .black
    let a ← a.setColor uncle .black
    let a ← a.setColor g .red
    return .again (a, g)
  | none => do
    let (a, upper) ← a.align p i side
    let a ← a.setColor upper .black
    let a ← a.setColor g .red
    return .over (← a.rotate g side.opposite)

def redRound (s : Arena α × Nat) : Traced Event (Round (Arena α × Nat) (Arena α)) := do
  let (a, i) := s
  match (← a.node i).parent with
  | none => return .over (← a.setColor i .black)
  | some p => do
    let parent ← a.node p
    if parent.isRed then
      match parent.parent with
      | none => .stopped .missingGrandparent
      | some g => a.relieve i p g
    else
      return .over a

/-- Repairs the pair that a red node may form with its parent. -/
def repairRed (a : Arena α) (i : Nat) : Traced Event (Arena α) := a.loop redRound (a, i)

def insert (a : Arena α) (compare : α → α → Ordering) (v : α) : Traced Event (Bool × Arena α) := do
  match ← a.descend (compare v) with
  | none => return (false, a)
  | some (parent, side) => do
    let grown ← a.attach v parent side
    return (true, ← grown.repairRed a.size)

def swapValues (a : Arena α) (i j : Nat) : Except Fault (Arena α) :=
  if i = j then
    .error .sameNode
  else do
    let v ← a.value i
    let w ← a.value j
    (← a.setValue i w).setValue j v

/-- The child opposite to a place that is short of a black node. -/
def sibling (a : Arena α) (p : Nat) (side : Side) : Except Fault Nat := do
  match (← a.node p).child side.opposite with
  | some s => return s
  | none => .error .missingSibling

def blackSibling (a : Arena α) (p : Nat) (side : Side) : Traced Event (Arena α × Nat) := do
  let s ← a.sibling p side
  if (← a.node s).isRed then do
    let a ← a.setColor p .red
    let a ← a.setColor s .black
    let a ← a.rotate p side
    return (a, ← a.sibling p side)
  else
    return (a, s)

/-- The sibling and its red far child, after a red near child was moved into the sibling's place if
the far child is not red. -/
def expose (a : Arena α) (s : Nat) (side : Side) : Traced Event (Arena α × Nat × Nat) := do
  match ← a.redChild s side.opposite with
  | some far => return (a, s, far)
  | none =>
    match (← a.node s).child side with
    | none => .stopped .missingNephew
    | some near => do
      let a ← a.rotate s side.opposite
      let a ← a.setColor s .red
      let a ← a.setColor near .black
      return (a, near, s)

def borrow (a : Arena α) (p s : Nat) (side : Side) : Traced Event (Arena α) := do
  let (a, s, far) ← a.expose s side
  let a ← a.setColor s (← a.node p).color
  let a ← a.setColor p .black
  let a ← a.setColor far .black
  a.rotate p side

/-- Moves a black node above a place that is short of one: a red child of the black sibling, or the
blackness of the sibling, which only a red parent takes for good. -/
def borrowOrCede (a : Arena α) (p s : Nat) (side : Side) :
    Traced Event (Round (Arena α × Nat) (Arena α)) := do
  if (← a.redChild s side).isSome || (← a.redChild s side.opposite).isSome then
    return .over (← a.borrow p s side)
  else do
    let a ← a.setColor s .red
    if (← a.node p).isRed then
      return .over (← a.setColor p .black)
    else
      return .again (a, p)

def deficitRound (s : Arena α × Nat) : Traced Event (Round (Arena α × Nat) (Arena α)) := do
  let (a, i) := s
  match (← a.node i).parent with
  | none => return .over a
  | some p => do
    let side ← a.sideOf p i
    let (a, s) ← a.blackSibling p side
    a.borrowOrCede p s side

/-- Makes up for a black leaf that is about to leave. -/
def repairDeficit (a : Arena α) (i : Nat) : Traced Event (Arena α) := a.loop deficitRound (a, i)

/-- The node to leave for the value at `i`, with that value in it. -/
def yield (a : Arena α) (i : Nat) : Except Fault (Arena α × Nat) := do
  let n ← a.node i
  match n.left, n.right with
  | some l, some _ => do
    let j ← a.extremeFrom .right l
    return (← a.swapValues i j, j)
  | _, _ => return (a, i)

def bypass (a : Arena α) (i : Nat) (child : Link) : Except Fault (Arena α) := do
  let parent := (← a.node i).parent
  let a ← a.adopt child parent
  a.replaceChild parent i child

/-- Unlinks a node with one child at most. A red child takes over the colour of a black node, and a
black leaf is made up for. -/
def splice (a : Arena α) (i : Nat) : Traced Event (Arena α) := do
  let n ← a.node i
  let child := n.left.or n.right
  let a ← if n.isRed then pure a else
    match child with
    | some c => a.setColor c .black
    | none => a.repairDeficit i
  a.bypass i child

/-- Takes a node that nothing links to out of the arena. The last node moves to its slot. -/
def release (a : Arena α) (i : Nat) : Except Fault (α × Arena α) := do
  let removed ← a.node i
  let last := a.size - 1
  let moved ← a.node last
  let a : Arena α := { a with nodes := (a.nodes.setIfInBounds i moved).pop }
  if i = last then
    return (removed.value, a)
  else
    let a ← a.replaceChild moved.parent last (some i)
    let a ← a.adopt moved.left (some i)
    let a ← a.adopt moved.right (some i)
    return (removed.value, a)

def removeNode (a : Arena α) (i : Nat) : Traced Event (α × Arena α) := do
  let (a, j) ← a.yield i
  (← a.splice j).release j

end Arena
end RedBlack
