import RedBlack.Traced
import RedBlack.Tree.Basic

/-!
Arenas: nodes in an array that refer to each other, and to their parents, by index. The root is the
only way in. Looking up an index that is out of bounds is a fault.
-/

set_option autoImplicit false

namespace RedBlack

abbrev Link := Option Nat

structure Node (α : Type) where
  value : α
  color : Color
  parent : Link
  left : Link
  right : Link

variable {α β σ : Type}

namespace Node

def isRed (n : Node α) : Bool := n.color = .red

def child (n : Node α) : Side → Link
  | .left => n.left
  | .right => n.right

def withChild (n : Node α) (side : Side) (l : Link) : Node α :=
  match side with
  | .left => { n with left := l }
  | .right => { n with right := l }

def map (f : α → β) (n : Node α) : Node β := ⟨f n.value, n.color, n.parent, n.left, n.right⟩

end Node

structure Arena (α : Type) where
  nodes : Array (Node α)
  root : Link

namespace Arena

def empty : Arena α := ⟨#[], none⟩

def size (a : Arena α) : Nat := a.nodes.size

def node (a : Arena α) (i : Nat) : Except Fault (Node α) :=
  match a.nodes[i]? with
  | some n => .ok n
  | none => .error .danglingIndex

def value (a : Arena α) (i : Nat) : Except Fault α := return (← a.node i).value

def modify (a : Arena α) (i : Nat) (f : Node α → Node α) : Except Fault (Arena α) :=
  if i < a.nodes.size then
    .ok { a with nodes := a.nodes.modify i f }
  else
    .error .danglingIndex

def setValue (a : Arena α) (i : Nat) (v : α) : Except Fault (Arena α) :=
  a.modify i fun n => { n with value := v }

def setColor (a : Arena α) (i : Nat) (c : Color) : Except Fault (Arena α) :=
  a.modify i fun n => { n with color := c }

def setParent (a : Arena α) (i : Nat) (l : Link) : Except Fault (Arena α) :=
  a.modify i fun n => { n with parent := l }

def setChild (a : Arena α) (i : Nat) (side : Side) (l : Link) : Except Fault (Arena α) :=
  a.modify i fun n => n.withChild side l

def adopt (a : Arena α) (l parent : Link) : Except Fault (Arena α) :=
  match l with
  | some i => a.setParent i parent
  | none => .ok a

def sideOf (a : Arena α) (parent i : Nat) : Except Fault Side :=
  return if (← a.node parent).left = some i then .left else .right

def replaceChild (a : Arena α) (parent : Link) (i : Nat) (l : Link) : Except Fault (Arena α) :=
  match parent with
  | some p => do a.setChild p (← a.sideOf p i) l
  | none => .ok { a with root := l }

def redChild (a : Arena α) (i : Nat) (side : Side) : Except Fault Link := do
  match (← a.node i).child side with
  | some j => return if (← a.node j).isRed then some j else none
  | none => return none

/-- A loop that visits no node twice, so that it has no more rounds than there are nodes, and a last
one that finds none. -/
def loop {m : Type → Type} [Monad m] [MonadLiftT (Except Fault) m] (a : Arena α)
    (body : σ → m (Round σ β)) (s : σ) : m β :=
  RedBlack.loop body (a.size + 1) s

def map (f : α → β) (a : Arena α) : Arena β where
  nodes := a.nodes.map (Node.map f)
  root := a.root

/-- Moves a node down towards a side and promotes its child on the other. -/
def rotate (a : Arena α) (i : Nat) (toward : Side) : Traced Event (Arena α) := do
  let n ← a.node i
  match n.child toward.opposite with
  | none => .stopped .missingPivot
  | some pivot => do
    Traced.emit (.rotated ⟨toward, i, pivot⟩)
    let inner := (← a.node pivot).child toward
    let a ← a.setChild i toward.opposite inner
    let a ← a.adopt inner (some i)
    let a ← a.setParent pivot n.parent
    let a ← a.replaceChild n.parent i (some pivot)
    let a ← a.setChild pivot toward (some i)
    a.setParent i (some pivot)

def searchRound (a : Arena α) (cut : α → Ordering) : Link → Except Fault (Round Link Link)
  | none => return .over none
  | some i => do
    let n ← a.node i
    match cut n.value with
    | .lt => return .again n.left
    | .gt => return .again n.right
    | .eq => return .over (some i)

/-- The node a search meets, where `cut v` says on which side of `v` to go on. -/
def lookup (a : Arena α) (cut : α → Ordering) : Except Fault Link :=
  a.loop (a.searchRound cut) a.root

def extremeRound (a : Arena α) (side : Side) (i : Nat) : Except Fault (Round Nat Nat) := do
  match (← a.node i).child side with
  | some j => return .again j
  | none => return .over i

def extremeFrom (a : Arena α) (side : Side) (i : Nat) : Except Fault Nat :=
  a.loop (a.extremeRound side) i

def extreme (a : Arena α) (side : Side) : Except Fault Link :=
  match a.root with
  | some i => return some (← a.extremeFrom side i)
  | none => .ok none

end Arena
end RedBlack
