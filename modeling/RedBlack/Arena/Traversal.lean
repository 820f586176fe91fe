import RedBlack.Arena.Basic
import RedBlack.Text
import RedBlack.Tree.Basic

set_option autoImplicit false

namespace RedBlack
variable {α : Type}

def Arena.spineRound (a : Arena α) (side : Side) (s : List Nat × Link) :
    Except Fault (Round (List Nat × Link) (List Nat)) :=
  match s with
  | (stack, none) => return .over stack
  | (stack, some i) => return .again (i :: stack, (← a.node i).child side)

def Arena.pushSpine (a : Arena α) (side : Side) (stack : List Nat) (l : Link) :
    Except Fault (List Nat) :=
  a.loop (a.spineRound side) (stack, l)

def bitLength (n : Nat) : Nat := if n = 0 then 0 else n.log2 + 1

/-- The room for a stack that is set aside before a walk. -/
def Arena.stackCapacity (a : Arena α) : Nat := 2 * bitLength a.size

structure Walk where
  direction : Direction
  /-- The next node first; the side of each that is met first has been visited. -/
  stack : List Nat
  deriving DecidableEq

namespace Walk

def start (a : Arena α) (d : Direction) : Except Fault Walk :=
  return ⟨d, ← a.pushSpine d.firstSide [] a.root⟩

def ended (d : Direction) : Walk := ⟨d, []⟩

def step (a : Arena α) (w : Walk) : Except Fault (Option (Nat × Walk)) :=
  match w.stack with
  | [] => .ok none
  | i :: rest => do
    let l := (← a.node i).child w.direction.firstSide.opposite
    return some (i, { w with stack := ← a.pushSpine w.direction.firstSide rest l })

end Walk

namespace Arena

def indexRound (a : Arena α) (s : Walk × List Nat) :
    Except Fault (Round (Walk × List Nat) (List Nat)) := do
  match ← s.1.step a with
  | some (i, w) => return .again (w, i :: s.2)
  | none => return .over s.2.reverse

def indices (a : Arena α) : Except Fault (List Nat) := do
  a.loop a.indexRound (← Walk.start a .ascending, [])

/-- What is found in some slots, each of which is empty afterwards. -/
def takeSlots (slots : Array (Option α)) : List Nat → Except Fault (List α)
  | [] => .ok []
  | i :: is =>
    match slots[i]? with
    | none => .error .danglingIndex
    | some slot => return slot.toList ++ (← takeSlots (slots.setIfInBounds i none) is)

def takeSorted (a : Arena α) : Except Fault (List α) := do
  takeSlots (a.nodes.map fun n => some n.value) (← a.indices)

end Arena

namespace Drawing

def mark : Side → List Char
  | .left => "┌    ".toList
  | .right => "└    ".toList

def label (text : α → String) (c : Color) (v : α) : List Char :=
  '(' :: (text v).toList ++ [':', ' ', c.letter, ')']

def join (text : α → String) (c : Color) (v : α) (above below : List Char) : List Char :=
  Text.markLines (mark .left) above ++ '\n' :: label text c v ++
    '\n' :: Text.markLines (mark .right) below

end Drawing

def Tree.draw (text : α → String) : Tree α → List Char
  | .nil => ['-']
  | .node c l v r => Drawing.join text c v (l.draw text) (r.draw text)

namespace Arena

/-- Draws what is behind a link, which may be so many nodes deep. -/
def drawWithin (a : Arena α) (text : α → String) : Nat → Link → Except Fault (List Char)
  | _, none => .ok ['-']
  | 0, some _ => .error .endless
  | depth + 1, some i => do
    let n ← a.node i
    let above ← a.drawWithin text depth n.left
    let below ← a.drawWithin text depth n.right
    return Drawing.join text n.color n.value above below

def draw (a : Arena α) (text : α → String) : Except Fault (List Char) :=
  a.drawWithin text a.size a.root

end Arena
end RedBlack
