set_option autoImplicit false

namespace RedBlack

inductive Side where
  | left | right
  deriving DecidableEq

def Side.opposite : Side → Side
  | .left => .right
  | .right => .left

def Side.name : Side → String
  | .left => "Left"
  | .right => "Right"

@[simp] theorem Side.opposite_opposite (s : Side) : s.opposite.opposite = s := by
  cases s <;> rfl

def Side.ordering : Side → Ordering
  | .left => .lt
  | .right => .gt

inductive Direction where
  | ascending | descending
  deriving DecidableEq

def Direction.firstSide : Direction → Side
  | .ascending => .left
  | .descending => .right

def Direction.name : Direction → String
  | .ascending => "Ascending"
  | .descending => "Descending"

inductive Color where
  | red | black
  deriving DecidableEq

def Color.letter : Color → Char
  | .red => 'R'
  | .black => 'B'

inductive Tree (α : Type) where
  | nil
  | node (color : Color) (left : Tree α) (value : α) (right : Tree α)
  deriving DecidableEq

namespace Tree
variable {α β γ : Type}

def toList : Tree α → List α
  | nil => []
  | node _ l v r => l.toList ++ v :: r.toList

def count : Tree α → Nat
  | nil => 0
  | node _ l _ r => l.count + 1 + r.count

def height : Tree α → Nat
  | nil => 0
  | node _ l _ r => max l.height r.height + 1

def isRed : Tree α → Bool
  | node .red _ _ _ => true
  | _ => false

def paint (c : Color) : Tree α → Tree α
  | nil => nil
  | node _ l v r => node c l v r

def child (t : Tree α) (side : Side) : Tree α :=
  match t, side with
  | nil, _ => nil
  | node _ l _ _, .left => l
  | node _ _ _ r, .right => r

def branch : Side → Color → Tree α → α → Tree α → Tree α
  | .left, c, t, v, u => node c t v u
  | .right, c, t, v, u => node c u v t

def paintChild (side : Side) (c : Color) : Tree α → Tree α
  | nil => nil
  | node d l v r =>
    match side with
    | .left => node d (l.paint c) v r
    | .right => node d l v (r.paint c)

def map (f : α → β) : Tree α → Tree β
  | nil => nil
  | node c l v r => node c (l.map f) (f v) (r.map f)

/-- The stored value a search meets, where `cut v` says on which side of `v` to go on. -/
def find? (cut : α → Ordering) : Tree α → Option α
  | nil => none
  | node _ l v r =>
    match cut v with
    | .lt => l.find? cut
    | .gt => r.find? cut
    | .eq => some v

@[simp] theorem paint_branch (s : Side) (c d : Color) (t : Tree α) (v : α) (u : Tree α) :
    (branch s c t v u).paint d = branch s d t v u := by
  cases s <;> rfl

@[simp] theorem child_branch_self (s : Side) (c : Color) (t : Tree α) (v : α) (u : Tree α) :
    (branch s c t v u).child s = t := by
  cases s <;> rfl

@[simp] theorem child_branch_opposite (s : Side) (c : Color) (t : Tree α) (v : α) (u : Tree α) :
    (branch s c t v u).child s.opposite = u := by
  cases s <;> rfl

@[simp] theorem child_paint (c : Color) (t : Tree α) (s : Side) :
    (t.paint c).child s = t.child s := by
  cases t <;> cases s <;> rfl

@[simp] theorem child_paintChild_self (c : Color) (t : Tree α) (s : Side) :
    (t.paintChild s c).child s = (t.child s).paint c := by
  cases t <;> cases s <;> rfl

@[simp] theorem paintChild_branch_opposite (s : Side) (c d : Color) (t : Tree α) (v : α)
    (u : Tree α) : (branch s c t v u).paintChild s.opposite d = branch s c t v (u.paint d) := by
  cases s <;> rfl

@[simp] theorem paint_paint (c d : Color) (t : Tree α) : (t.paint c).paint d = t.paint d := by
  cases t <;> rfl

@[simp] theorem paintChild_paint_paintChild (s : Side) (c d e : Color) (t : Tree α) :
    ((t.paintChild s c).paint d).paintChild s e = (t.paint d).paintChild s e := by
  cases t with
  | nil => rfl
  | node f l v r =>
    cases s with
    | left => exact congrArg (fun x => node d x v r) (paint_paint c e l)
    | right => exact congrArg (node d l v) (paint_paint c e r)

@[simp] theorem toList_nil : (nil : Tree α).toList = [] := rfl

@[simp] theorem toList_node (c : Color) (l : Tree α) (v : α) (r : Tree α) :
    (node c l v r).toList = l.toList ++ v :: r.toList := rfl

@[simp] theorem toList_paint (c : Color) (t : Tree α) : (t.paint c).toList = t.toList := by
  cases t <;> rfl

@[simp] theorem toList_paintChild (s : Side) (c : Color) (t : Tree α) :
    (t.paintChild s c).toList = t.toList := by
  cases t <;> cases s <;> simp [paintChild]

@[simp] theorem toList_map (f : α → β) (t : Tree α) : (t.map f).toList = t.toList.map f := by
  induction t with
  | nil => rfl
  | node c l v r hl hr => simp [map, hl, hr]

theorem map_map (f : α → β) (g : β → γ) (t : Tree α) : (t.map f).map g = t.map (g ∘ f) := by
  induction t with
  | nil => rfl
  | node c l v r hl hr => simp only [map, hl, hr, Function.comp]

theorem length_toList (t : Tree α) : t.toList.length = t.count := by
  induction t with
  | nil => rfl
  | node c l v r hl hr => simp [count, hl, hr]; omega

theorem height_branch (s : Side) (c : Color) (t : Tree α) (v : α) (u : Tree α) :
    (branch s c t v u).height = max t.height u.height + 1 := by
  cases s
  · rfl
  · simp only [branch, height, Nat.max_comm]

theorem height_le_count (t : Tree α) : t.height ≤ t.count := by
  induction t with
  | nil => exact Nat.le_refl 0
  | node c l v r hl hr => simp only [height, count]; omega

end Tree
end RedBlack
