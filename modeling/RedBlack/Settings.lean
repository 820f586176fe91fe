import RedBlack.Text

set_option autoImplicit false

namespace RedBlack

/-- The order that comes with the elements, or one supplied by the user of a set. Sets of different
families are values of different kinds even if their orders agree. -/
inductive Comparator.Family where
  | natural | custom
  deriving DecidableEq

structure Comparator (α : Type) where
  name : String
  family : Comparator.Family
  compare : α → α → Ordering

def Comparator.natural (α : Type) [Ord α] : Comparator α := ⟨"Natural", .natural, Ord.compare⟩

structure Settings (α : Type) where
  comparator : Comparator α
  /-- Copies an element more thoroughly than using it twice would. -/
  deepCopy : Option (α → α)
  /-- A hint, without effect on the set itself. -/
  concurrent : Bool

namespace Settings
variable {α : Type}

def copy (s : Settings α) (v : α) : α :=
  match s.deepCopy with
  | some f => f v
  | none => v

def record (s : Settings α) : Text.Record where
  name := "SetOptions"
  fields := [("comparator", s.comparator.name), ("deep_copy", toString s.deepCopy.isSome),
    ("concurrent", toString s.concurrent)]

end Settings

inductive Verdict where
  | accept
  | reject
  | panic (message : String)
  deriving DecidableEq

def Verdict.ofBool (b : Bool) : Verdict := if b then .accept else .reject

def Verdict.negate : Verdict → Verdict
  | .accept => .reject
  | .reject => .accept
  | .panic m => .panic m

/-- A state `π` answers about an element and becomes the state that answers next. -/
class Predicate (π : Type) (α : outParam Type) where
  test : π → α → Verdict × π

variable {π α : Type} [Predicate π α]

/-- Asks predicates one after the other up to the first that does not accept. -/
def Predicate.testAll : List π → α → Verdict × List π
  | [], _ => (.accept, [])
  | p :: ps, v =>
    match Predicate.test p v with
    | (.accept, p) => ((testAll ps v).1, p :: (testAll ps v).2)
    | (verdict, p) => (verdict, p :: ps)

end RedBlack
