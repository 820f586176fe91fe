import RedBlack.Container

set_option autoImplicit false

namespace RedBlack

inductive Kind where
  | plain | shared | sorted | unordered
  deriving DecidableEq

structure Recipe (α : Type) where
  kind : Kind
  settings : Settings α
  items : List α

inductive Derivation where
  | clone | deepClone | emptyLike
  deriving DecidableEq

inductive SetTask (α π : Type) where
  | count
  | snapshot
  | insertMany (items : Option (List α))
  | view (v : Option α)
  | visit (p : Option π)
  | query (q : Option (Query α))
  | update (u : Option (Update α π))
  | removeEach (items : Option (List α))
  /-- Size, emptiness and version, each asked for on its own. -/
  | extent
  | poison
  | derive (d : Derivation)
  | share
  | unshare
  | move
  | consume (script : Option (List Extraction.Step))
  | combine (kind : Option Combination)
  /-- Combines two sets of one family. -/
  | operator (kind : Combination)
  | relate (r : Option Relation)
  | sizes
  | equal
  | unknown

/-- Requests about a cursor; all but the first four use it with the container in a slot. -/
inductive CursorTask (α π : Type) where
  | create (d : Option Direction)
  | filter (p : Option π)
  | takeWhile (p : Option π)
  | info
  | next (count : Option Nat)
  | drain
  | restart
  | replace (v : Option α)

inductive Task (α π : Type) where
  | create (recipe : Option (Recipe α))
  | onSet (t : SetTask α π)
  | onCursor (name : Option String) (t : CursorTask α π)
  | missing

structure Request (α π : Type) where
  /-- The slot the request is about. -/
  subject : Option String
  /-- The slot a result goes to. -/
  target : Option String
  /-- The slot of the right operand. A request may name one that it does not use. -/
  other : Option String
  task : Task α π

variable {α π : Type}

def SetTask.reports : SetTask α π → Bool
  | count | insertMany _ | update _ | removeEach _ | extent | poison | derive _ | share | unshare
  | move => true
  | query (some .isConcurrent) => true
  | _ => false

/-- Whether the answer shows the state of a slot. -/
def Request.reports (r : Request α π) : Bool :=
  match r.task with
  | .create _ => true
  | .onSet t => t.reports
  | _ => false

inductive Refusal where
  | badInput | noSuchSet | noSuchCursor | unsupported
  deriving DecidableEq

def Refusal.name : Refusal → String
  | .badInput => "BadInput"
  | .noSuchSet => "NoSuchSet"
  | .noSuchCursor => "NoSuchCursor"
  | .unsupported => "Unsupported"

inductive Detail where
  | sizes | items | drawing
  deriving DecidableEq

inductive Content (α : Type) where
  | none
  | items (vs : List α)
  | drawing (text : String)

structure Portrait (α : Type) where
  size : Nat
  version : Nat
  content : Content α

inductive Response (α : Type) where
  | reply (r : Reply α)
  | replies (rs : List (Reply α))
  | result (concurrent : Bool) (p : Portrait α)
  | cursor (d : Direction) (invalidated : Bool) (text : String)
  /-- What calls of a cursor gave, one after the other. -/
  | yields (ys : List (Except Failure (Option α)))
  /-- The element that a cursor gave and that could not be replaced, with what came of trying and
  of forcing it. -/
  | replacement (attempt force : Failure) (v : α)

inductive Outcome (α : Type) where
  | responded (r : Response α)
  | refused (r : Refusal)
  | failed (e : Failure)

structure Answer (α : Type) where
  outcome : Outcome α
  portrait : Option (Portrait α)
  log : List String

def Outcome.replied (r : Reply α) : Outcome α := .responded (.reply r)

def Outcome.ofExcept : Except Failure (Reply α) → Outcome α
  | .ok r => .replied r
  | .error e => .failed e

end RedBlack
