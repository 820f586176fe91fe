import RedBlack.Algebra
import RedBlack.Arena.Traversal
import RedBlack.Cursor
import RedBlack.OrderedSet.Basic
import RedBlack.OrderedSet.Traversal
import RedBlack.Text

/-!
Everything that can be asked of one set, or done to it, as data. A query leaves the set alone; an
update gives an answer and the set after it.
-/

set_option autoImplicit false

namespace RedBlack

namespace OrderedSet
variable {α : Type} [Render α]

def text (s : OrderedSet α) : Except Fault String := do
  let vs ← s.elements
  return "\x7b" ++ ", ".intercalate (vs.map Render.plain) ++ "\x7d"

def record (s : OrderedSet α) : Except Fault Text.Record := do
  let drawing ← s.tree.draw Render.debug
  return {
    name := "OrderedSet"
    fields := [("nodes", "\n" ++ String.ofList drawing ++ "\n"), ("len", toString s.size),
      ("version", toString s.version), ("concurrent", toString s.settings.concurrent)] }

end OrderedSet

inductive Query (α : Type) where
  | size | isEmpty | version | isConcurrent
  | contains (v : α)
  | get (v : α)
  /-- The outermost value, or a failure if there is none. -/
  | extreme (side : Side)
  | tryExtreme (side : Side)
  | elements | deepElements
  | text
  | debug (style : Text.Style)
  | settings
  | traverse (d : Direction) (script : List Traversal.Step)

inductive Update (α π : Type) where
  | insert (v : α)
  | insertMany (vs : List α)
  /-- Inserts values without counting the new ones. -/
  | extend (vs : List α)
  | remove (v : α)
  | take (v : α)
  | pop (side : Side)
  | clear
  | retain (p : π)

inductive Reply (α : Type) where
  | done
  | flag (b : Bool)
  | number (n : Nat)
  | element (v : Option α)
  | elements (vs : List α)
  | text (s : String)
  | settings (s : Settings α)
  | notes (ns : List (Note α))

variable {α π : Type}

namespace OrderedSet

def extreme (s : OrderedSet α) (side : Side) : Except Fault (Except Failure α) := do
  match ← s.extreme? side with
  | some v => return .ok v
  | none => return .error .emptySet

def ask [Render α] (s : OrderedSet α) : Query α → Except Fault (Except Failure (Reply α))
  | .size => return .ok (.number s.size)
  | .isEmpty => return .ok (.flag s.isEmpty)
  | .version => return .ok (.number s.version)
  | .isConcurrent => return .ok (.flag s.settings.concurrent)
  | .contains v => return .ok (.flag (← s.contains v))
  | .get v => return .ok (.element (← s.get? v))
  | .extreme side => return (← s.extreme side).map fun v => .element (some v)
  | .tryExtreme side => return .ok (.element (← s.extreme? side))
  | .elements => return .ok (.elements (← s.elements))
  | .deepElements => return .ok (.elements ((← s.elements).map s.settings.copy))
  | .text => return .ok (.text (← s.text))
  | .debug style => return .ok (.text ((← s.record).render style))
  | .settings => return .ok (.settings s.settings)
  | .traverse d script => return .ok (.notes (← (← s.traverse d).run script))

variable [Predicate π α]

def update (s : OrderedSet α) : Update α π → Traced Event (Except Failure (Reply α) × OrderedSet α)
  | .insert v => do
    let (new, s) ← s.insert v
    return (.ok (.flag new), s)
  | .insertMany vs => do
    let (n, s) ← s.insertMany vs
    return (.ok (.number n), s)
  | .extend vs => do
    let (_, s) ← s.insertMany vs
    return (.ok .done, s)
  | .remove v => do
    let (found, s) ← s.remove v
    return (.ok (.flag found), s)
  | .take v => do
    let (v, s) ← s.take v
    return (.ok (.element v), s)
  | .pop side => do
    let (v, s) ← s.pop side
    return (.ok (.element v), s)
  | .clear => do return (.ok .done, ← s.clear)
  | .retain p => do
    let kept ← s.retain p
    return (kept.outcome.map .number, kept.set)

end OrderedSet
end RedBlack
