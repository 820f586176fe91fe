import RedBlack.Workspace.Basic

set_option autoImplicit false

namespace RedBlack

variable {α π : Type} [Predicate π α]

def Holder.next (h : Holder α) (c : Cursor π) :
    Traced Event (Except Failure (Option α) × Cursor π) := do
  c.next (← h.acquire)

def Holder.nextMany (h : Holder α) (c : Cursor π) :
    Nat → Traced Event (List (Except Failure (Option α)) × Cursor π)
  | 0 => return ([], c)
  | n + 1 => do
    let (y, c) ← h.next c
    let (ys, c) ← h.nextMany c n
    return (y :: ys, c)

/-- Calls of a cursor until it ends or fails; the failure is part of the answer. At most so many
calls may succeed. -/
def Holder.drainWithin (h : Holder α) (c : Cursor π) :
    Nat → Traced Event (List (Except Failure (Option α)) × Cursor π)
  | 0 => .stopped .overrun
  | n + 1 => do
    let (y, c) ← h.next c
    match y with
    | .ok none => return ([], c)
    | .error e => return ([.error e], c)
    | .ok (some v) => do
      let (ys, c) ← h.drainWithin c n
      return (.ok (some v) :: ys, c)

/-- Calls of a cursor until it ends or fails. A set has no more elements than its size, so that
many calls and one are enough. -/
def Holder.drain (h : Holder α) (c : Cursor π) :
    Traced Event (List (Except Failure (Option α)) × Cursor π) :=
  h.drainWithin c (h.inner.size + 1)

namespace Workspace

def keep (w : Workspace α π) (name : String) (c : Cursor π) : Workspace α π :=
  { w with cursors := w.cursors.put name c }

def withCursor (w : Workspace α π) (name : String) (go : Cursor π → Traced Event (Step α π)) :
    Traced Event (Step α π) :=
  match w.cursors.get? name with
  | none => w.refuse .noSuchCursor
  | some c => go c

def replacement (y : Option α) : Response α :=
  match y with
  | none => .reply (.element none)
  | some v => .replacement .readOnlyElement .readOnlyElement v

def useCursor (w : Workspace α π) (name : String) (c : Cursor π) (h : Holder α) :
    CursorTask α π → Traced Event (Step α π)
  | .next count => w.withPart count fun n => do
    let (ys, c) ← h.nextMany c n
    return (.responded (.yields ys), w.keep name c)
  | .drain => do
    let (ys, c) ← h.drain c
    return (.responded (.yields ys), w.keep name c)
  | .restart => do
    let (outcome, c) ← c.restart (← h.acquire)
    return (.ofExcept (outcome.map fun _ => .done), w.keep name c)
  | .replace v => w.withPart v fun _ => do
    let (y, c) ← h.next c
    match y with
    | .error e => return (.failed e, w.keep name c)
    | .ok y => return (.responded (replacement y), w.keep name c)
  | _ => w.refuse .badInput

def onCursor (w : Workspace α π) (subject : Option String) (name : String) :
    CursorTask α π → Traced Event (Step α π)
  | .create d => w.withSet subject fun _ s => w.withHolder s fun h => w.withPart d fun d => do
    let s ← h.acquire
    return (.replied .done, w.keep name (← s.cursor d))
  | .filter p => w.withPart p fun p => w.withCursor name fun c =>
    return (.replied .done, w.keep name (c.filter p))
  | .takeWhile p => w.withPart p fun p => w.withCursor name fun c =>
    return (.replied .done, w.keep name (c.takeWhile p))
  | .info => w.withCursor name fun c =>
    return (.responded (.cursor c.walk.direction c.isInvalidated (c.record.render .compact)), w)
  | task => w.withCursor name fun c => w.withSet subject fun _ s => w.withHolder s fun h =>
    w.useCursor name c h task

variable [BEq α] [Ord α] [Render α]

def withOperand (w : Workspace α π) (name : String) (other : Option String)
    (go : Container α → Operand α → Traced Event (Step α π)) : Traced Event (Step α π) :=
  w.withSet other fun otherName c => go c (if otherName = name then .itself else .other c)

def derive (w : Workspace α π) (h : Holder α) (target : Option String) (d : Derivation) :
    Traced Event (Step α π) :=
  w.withPart target fun target => do
    let s ← h.acquire
    let s := match d with
      | .clone => s.clone w.nextId
      | .deepClone => s.deepClone w.nextId
      | .emptyLike => s.emptyLike w.nextId
    return (.replied .done, { w.store target (.ordered (.plain s)) with nextId := w.nextId + 1 })

/-- Shows a new set, by its values or its shape, and stores it if there is a slot for it. -/
def collect (w : Workspace α π) (detail : Detail) (target : Option String) (result : Holder α) :
    Except Fault (Step α π) := do
  let shown ← portrait result (if detail = .drawing then .drawing else .items)
  let w := { w with nextId := w.nextId + 1 }
  let w := match target with
    | some target => w.store target (.ordered result)
    | none => w
  return (.responded (.result result.inner.settings.concurrent shown), w)

/-- Combines a set with an operand. The elements of an unordered operand come in any order, so the
shape of such a result is not shown. -/
def combine (w : Workspace α π) (detail : Detail) (h : Holder α) (target : Option String)
    (kind : Combination) (c : Container α) (operand : Operand α) : Traced Event (Step α π) := do
  let result ← h.combine kind w.nextId operand
  w.collect (if c.isUnordered then .items else detail) target result

def alike? (a b : Container α) : Option (OrderedSet α × OrderedSet α) := do
  let s ← a.plain?
  let t ← b.plain?
  if s.settings.comparator.family = t.settings.comparator.family then some (s, t) else none

def withAlike (w : Workspace α π) (a b : Container α)
    (go : OrderedSet α → OrderedSet α → Traced Event (Step α π)) : Traced Event (Step α π) :=
  match alike? a b with
  | none => w.refuse .unsupported
  | some (s, t) => go s t

def onHolder (w : Workspace α π) (name : String) (target : Option String) (h : Holder α) :
    SetTask α π → Traced Event (Step α π)
  | .query q => w.withPart q fun q => w.query h q
  | .update u => w.withPart u fun u => do
    let (outcome, h) ← h.update u
    return (.ofExcept outcome, w.store name (.ordered h))
  | .removeEach items => w.withPart items fun vs => do
    let (marks, h) ← removeEach (π := π) h vs
    return (.replied (.text (String.ofList marks)), w.store name (.ordered h))
  | .extent => do
    match ← askEach h [.size, .isEmpty, .version] with
    | .ok rs => return (.responded (.replies rs), w)
    | .error e => return (.failed e, w)
  | .poison =>
    match h with
    | .plain _ => w.refuse .badInput
    | .shared s => do
      return (.replied .done, w.store name (.ordered (.shared (← s.poison))))
  | .derive d => w.derive h target d
  | .share =>
    match h with
    | .plain s => return (.replied .done,
        w.relocate name (target.getD name) (.ordered (.shared (.share s))))
    | .shared _ => w.refuse .unsupported
  | .unshare =>
    match h with
    | .shared s => return (.replied .done,
        w.relocate name (target.getD name) (.ordered (.plain s.inner)))
    | .plain _ => w.refuse .unsupported
  | .consume script => w.withPart script fun script => do
    let notes := (← h.inner.extract).run script
    return (.replied (.notes notes), { w with sets := w.sets.erase name })
  | _ => w.refuse .badInput

def onSet (w : Workspace α π) (detail : Detail) (name : String)
    (target other : Option String) (c : Container α) : SetTask α π → Traced Event (Step α π)
  | .count => do return (.replied (.number (← c.view).size), w)
  | .snapshot => do return (.replied (.elements (← c.snapshot)), w)
  | .insertMany items => w.withPart items fun vs => do
    let (n, c) ← c.insertMany vs
    return (.replied (.number n), w.store name c)
  | .view v => w.withPart v fun v => do
    let view ← c.view
    let found ← view.contains v
    return (.responded (.replies [.number view.size, .flag view.isEmpty, .flag found]), w)
  | .visit p => w.withPart p fun p => do
    return (.ofExcept ((visited p (← c.view).elements).map .elements), w)
  | .move => return (.replied .done, w.relocate name (target.getD name) c)
  | .combine kind => w.withOperand name other fun o operand => w.withHolder c fun h =>
    w.withPart kind fun kind => w.combine detail h target kind o operand
  | .operator kind => w.withOperand name other fun _ operand =>
    w.withAlike c (operand.beside c) fun s t => do
      w.collect detail target (.plain (← s.operate t kind w.nextId))
  | .relate r => w.withOperand name other fun _ operand => w.withPart r fun r => do
    let (a, b) ← c.views operand
    return (.replied (.flag (← r.holds a b)), w)
  | .sizes => w.withOperand name other fun _ operand => do
    let (a, b) ← c.views operand
    return (.responded (.replies [.number a.size, .number b.size]), w)
  | .equal => w.withOperand name other fun o _ => w.withAlike c o fun s t => do
    return (.replied (.flag (← s.equal t)), w)
  | task => w.withHolder c fun h => w.onHolder name target h task

def perform (w : Workspace α π) (detail : Detail) (r : Request α π) : Traced Event (Step α π) :=
  match r.task with
  | .create recipe =>
    w.withPart r.subject fun name => w.withPart recipe fun recipe => w.create name recipe
  | .onSet task => w.withSet r.subject fun name c => w.onSet detail name r.target r.other c task
  | .onCursor name task => w.withPart name fun name => w.onCursor r.subject name task
  | .missing => w.refuse .badInput

def shown (w : Workspace α π) (detail : Detail) (r : Request α π) :
    Except Fault (Option (Portrait α)) :=
  match (if r.reports then r.target.or r.subject else none).bind w.sets.get? with
  | some (.ordered h) => (portrait h detail).map some
  | _ => .ok none

def scattered (w : Workspace α π) (r : Request α π) : Bool :=
  match r.other.bind w.sets.get? with
  | some c => c.isUnordered
  | none => false

/-- What an answer shows of some events: their lines without the indices of nodes. Rotations may
depend on the order of an unordered operand: beside one they are left out, whether or not it was
used. -/
def log (scattered : Bool) (es : List Event) : List String :=
  (es.filter fun e => !(scattered && e.isRotation)).map Event.outline

/-- The answer to a request and the workspace after it. -/
def answer (w : Workspace α π) (detail : Detail) (r : Request α π) : Answer α × Workspace α π :=
  match w.perform detail r with
  | .stopped f => (⟨.failed (.broken f), none, []⟩, w)
  | .done (outcome, w') es =>
    match w'.shown detail r with
    | .error f => (⟨.failed (.broken f), none, []⟩, w)
    | .ok shown => (⟨outcome, shown, log (w'.scattered r) es⟩, w')

/-- Requests whose answers, at once or later, would tell in which order an unordered set happens to
come. -/
def withheld (w : Workspace α π) (r : Request α π) : Bool :=
  match r.task, r.subject.bind w.sets.get? with
  | .onSet (.visit _), some c => c.isUnordered
  | .onSet (.combine (some _)), some (.ordered _) => r.target.isSome && w.scattered r
  | _, _ => false

/-- The answers to requests one after the other. Those to be withheld are not carried out. -/
def answers (w : Workspace α π) (detail : Detail) : List (Request α π) → List (Answer α)
  | [] => []
  | r :: rs =>
    if w.withheld r then
      ⟨.refused .unsupported, none, []⟩ :: w.answers detail rs
    else
      (w.answer detail r).1 :: (w.answer detail r).2.answers detail rs

end Workspace
end RedBlack
