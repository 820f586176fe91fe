import RedBlack.Tree.Basic

/-!
Computations that report events of some kind in order, and that stop when something is missing which
the invariants of the tree promise. `bind_eq_done_iff` reads a sequence off its two parts. The
rounds of a loop are counted, so that one along links that run in a circle ends in a fault.
-/

set_option autoImplicit false

namespace RedBlack

/-- A rotation: a node moves down to a side, and its child on the other, the pivot, takes its
place. -/
structure Rotation (ν : Type) where
  toward : Side
  node : ν
  pivot : ν
  deriving DecidableEq

def Rotation.map {ν μ : Type} (f : ν → μ) (t : Rotation ν) : Rotation μ :=
  ⟨t.toward, f t.node, f t.pivot⟩

inductive Event where
  /-- The nodes of a rotation are told by their indices. -/
  | rotated (turn : Rotation Nat)
  | cleared (size : Nat)
  | uniting (left right : Nat)
  | intersecting (scanned against : Nat)
  | subtracting (scanned against : Nat)
  /-- A cursor found its set changed for the first time. -/
  | invalidated (created found : Nat)
  /-- A lock left poisoned by a panic was taken all the same. -/
  | recovered
  deriving DecidableEq

inductive Level where
  | warn | debug | trace
  deriving DecidableEq

def Level.name : Level → String
  | .warn => "WARN"
  | .debug => "DEBUG"
  | .trace => "TRACE"

namespace Event

def level : Event → Level
  | rotated _ => .trace
  | recovered => .warn
  | _ => .debug

def message : Event → String
  | rotated t => "Rotating " ++ t.toward.name ++ " around node " ++ toString t.node ++ " (pivot " ++
      toString t.pivot ++ ")"
  | cleared n => "Clearing OrderedSet of " ++ toString n ++ " elements"
  | uniting a b => "Union of " ++ toString a ++ " and " ++ toString b ++ " elements"
  | intersecting a b =>
    "Intersection scanning " ++ toString a ++ " elements against " ++ toString b
  | subtracting a b => "Difference scanning " ++ toString a ++ " elements against " ++ toString b
  | invalidated a b =>
    "Cursor invalidated, set version changed from " ++ toString a ++ " to " ++ toString b
  | recovered => "Recovering SharedOrderedSet from a poisoned lock"

def line (e : Event) : String := e.level.name ++ " " ++ e.message

/-- The line without the indices of nodes. -/
def outline (e : Event) : String := (e.line.splitOn " around node").headD ""

def isRotation : Event → Bool
  | rotated _ => true
  | _ => false

end Event

/-- What the invariants promise and a computation did not find. -/
inductive Fault where
  | missingGrandparent
  | missingSibling
  | missingNephew
  | missingPivot
  /-- Two different nodes were asked for, and one was given twice. -/
  | sameNode
  | danglingIndex
  /-- A count of what is left was too small. -/
  | overrun
  /-- A loop went on after every node could have been visited. -/
  | endless
  deriving DecidableEq

def Fault.message : Fault → String
  | .missingGrandparent => "A red root has a red child!"
  | .missingSibling => "A subtree short of a black node has no sibling!"
  | .missingNephew => "A sibling with a red child has none on either side!"
  | .missingPivot => "A rotation has no child to promote!"
  | .sameNode => "The values of a node and itself were to be exchanged!"
  | .danglingIndex => "An index points at no node!"
  | .overrun => "More elements were found than counted!"
  | .endless => "The links of a tree go round in a circle!"

/-- A value with the events on the way to it, or the fault that stopped the computation. -/
inductive Traced (ε β : Type) where
  | done (value : β) (events : List ε)
  | stopped (fault : Fault)

@[simp] theorem ok_bind {β γ : Type} (b : β) (f : β → Except Fault γ) : (Except.ok b >>= f) = f b :=
  rfl

namespace Traced
variable {ε ζ β γ δ : Type}

protected def bind (x : Traced ε β) (f : β → Traced ε γ) : Traced ε γ :=
  match x with
  | stopped e => stopped e
  | done b es =>
    match f b with
    | stopped e => stopped e
    | done c es' => done c (es ++ es')

instance : Monad (Traced ε) where
  pure b := done b []
  bind := Traced.bind

def emit (e : ε) : Traced ε Unit := done () [e]

def ofExcept : Except Fault β → Traced ε β
  | .ok b => done b []
  | .error e => stopped e

instance : MonadLift (Except Fault) (Traced ε) := ⟨ofExcept⟩

/-- The same computation with its events told in other terms. -/
def relabel (g : ε → ζ) : Traced ε β → Traced ζ β
  | done b es => done b (es.map g)
  | stopped e => stopped e

theorem pure_eq (b : β) : (pure b : Traced ε β) = done b [] := rfl

@[simp] theorem liftM_ok (b : β) :
    (liftM (Except.ok b : Except Fault β) : Traced ε β) = pure b := rfl

theorem liftM_eq_done {x : Except Fault β} {b : β} (h : x = .ok b) :
    (liftM x : Traced ε β) = done b [] := by
  rw [h]
  rfl

theorem eq_of_liftM_eq_done {x : Except Fault β} {b : β} {es : List ε}
    (h : (liftM x : Traced ε β) = done b es) : x = .ok b ∧ es = [] := by
  cases x with
  | error e => cases h
  | ok c =>
    cases h
    exact ⟨rfl, rfl⟩

@[simp] theorem stopped_bind (e : Fault) (f : β → Traced ε γ) : (stopped e >>= f) = stopped e := rfl

theorem done_bind (b : β) (es : List ε) (f : β → Traced ε γ) :
    (done b es >>= f) = match f b with
      | stopped e => stopped e
      | done c es' => done c (es ++ es') := rfl

theorem bind_done {x : Traced ε β} {f : β → Traced ε γ} {b : β} {c : γ} {es es' : List ε}
    (h : x = done b es) (h' : f b = done c es') : (x >>= f) = done c (es ++ es') := by
  rw [h, done_bind, h']

@[simp] theorem done_nil_bind (b : β) (f : β → Traced ε γ) : (done b [] >>= f) = f b := by
  rw [done_bind]
  cases f b <;> rfl

theorem bind_eq_done_iff {x : Traced ε β} {f : β → Traced ε γ} {c : γ} {es : List ε} :
    (x >>= f) = done c es ↔
      ∃ b es₁ es₂, x = done b es₁ ∧ f b = done c es₂ ∧ es = es₁ ++ es₂ := by
  cases x with
  | stopped e => simp
  | done b es₁ =>
    rw [done_bind]
    cases h : f b with
    | stopped e => simp [h]
    | done c' es₂ =>
      constructor
      · intro h'; cases h'; exact ⟨b, es₁, es₂, rfl, h, rfl⟩
      · rintro ⟨_, _, _, hb, hf, rfl⟩
        cases hb
        rw [h] at hf
        cases hf
        rfl

instance : LawfulMonad (Traced ε) := LawfulMonad.mk' (Traced ε)
  (by
    intro β x
    cases x with
    | stopped e => rfl
    | done b es => exact congrArg (done b) (List.append_nil es))
  (by intro β γ b f; exact done_nil_bind b f)
  (by
    intro β γ δ x f g
    cases x with
    | stopped e => rfl
    | done b es =>
      simp only [done_bind]
      cases f b with
      | stopped e => rfl
      | done c es' =>
        simp only [done_bind]
        cases g c with
        | stopped e => rfl
        | done d es'' => exact congrArg (done d) (List.append_assoc ..))

@[simp] theorem map_done (f : β → γ) (b : β) (es : List ε) : f <$> done b es = done (f b) es := by
  rw [map_eq_pure_bind, done_bind, pure_eq]
  simp

@[simp] theorem map_stopped (f : β → γ) (e : Fault) :
    f <$> (stopped e : Traced ε β) = stopped e := rfl

theorem map_eq_done_iff {f : β → γ} {x : Traced ε β} {c : γ} {es : List ε} :
    f <$> x = done c es ↔ ∃ b, x = done b es ∧ f b = c := by
  cases x with
  | stopped e => simp
  | done b es' =>
    constructor
    · intro h
      rw [map_done] at h
      cases h
      exact ⟨b, rfl, rfl⟩
    · rintro ⟨b', h, rfl⟩
      cases h
      exact map_done ..

section Relabel
variable (g : ε → ζ)

@[simp] theorem relabel_pure (b : β) : (pure b : Traced ε β).relabel g = pure b := rfl

@[simp] theorem relabel_stopped (e : Fault) : (stopped e : Traced ε β).relabel g = stopped e := rfl

@[simp] theorem relabel_bind (x : Traced ε β) (f : β → Traced ε γ) :
    (x >>= f).relabel g = x.relabel g >>= fun b => (f b).relabel g := by
  cases x with
  | stopped e => rfl
  | done b es =>
    simp only [relabel, done_bind]
    cases f b with
    | stopped e => rfl
    | done c es' => simp only [List.map_append]

theorem relabel_eq_done_iff {g : ε → ζ} {x : Traced ε β} {b : β} {es : List ζ} :
    x.relabel g = done b es ↔ ∃ es', x = done b es' ∧ es'.map g = es := by
  cases x with
  | stopped e => simp
  | done c es' =>
    constructor
    · intro h
      cases h
      exact ⟨es', rfl, rfl⟩
    · rintro ⟨es', h, rfl⟩
      cases h
      rfl

end Relabel
end Traced

inductive Failure where
  /-- An end of an empty set was asked for. -/
  | emptySet
  /-- An element was to be changed in place. -/
  | readOnlyElement
  /-- A predicate panicked. -/
  | predicate (message : String)
  /-- A cursor met a set that did not create it. -/
  | foreignCursor
  /-- A cursor met its set in a later version. -/
  | modified (expected found : Nat)
  | broken (fault : Fault)
  deriving DecidableEq

def Failure.message : Failure → String
  | .emptySet => "Attempted to access the first or last element of an empty OrderedSet!"
  | .readOnlyElement =>
    "Elements of an OrderedSet can't be modified in place, doing so could break its order!"
  | .predicate m => m
  | .foreignCursor => "Cursor was used with a different set to the one that created it!"
  | .modified a b =>
    "OrderedSet was modified during traversal (version " ++ toString a ++ " became " ++
      toString b ++ ")!"
  | .broken f => f.message

/-- Whether whoever holds a lock for writing loses it to this failure. -/
def Failure.isPanic : Failure → Bool
  | .foreignCursor | .modified .. => false
  | _ => true

inductive Round (σ β : Type) where
  | again (state : σ)
  | over (result : β)

variable {σ β : Type} {m : Type → Type} [Monad m] [MonadLiftT (Except Fault) m]

/-- Goes on until a round is the last one, for so many rounds at most. -/
def loop (body : σ → m (Round σ β)) : Nat → σ → m β
  | 0, _ => liftM (Except.error .endless : Except Fault β)
  | n + 1, s => do
    match ← body s with
    | .again s => loop body n s
    | .over b => return b

theorem loop_again {body : σ → Except Fault (Round σ β)} {s t : σ} (n : Nat)
    (h : body s = .ok (.again t)) : loop body (n + 1) s = loop body n t := by
  simp only [loop, h, ok_bind]

theorem loop_over {body : σ → Except Fault (Round σ β)} {s : σ} {b : β} (n : Nat)
    (h : body s = .ok (.over b)) : loop body (n + 1) s = .ok b := by
  simp only [loop, h, ok_bind]
  rfl

theorem Traced.loop_again {ε : Type} {body : σ → Traced ε (Round σ β)} {s s' : σ} {b : β} {n : Nat}
    {es es' : List ε} (h : body s = .done (.again s') es) (h' : loop body n s' = .done b es') :
    loop body (n + 1) s = .done b (es ++ es') := by
  simp only [loop, h, h', Traced.done_bind]

theorem Traced.loop_over {ε : Type} {body : σ → Traced ε (Round σ β)} {s : σ} {b : β}
    {es : List ε} (n : Nat)
    (h : body s = .done (.over b) es) : loop body (n + 1) s = .done b es := by
  simp [loop, h, Traced.done_bind, Traced.pure_eq]

end RedBlack
