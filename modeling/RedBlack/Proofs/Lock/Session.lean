import RedBlack.Proofs.Cursor.World
import RedBlack.Proofs.Operand

set_option autoImplicit false

namespace RedBlack

section Views
variable {α : Type} [BEq α]

open Traced

namespace Container

/-- The view of a container past its lock. -/
def peek : Container α → Except Fault (View α)
  | ordered h => h.inner.view
  | sorted s => .ok (.of s.contains s.values)
  | unordered s => .ok (.of s.contains s.values)

def isPoisoned : Container α → Bool
  | ordered h => h.isPoisoned
  | _ => false

def warnings (c : Container α) : List Event := List.replicate c.isPoisoned.toNat .recovered

omit [BEq α] in
@[simp] theorem isPoisoned_ordered (h : Holder α) : (ordered h).isPoisoned = h.isPoisoned := rfl

omit [BEq α] in
@[simp] theorem warnings_ordered (h : Holder α) : (ordered h).warnings = h.warnings := rfl

theorem view_eq (c : Container α) : c.view = after c.warnings (liftM c.peek) := by
  cases c with
  | ordered h => exact h.view_eq
  | sorted | unordered => rfl

def bare : Container α → Container α
  | ordered h => ordered (.plain h.inner)
  | c => c

@[simp] theorem peek_bare (c : Container α) : c.bare.peek = c.peek := by
  cases c <;> rfl

omit [BEq α] in
@[simp] theorem warnings_bare (c : Container α) : c.bare.warnings = [] := by
  cases c <;> rfl

def peeks (c : Container α) (o : Operand α) : Except Fault (View α × View α) := do
  return (← c.peek, ← (o.beside c).peek)

end Container

namespace Operand

def bare : Operand α → Operand α
  | itself => itself
  | other c => other c.bare

/-- What is reported about the right operand: nothing more if it is the left one. -/
def warnings : Operand α → List Event
  | itself => []
  | other c => c.warnings

omit [BEq α] in
@[simp] theorem warnings_bare (o : Operand α) : o.bare.warnings = [] := by
  cases o with
  | itself => rfl
  | other c => exact c.warnings_bare

end Operand

theorem Container.peeks_bare (c : Container α) (o : Operand α) :
    c.bare.peeks o.bare = c.peeks o := by
  cases o <;> simp only [peeks, Operand.bare, Operand.beside, peek_bare]

theorem Container.views_eq (c : Container α) (o : Operand α) :
    c.views o = after (c.warnings ++ o.warnings) (liftM (c.peeks o)) := by
  cases o with
  | itself =>
    rw [views, view_eq, after_bind, Operand.warnings, List.append_nil, peeks, Operand.beside]
    cases c.peek <;> rfl
  | other d =>
    rw [views, view_eq, view_eq, after_bind, Operand.warnings, ← after_after, peeks,
      Operand.beside]
    simp only [after_bind, liftM_bind_after]
    cases c.peek with
    | error e => rfl
    | ok v => cases d.peek <;> rfl

/-- The lock of the left operand is taken twice, that of the right one once if it is another one. -/
theorem Holder.combine_eq (h : Holder α) (kind : Combination) (id : Nat) (o : Operand α) :
    h.combine kind id o = after (h.warnings ++ (h.warnings ++ o.warnings)) (do
      let (a, b) ← (Container.ordered h).peeks o
      return h.renew (← (h.inner.emptyLike id).insertCombination kind a b)) := by
  rw [combine, acquire_bind, Container.views_eq, after_bind, after_after]
  rfl

end Views

structure Session (α π : Type) where
  holder : Holder α
  cursors : List (Cursor π)

namespace Session

/-- What can be asked of one set. Cursors are named by their places; nothing comes of a name that
none has. The last three calls concern a lock and not the set behind it. -/
inductive Call (α π : Type) where
  | update (u : Update α π)
  | insertMany (vs : List α)
  | ask (q : Query α)
  | count
  | snapshot
  | relate (r : Relation) (right : Operand α)
  | relateTo (r : Relation) (left : Container α)
  | combine (kind : Combination) (id : Nat) (right : Operand α)
  | combineWith (kind : Combination) (id : Nat) (left : Holder α)
  | derive (d : Derivation) (id : Nat)
  | cursor (d : Direction)
  | filter (i : Nat) (p : π)
  | takeWhile (i : Nat) (p : π)
  | call (i : Nat) (c : Cursor.Call)
  /-- A panic of whoever holds the lock for writing, before any change. -/
  | panic
  | share
  | unshare

inductive Result (α : Type) where
  | replied (r : Except Failure (Reply α))
  | number (n : Nat)
  | elements (vs : List α)
  | verdict (b : Bool)
  | made (h : Holder α)
  | derived (s : OrderedSet α)
  | yielded (r : Except Failure (Option α))
  | nothing

variable {α π : Type}

namespace Call

def concernsLock : Call α π → Bool
  | panic | share | unshare => true
  | _ => false

/-- The same call with the set inside every other set that it involves. -/
@[simp] def bare : Call α π → Call α π
  | relate r o => relate r o.bare
  | relateTo r c => relateTo r c.bare
  | combine kind id o => combine kind id o.bare
  | combineWith kind id h => combineWith kind id (.plain h.inner)
  | c => c

/-- What is reported, one line whenever a poisoned lock is taken. A combination takes that of its
left operand for the settings, before it takes those of both operands. -/
@[simp] def warnings (h : Holder α) : Call α π → List Event
  | relate _ o => h.warnings ++ o.warnings
  | relateTo _ c => c.warnings ++ h.warnings
  | combine _ _ o => h.warnings ++ (h.warnings ++ o.warnings)
  | combineWith _ _ left => left.warnings ++ (left.warnings ++ h.warnings)
  | filter .. | takeWhile .. | share | unshare => []
  | _ => h.warnings

@[simp] def poisons : Call α π → Result α → Bool
  | panic, _ => true
  | update _, .replied r => Holder.panicked r
  | _, _ => false

end Call

@[simp] def Result.behind (h : Holder α) (c : Call α π) (r : Result α) : Result α :=
  match c, r with
  | .ask q, replied r => replied (h.present q r)
  | .combine .., made c => made (h.renew c.inner)
  | .combineWith _ _ left, made c => made (left.renew c.inner)
  | _, r => r

@[simp] theorem Call.poisons_behind (h : Holder α) (c : Call α π) (r : Result α) :
    c.poisons (r.behind h c) = c.poisons r := by
  cases c <;> cases r <;> rfl

theorem Call.concernsLock_bare (c : Call α π) : c.bare.concernsLock = c.concernsLock := by
  cases c <;> rfl

@[simp] def bare (s : Session α π) : Session α π := ⟨.plain s.holder.inner, s.cursors⟩

@[simp] def hold (s t : Session α π) (poisoned : Bool) : Session α π :=
  ⟨s.holder.hold t.holder.inner poisoned, t.cursors⟩

theorem bare_hold (s t : Session α π) (poisoned : Bool) : (s.hold t poisoned).bare = t.bare := by
  simp

def adapt (s : Session α π) (i : Nat) (f : Cursor π → Cursor π) : Session α π :=
  { s with cursors := s.cursors.modify i f }

variable [BEq α] [Ord α] [Render α] [Predicate π α]

def serve (s : Session α π) : Call α π → Traced Event (Result α × Session α π)
  | .update u => do
    let (r, h) ← s.holder.update u
    return (.replied r, { s with holder := h })
  | .insertMany vs => do
    let (n, h) ← s.holder.insertMany vs
    return (.number n, { s with holder := h })
  | .ask q => do return (.replied (← s.holder.ask q), s)
  | .count => do return (.number (← s.holder.view).size, s)
  | .snapshot => do return (.elements (← (Container.ordered s.holder).snapshot), s)
  | .relate r o => do
    let (a, b) ← (Container.ordered s.holder).views o
    return (.verdict (← r.holds a b), s)
  | .relateTo r c => do
    let (a, b) ← c.views (.other (.ordered s.holder))
    return (.verdict (← r.holds a b), s)
  | .combine kind id o => do return (.made (← s.holder.combine kind id o), s)
  | .combineWith kind id h => do
    return (.made (← h.combine kind id (.other (.ordered s.holder))), s)
  | .derive d id => do return (.derived (d.apply (← s.holder.acquire) id), s)
  | .cursor d => do
    let c ← (← s.holder.acquire).cursor d
    return (.nothing, { s with cursors := s.cursors ++ [c] })
  | .filter i p => return (.nothing, s.adapt i (·.filter p))
  | .takeWhile i p => return (.nothing, s.adapt i (·.takeWhile p))
  | .call i k => do
    let inner ← s.holder.acquire
    match s.cursors[i]? with
    | none => return (.nothing, s)
    | some c => do
      let (r, c) ← c.call inner k
      return (.yielded r, { s with cursors := s.cursors.set i c })
  | .panic => do return (.nothing, { s with holder := ← s.holder.poison })
  | .share => return (.nothing, { s with holder := s.holder.share })
  | .unshare => return (.nothing, { s with holder := s.holder.unshare })

open Traced

theorem serve_eq (s : Session α π) {c : Call α π} (hc : c.concernsLock = false) :
    s.serve c = after (c.warnings s.holder)
      ((fun x => (x.1.behind s.holder c, s.hold x.2 (s.holder.isPoisoned || c.poisons x.1))) <$>
        s.bare.serve c.bare) := by
  cases c with
  | panic | share | unshare => cases hc
  | update u => simp [serve, Holder.update_eq]
  | insertMany vs => simp [serve, Holder.insertMany_eq]
  | ask q => simp [serve, Holder.ask_eq]
  | count => simp [serve, Holder.view_eq]
  | snapshot => simp [serve, Container.snapshot, Container.view_eq, Container.peek]
  | relate r o =>
    have hp : (Container.ordered (.plain s.holder.inner)).peeks o.bare = _ :=
      (Container.ordered s.holder).peeks_bare o
    simp [serve, Container.views_eq, hp]
  | relateTo r c =>
    have hp : c.bare.peeks (.other (.ordered (.plain s.holder.inner))) = _ :=
      c.peeks_bare (.other (.ordered s.holder))
    simp [serve, Container.views_eq, Operand.warnings, hp]
  | combine kind id o =>
    have hp : (Container.ordered (.plain s.holder.inner)).peeks o.bare = _ :=
      (Container.ordered s.holder).peeks_bare o
    simp [serve, Holder.combine_eq, Holder.inner_renew, hp]
  | combineWith kind id h =>
    have hp : (Container.ordered (.plain h.inner)).peeks
        (.other (.ordered (.plain s.holder.inner))) = _ :=
      (Container.ordered h).peeks_bare (.other (.ordered s.holder))
    simp [serve, Holder.combine_eq, Operand.warnings, Holder.inner_renew, hp]
  | derive d id => simp [serve, Holder.acquire_eq]
  | cursor d => simp [serve, Holder.acquire_bind]
  | filter i p => simp [serve, adapt]
  | takeWhile i p => simp [serve, adapt]
  | call i k =>
    cases hi : s.cursors[i]? with
    | none => simp [serve, Holder.acquire_eq, hi]
    | some c => simp [serve, Holder.acquire_bind, hi]

variable {s s' : Session α π} {c : Call α π} {r : Result α} {es : List Event}

theorem bare_of_serve_bare (hc : c.concernsLock = false)
    (h : s.bare.serve c = .done (r, s') es) : s'.bare = s' := by
  rw [serve_eq s.bare hc] at h
  obtain ⟨es', hm, rfl⟩ := after_eq_done_iff.1 h
  obtain ⟨⟨r', u⟩, hx, hu⟩ := map_eq_done_iff.1 hm
  obtain ⟨rfl, rfl⟩ := Prod.mk.inj hu
  rfl

/-- A call that does not concern the lock is served as for the set inside, which has none. -/
theorem exists_serve_bare (hc : c.concernsLock = false)
    (h : s.serve c = .done (r, s') es) :
    ∃ r' es', s.bare.serve c.bare = .done (r', s'.bare) es' ∧ r = r'.behind s.holder c ∧
      es = c.warnings s.holder ++ es' ∧ s'.holder = s.holder.hold s'.holder.inner
        (s.holder.isPoisoned || c.poisons r) := by
  rw [serve_eq s hc] at h
  obtain ⟨es', hm, rfl⟩ := after_eq_done_iff.1 h
  obtain ⟨⟨r', u⟩, hx, hu⟩ := map_eq_done_iff.1 hm
  obtain ⟨rfl, rfl⟩ := Prod.mk.inj hu
  have hbare : u.bare = u := bare_of_serve_bare (c.concernsLock_bare.trans hc) hx
  refine ⟨r', es', ?_, rfl, rfl, ?_⟩
  · simp only [bare_hold, hbare, hx]
  · rw [hold, Holder.inner_hold, Call.poisons_behind]

end Session
end RedBlack
