import RedBlack.Holder
import RedBlack.Proofs.Tree.Mapping

set_option autoImplicit false

namespace RedBlack
variable {α β γ π : Type}

namespace Traced
variable {es es' : List Event}

/-- The same computation after these events. -/
def after (es : List Event) : Traced Event β → Traced Event β
  | done b es' => done b (es ++ es')
  | stopped f => stopped f

@[simp] theorem after_done (b : β) : after es (done b es') = done b (es ++ es') := rfl

theorem after_pure (b : β) : after es (pure b) = done b es := by
  rw [pure_eq, after_done, List.append_nil]

theorem after_eq_done_iff {x : Traced Event β} {b : β} :
    after es x = done b es' ↔ ∃ ds, x = done b ds ∧ es' = es ++ ds := by
  cases x <;> simp [after, and_assoc, eq_comm]

@[simp] theorem after_nil (x : Traced Event β) : after [] x = x := by
  cases x <;> rfl

@[simp] theorem after_after (x : Traced Event β) :
    after es (after es' x) = after (es ++ es') x := by
  cases x with
  | done b ds => simp
  | stopped f => rfl

theorem done_bind_after (b : β) (f : β → Traced Event γ) : (done b es >>= f) = after es (f b) := by
  rw [done_bind]
  cases f b <;> rfl

@[simp] theorem after_bind (x : Traced Event β) (f : β → Traced Event γ) :
    (after es x >>= f) = after es (x >>= f) := by
  cases x with
  | stopped f => rfl
  | done b ds => rw [after_done, done_bind_after, done_bind_after, after_after]

@[simp] theorem map_after (f : β → γ) (x : Traced Event β) :
    f <$> after es x = after es (f <$> x) := by
  rw [map_eq_pure_bind, map_eq_pure_bind, after_bind]

theorem liftM_bind_after (x : Except Fault β) (f : β → Traced Event γ) :
    ((liftM x : Traced Event β) >>= fun b => after es (f b)) =
      after es ((liftM x : Traced Event β) >>= f) := by
  cases x with
  | error e => rfl
  | ok b => simp

end Traced

open Traced

namespace Holder
variable {h : Holder α}

def isPoisoned : Holder α → Bool
  | plain _ => false
  | shared s => s.poisoned

def warnings (h : Holder α) : List Event := List.replicate h.isPoisoned.toNat .recovered

/-- The same kind of holder for another set, its lock in this state. -/
def hold (h : Holder α) (s : OrderedSet α) (poisoned : Bool) : Holder α :=
  match h with
  | plain _ => plain s
  | shared _ => shared ⟨s, poisoned⟩

@[simp] theorem inner_hold (h : Holder α) (s : OrderedSet α) (poisoned : Bool) :
    (h.hold s poisoned).inner = s := by
  cases h <;> rfl

@[simp] theorem hold_self (h : Holder α) : h.hold h.inner h.isPoisoned = h := by
  cases h <;> rfl

theorem isPoisoned_hold (hp : h.isPoisoned) (s : OrderedSet α) (b : Bool) :
    (h.hold s (h.isPoisoned || b)).isPoisoned := by
  cases h with
  | plain s => exact hp
  | shared s => simp_all [hold, isPoisoned]

section Plain
variable (s : OrderedSet α)

@[simp] theorem inner_plain : (plain s).inner = s := rfl

@[simp] theorem isPoisoned_plain : (plain s).isPoisoned = false := rfl

@[simp] theorem hold_plain (s' : OrderedSet α) (poisoned : Bool) :
    (plain s).hold s' poisoned = plain s' := rfl

@[simp] theorem warnings_plain : (plain s).warnings = [] := rfl

end Plain

theorem acquire_eq (h : Holder α) : h.acquire = .done h.inner h.warnings := by
  cases h with
  | plain s => rfl
  | shared s =>
    obtain ⟨inner, _ | _⟩ := s <;> rfl

theorem acquire_bind (h : Holder α) (f : OrderedSet α → Traced Event β) :
    (h.acquire >>= f) = after h.warnings (f h.inner) := by
  rw [acquire_eq, done_bind_after]

theorem view_eq (h : Holder α) : h.view = after h.warnings (liftM h.inner.view) := h.acquire_bind _

theorem insertMany_eq (h : Holder α) (vs : List α) :
    h.insertMany vs = after h.warnings ((fun x => (x.1, h.hold x.2 h.isPoisoned)) <$>
      h.inner.insertMany vs) := by
  refine Eq.trans ?_ (h.acquire_bind fun s => (fun x => (x.1, h.hold x.2 h.isPoisoned)) <$>
    s.insertMany vs)
  cases h with
  | plain s => exact (done_nil_bind ..).symm
  | shared s => rfl

/-- Whether a panic ended an update. -/
def panicked : Except Failure (Reply α) → Bool
  | .ok _ => false
  | .error e => e.isPanic

theorem update_eq [Predicate π α] (h : Holder α) (u : Update α π) :
    h.update u = after h.warnings ((fun x => (x.1, h.hold x.2 (h.isPoisoned || panicked x.1))) <$>
      h.inner.update u) := by
  refine Eq.trans ?_ (h.acquire_bind fun s =>
    (fun x => (x.1, h.hold x.2 (h.isPoisoned || panicked x.1))) <$> s.update u)
  cases h with
  | plain s => exact (done_nil_bind ..).symm
  | shared s =>
    simp only [Holder.update, SharedSet.update, bind_assoc]
    refine congrArg _ (funext fun inner => congrArg _ (funext fun x => ?_))
    obtain ⟨_ | _, s'⟩ := x
    · simp [hold, isPoisoned, panicked, pure_eq]
    · simp [hold, isPoisoned, panicked, pure_eq]

/-- What a holder answers where the set inside answers this: a drawing shows the lock as well. -/
def present (h : Holder α) (q : Query α) (r : Except Failure (Reply α)) :
    Except Failure (Reply α) :=
  match h, q, r with
  | shared _, .debug style, .ok (.text t) =>
    .ok (.text (Text.Record.render ⟨"SharedOrderedSet", [("inner", t)]⟩ style))
  | _, _, r => r

@[simp] theorem present_plain (s : OrderedSet α) (q : Query α) (r : Except Failure (Reply α)) :
    (plain s).present q r = r := rfl

theorem present_eq_error_iff (h : Holder α) {q : Query α} {r : Except Failure (Reply α)}
    {e : Failure} : h.present q r = .error e ↔ r = .error e := by
  cases h with
  | plain s => rfl
  | shared s => cases q <;> rcases r with _ | _ | _ <;> simp [present]

theorem ask_eq [Render α] (h : Holder α) (q : Query α) :
    h.ask q = after h.warnings (h.present q <$> (liftM (h.inner.ask q))) := by
  cases h with
  | plain s =>
    rw [warnings, isPoisoned, Bool.toNat_false, List.replicate_zero, after_nil]
    exact (id_map _).symm
  | shared s =>
    have hacq : s.acquire = .done s.inner (shared s).warnings := (shared s).acquire_eq
    rw [ask, SharedSet.ask, hacq, done_bind_after]
    refine congrArg _ ?_
    cases q with
    | debug style =>
      simp only [SharedSet.record, OrderedSet.ask, inner]
      cases s.inner.record with
      | error e => rfl
      | ok r => rfl
    | _ => exact (id_map _).symm

end Holder
end RedBlack
