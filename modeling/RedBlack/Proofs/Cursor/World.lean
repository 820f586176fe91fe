import RedBlack.Proofs.Container
import RedBlack.Proofs.Cursor.Calls
import RedBlack.Workspace.Request

/-!
Worlds: any number of sets and any number of cursors, and what can be done with them in any order.
The place of a set in its world tells it from every other one. A world also remembers what nothing
in it depends on: the changes made to each set, and where each cursor comes from and has been. As
long as a probe fits the entry of the set that created its cursor, every call of the cursor behaves,
and the probe after it fits again.
-/

set_option autoImplicit false

namespace RedBlack

section Actions
/-- A set, and the number of changes made to it in its place. -/
structure Entry (α : Type) where
  holder : Holder α
  changes : Nat

/-- A cursor with its origin: the place of the set that created it, the changes and the version that
set had by then, and the direction asked for. -/
structure Probe (α π : Type) where
  cursor : Cursor π
  origin : Nat
  changes : Nat
  version : Nat
  direction : Direction
  /-- The elements walked over since the cursor was created or last started. -/
  walked : List α

structure World (α π : Type) where
  entries : List (Entry α)
  probes : List (Probe α π)
  /-- The identity of the next set. -/
  nextId : Nat

inductive Right (α : Type) where
  | itself
  | entry (k : Nat)
  | sorted (s : SortedSet α)
  | unordered (s : UnorderedSet α)

/-- What can be done in a world. Sets and cursors are named by their places; nothing comes of a name
that none has. -/
inductive Action (α π : Type) where
  | create (settings : Settings α) (locked : Bool)
  | update (k : Nat) (u : Update α π)
  | insertMany (k : Nat) (vs : List α)
  | ask (k : Nat) (q : Query α)
  | derive (k : Nat) (d : Derivation)
  | combine (k : Nat) (kind : Combination) (other : Right α)
  | share (k : Nat)
  | unshare (k : Nat)
  | poison (k : Nat)
  | cursor (k : Nat) (d : Direction)
  | filter (i : Nat) (p : π)
  | takeWhile (i : Nat) (p : π)
  | call (i k : Nat) (c : Cursor.Call)

variable {α π : Type}

abbrev Entry.inner (e : Entry α) : OrderedSet α := e.holder.inner

def Holder.share : Holder α → Holder α
  | .plain s => .shared (.share s)
  | .shared s => .shared s

def Holder.unshare (h : Holder α) : Holder α := .plain h.inner

def Holder.poison : Holder α → Traced Event (Holder α)
  | .plain s => return .plain s
  | .shared s => do return .shared (← s.poison)

theorem Holder.inner_share (h : Holder α) : h.share.inner = h.inner := by
  cases h <;> rfl

theorem Holder.isPoisoned_share (h : Holder α) : h.share.isPoisoned = h.isPoisoned := by
  cases h <;> rfl

theorem Holder.poison_eq (h : Holder α) : h.poison = .done (h.hold h.inner true) h.warnings := by
  cases h with
  | plain s => rfl
  | shared s =>
    obtain ⟨inner, _ | _⟩ := s <;> rfl

def Derivation.apply (d : Derivation) (s : OrderedSet α) (id : Nat) : OrderedSet α :=
  match d with
  | .clone => s.clone id
  | .deepClone => s.deepClone id
  | .emptyLike => s.emptyLike id

variable [Predicate π α]

/-- A call of a cursor. A start that succeeds begins a new walk; the elements that a search meets
are walked over. -/
def Probe.call (p : Probe α π) (s : OrderedSet α) (c : Cursor.Call) :
    Traced Event (Except Failure (Option α) × Probe α π) := do
  let (r, cursor) ← p.cursor.call s c
  match r, c with
  | .error .foreignCursor, _ | .error (.modified ..), _ => return (r, { p with cursor := cursor })
  | _, .start => return (r, { p with cursor := cursor, walked := [] })
  | _, .next => do
    let met ← p.cursor.met s.tree (s.size + 1)
    return (r, { p with cursor := cursor, walked := p.walked ++ met })

namespace World

def empty : World α π := ⟨[], [], 0⟩

def add (w : World α π) (h : Holder α) : World α π :=
  { w with entries := w.entries ++ [⟨h, 0⟩], nextId := w.nextId + 1 }

def change (w : World α π) (k : Nat) (f : Holder α → Traced Event (Holder α × Nat)) :
    Traced Event (World α π) :=
  match w.entries[k]? with
  | none => return w
  | some e => do
    let (h, n) ← f e.holder
    return { w with entries := w.entries.set k ⟨h, e.changes + n⟩ }

def grow (w : World α π) (k : Nat) (f : Holder α → Traced Event (Holder α)) :
    Traced Event (World α π) :=
  match w.entries[k]? with
  | none => return w
  | some e => do return w.add (← f e.holder)

def operand? (w : World α π) : Right α → Option (Operand α)
  | .itself => some .itself
  | .entry k => w.entries[k]?.map fun e => .other (.ordered e.holder)
  | .sorted s => some (.other (.sorted s))
  | .unordered s => some (.other (.unordered s))

def look (w : World α π) (k : Nat) (f : Holder α → Traced Event Unit) : Traced Event (World α π) :=
  match w.entries[k]? with
  | none => return w
  | some e => do
    f e.holder
    return w

def adapt (w : World α π) (i : Nat) (f : Cursor π → Cursor π) : World α π :=
  match w.probes[i]? with
  | none => w
  | some p => { w with probes := w.probes.set i { p with cursor := f p.cursor } }

section Step
variable [BEq α] [Render α]

def step (w : World α π) : Action α π → Traced Event (World α π)
  | .create settings locked =>
    let s := OrderedSet.empty w.nextId settings
    return w.add (if locked then .shared (.share s) else .plain s)
  | .update k u => w.change k fun h => do
    let (_, h') ← h.update u
    return (h', u.changes h.inner h'.inner)
  | .insertMany k vs => w.change k fun h => do
    let (_, h') ← h.insertMany vs
    return (h', h'.inner.size - h.inner.size)
  | .ask k q => w.look k fun h => do
    let _ ← h.ask q
    return ()
  | .derive k d => w.grow k fun h => do return .plain (d.apply (← h.acquire) w.nextId)
  | .combine k kind other =>
    match w.operand? other with
    | none => return w
    | some o => w.grow k fun h => h.combine kind w.nextId o
  | .share k => w.change k fun h => return (h.share, 0)
  | .unshare k => w.change k fun h => return (h.unshare, 0)
  | .poison k => w.change k fun h => do return (← h.poison, 0)
  | .cursor k d =>
    match w.entries[k]? with
    | none => return w
    | some e => do
      let s ← e.holder.acquire
      let c ← s.cursor d
      return { w with probes := w.probes ++ [⟨c, k, e.changes, s.version, d, []⟩] }
  | .filter i p => return w.adapt i (·.filter p)
  | .takeWhile i p => return w.adapt i (·.takeWhile p)
  | .call i k c =>
    match w.probes[i]?, w.entries[k]? with
    | some p, some e => do
      let (_, p) ← p.call (← e.holder.acquire) c
      return { w with probes := w.probes.set i p }
    | _, _ => return w

def run (w : World α π) : List (Action α π) → Traced Event (World α π)
  | [] => return w
  | a :: as => do (← w.step a).run as

end Step
end World
end Actions

variable {α π : Type} {p : Probe α π} {e e' : Entry α}

/-- A probe and the entry of the set that created its cursor. -/
structure Probe.Fits (p : Probe α π) (e : Entry α) : Prop where
  setId_eq : p.cursor.setId = e.inner.id
  version_eq : p.cursor.version = p.version
  direction_eq : p.cursor.walk.direction = p.direction
  /-- The version counts the changes. -/
  count_eq : p.version + e.changes = e.inner.version + p.changes
  changes_le : p.changes ≤ e.changes
  stale : p.cursor.state = .invalidated → p.changes < e.changes
  follows : p.changes = e.changes → p.cursor.Follows e.inner p.walked

theorem Probe.Fits.change {h : Holder α} {n : Nat} (hp : p.Fits e)
    (hb : e.inner.Becomes h.inner n) : p.Fits ⟨h, e.changes + n⟩ where
  setId_eq := hp.setId_eq.trans hb.id_eq.symm
  version_eq := hp.version_eq
  direction_eq := hp.direction_eq
  count_eq := by
    have hc := hp.count_eq
    have hv : h.inner.version = e.inner.version + n := hb.version_eq
    simp only [Entry.inner] at hc hv ⊢
    omega
  changes_le := Nat.le_add_right_of_le hp.changes_le
  stale hi := Nat.lt_add_right n (hp.stale hi)
  follows hc := by
    have hle := hp.changes_le
    simp only at hc
    obtain rfl : n = 0 := by omega
    have hi : h.inner = e.inner := hb.unchanged rfl
    simp only [Entry.inner, hi]
    exact hp.follows hc

theorem Probe.Fits.filter (hp : p.Fits e) (q : π) :
    Probe.Fits { p with cursor := p.cursor.filter q } e :=
  { hp with follows := fun hc => (hp.follows hc).filter q }

theorem Probe.Fits.takeWhile (hp : p.Fits e) (q : π) :
    Probe.Fits { p with cursor := p.cursor.takeWhile q } e :=
  { hp with follows := fun hc => (hp.follows hc).takeWhile q }

theorem Probe.fits_new {c : Cursor π} (k : Nat) (hid : c.setId = e.inner.id)
    (hv : c.version = e.inner.version) (ha : c.state = .active)
    (hf : c.Follows e.inner []) :
    Probe.Fits ⟨c, k, e.changes, e.inner.version, c.walk.direction, []⟩ e where
  setId_eq := hid
  version_eq := hv
  direction_eq := rfl
  count_eq := rfl
  changes_le := Nat.le_refl _
  stale hi := absurd hi (by rw [ha]; nofun)
  follows _ := hf

/-- A probe of the same origin. -/
structure Probe.Continues (p p' : Probe α π) : Prop where
  origin_eq : p'.origin = p.origin
  changes_eq : p'.changes = p.changes
  version_eq : p'.version = p.version
  direction_eq : p'.direction = p.direction

theorem Probe.continues_self (p : Probe α π) : p.Continues p := ⟨rfl, rfl, rfl, rfl⟩

theorem Probe.Continues.trans {p' p'' : Probe α π} (h : p.Continues p') (h' : p'.Continues p'') :
    p.Continues p'' :=
  ⟨h'.origin_eq.trans h.origin_eq, h'.changes_eq.trans h.changes_eq,
    h'.version_eq.trans h.version_eq, h'.direction_eq.trans h.direction_eq⟩

variable [Predicate π α]

/-- What a call of a cursor with the set in some place comes to. -/
structure Probe.Behaves (p : Probe α π) (k : Nat) (e : Entry α) (c : Cursor.Call)
    (r : Except Failure (Option α)) (p' : Probe α π) : Prop where
  /-- The set is refused exactly if it is not the one that created the cursor. -/
  foreign_iff : r = .error .foreignCursor ↔ k ≠ p.origin
  foreign_eq : k ≠ p.origin → p' = p
  /-- The cursor fails exactly if its set has changed since it was created. -/
  modified_iff : (∃ x y, r = .error (.modified x y)) ↔ k = p.origin ∧ p.changes < e.changes
  modified (x y : Nat) : r = .error (.modified x y) → x = p.version ∧ y = e.inner.version ∧ x < y
  /-- Otherwise it walks on, and what it has walked over is a prefix of the set. -/
  started : k = p.origin → p.changes = e.changes → c = .start → r = .ok none ∧ p'.walked = []
  moved : k = p.origin → p.changes = e.changes → c = .next →
    p.cursor.Moves e.inner p.walked p'.walked r p'.cursor
  isPrefix : k = p.origin → p.changes = e.changes → ∀ vs, e.inner.elements = .ok vs →
    p'.walked <+: p.direction.arrange vs

theorem Probe.call_foreign {s : OrderedSet α} (h : p.cursor.setId ≠ s.id) (c : Cursor.Call) :
    p.call s c = .done (.error .foreignCursor, p) [] :=
  Traced.bind_done (Cursor.call_foreign h c) rfl

theorem Probe.behaves_foreign {k : Nat} (hk : k ≠ p.origin) (c : Cursor.Call) :
    p.Behaves k e c (.error .foreignCursor) p where
  foreign_iff := ⟨fun _ => hk, fun _ => rfl⟩
  foreign_eq _ := rfl
  modified_iff := ⟨nofun, fun h => absurd h.1 hk⟩
  modified := nofun
  started h := absurd h hk
  moved h := absurd h hk
  isPrefix h := absurd h hk

theorem Probe.Fits.exists_call_stale (hp : p.Fits e) (hc : p.changes < e.changes)
    (c : Cursor.Call) :
    ∃ p' es, p.call e.inner c = .done (.error (.modified p.version e.inner.version), p') es ∧
      p'.Fits e ∧ p.Continues p' ∧ p.version < e.inner.version := by
  have hlt : p.version < e.inner.version := by
    have hc' := hp.count_eq
    omega
  have hne : p.cursor.version ≠ e.inner.version := by
    rw [hp.version_eq]
    exact Nat.ne_of_lt hlt
  obtain ⟨c', es, hcall, hid, hv, hd, hs, -⟩ :=
    Cursor.exists_call_stale hp.setId_eq (.inr hne) c
  rw [hp.version_eq] at hcall
  refine ⟨{ p with cursor := c' }, _, Traced.bind_done hcall rfl, ?_, ⟨rfl, rfl, rfl, rfl⟩, hlt⟩
  exact ⟨hid.trans hp.setId_eq, hv.trans hp.version_eq, hd.trans hp.direction_eq, hp.count_eq,
    hp.changes_le, fun _ => hc, fun h => absurd h (Nat.ne_of_lt hc)⟩

theorem Probe.behaves_fresh {c : Cursor.Call} {r : Except Failure (Option α)} {p' : Probe α π}
    (hc : p.changes = e.changes)
    (hr : ∀ f, r = .error f → p.cursor.Raises f)
    (hs : c = .start → r = .ok none ∧ p'.walked = [])
    (hm : c = .next → p.cursor.Moves e.inner p.walked p'.walked r p'.cursor)
    (hv : ∀ vs, e.inner.elements = .ok vs → p'.walked <+: p.direction.arrange vs) :
    p.Behaves p.origin e c r p' where
  foreign_iff := by
    refine ⟨fun h => ?_, fun h => absurd rfl h⟩
    obtain ⟨m, hm⟩ := (hr _ h).exists_eq
    cases hm
  foreign_eq h := absurd rfl h
  modified_iff := by
    refine ⟨?_, fun h => absurd hc (Nat.ne_of_lt h.2)⟩
    rintro ⟨x, y, h⟩
    obtain ⟨m, hm⟩ := (hr _ h).exists_eq
    cases hm
  modified x y h := by
    obtain ⟨m, hm⟩ := (hr _ h).exists_eq
    cases hm
  started _ _ := hs
  moved _ _ := hm
  isPrefix _ _ := hv

theorem Probe.call_next {s : OrderedSet α} {r : Except Failure (Option α)} {c : Cursor π}
    {vs : List α} {es : List Event} (h : p.cursor.call s .next = .done (r, c) es)
    (hm : p.cursor.met s.tree (s.size + 1) = .ok vs)
    (hr : ∀ f, r = .error f → p.cursor.Raises f) :
    ∃ es, p.call s .next = .done (r, { p with cursor := c, walked := p.walked ++ vs }) es := by
  have hl : (liftM _ : Traced Event _) = .done vs [] := Traced.liftM_eq_done hm
  cases r with
  | ok v => exact ⟨_, Traced.bind_done h (Traced.bind_done hl rfl)⟩
  | error f =>
    obtain ⟨m, rfl⟩ := (hr f rfl).exists_eq
    exact ⟨_, Traced.bind_done h (Traced.bind_done hl rfl)⟩

theorem Probe.Fits.exists_call (hp : p.Fits e) (hs : e.holder.IsSound) (c : Cursor.Call) :
    ∃ r p' es, p.call e.inner c = .done (r, p') es ∧ p'.Fits e ∧ p.Continues p' ∧
      p.Behaves p.origin e c r p' := by
  rcases Nat.lt_or_eq_of_le hp.changes_le with hc | hc
  · obtain ⟨p', es, hcall, hp', hcont, hlt⟩ := hp.exists_call_stale hc c
    refine ⟨_, p', es, hcall, hp', hcont, ?_⟩
    exact {
      foreign_iff := ⟨nofun, fun h => absurd rfl h⟩
      foreign_eq := fun h => absurd rfl h
      modified_iff := ⟨fun _ => ⟨rfl, hc⟩, fun _ => ⟨_, _, rfl⟩⟩
      modified := by
        rintro x y ⟨⟩
        exact ⟨rfl, rfl, hlt⟩
      started := fun _ h => absurd h (Nat.ne_of_lt hc)
      moved := fun _ h => absurd h (Nat.ne_of_lt hc)
      isPrefix := fun _ h => absurd h (Nat.ne_of_lt hc) }
  · have hi : p.cursor.state ≠ .invalidated := fun h => absurd hc (Nat.ne_of_lt (hp.stale h))
    have hv : p.cursor.version = e.inner.version := by
      have hc' := hp.count_eq
      rw [hp.version_eq]
      omega
    cases c with
    | start =>
      obtain ⟨c', es, hcall, hid, hv', ha, hd, hf, -⟩ :=
        Cursor.exists_start_fresh hs hp.setId_eq hv hi
      refine ⟨.ok none, { p with cursor := c', walked := [] }, _, Traced.bind_done hcall rfl, ?_,
        ⟨rfl, rfl, rfl, rfl⟩, ?_⟩
      · exact ⟨hid.trans hp.setId_eq, hv'.trans hp.version_eq, hd.trans hp.direction_eq,
          hp.count_eq, hp.changes_le, fun h => absurd h (by rw [ha]; nofun), fun _ => hf⟩
      · exact Probe.behaves_fresh hc nofun (fun _ => ⟨rfl, rfl⟩) nofun fun _ _ => List.nil_prefix
    | next =>
      obtain ⟨r, c', es, vs, hcall, hm, hid, hv', hi', hd, hf, hmoves, -⟩ :=
        Cursor.exists_next_fresh hs hp.setId_eq hv hi (hp.follows hc)
      obtain ⟨es', hcall'⟩ := Probe.call_next hcall hm hmoves.panicked
      refine ⟨r, _, es', hcall', ?_, ⟨rfl, rfl, rfl, rfl⟩, ?_⟩
      · exact ⟨hid.trans hp.setId_eq, hv'.trans hp.version_eq, hd.trans hp.direction_eq,
          hp.count_eq, hp.changes_le, fun h => absurd h hi', fun _ => hf⟩
      · refine Probe.behaves_fresh hc hmoves.panicked nofun (fun _ => hmoves) fun us hus => ?_
        have hpre := hf.isPrefix hus
        rwa [hd, hp.direction_eq] at hpre

end RedBlack
