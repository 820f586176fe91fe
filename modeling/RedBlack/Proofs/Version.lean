import RedBlack.Proofs.Cursor.World
import RedBlack.Proofs.OrderedSet.Reached

/-!
What the version of a set counts. Every operation tells in its answer what it did, and the version
is that of the set when it was made and what the operations since then have told. Nothing is assumed
of the comparator.
-/

set_option autoImplicit false

namespace RedBlack

inductive Operation (α π : Type) where
  | update (u : Update α π)
  /-- Inserts values as into a set of any kind. -/
  | addAll (vs : List α)
  | ask (q : Query α)
  | share
  | unshare
  | poison

/-- An operation with the set that it found and the answer it gave. -/
structure Deed (α π : Type) where
  before : OrderedSet α
  operation : Operation α π
  answer : Except Failure (Reply α)

variable {α π : Type}

/-- The values among these that are new when they are inserted one after the other. -/
def OrderedSet.newcomers (s : OrderedSet α) : List α → Nat
  | [] => 0
  | v :: vs =>
    match s.insert v with
    | .done (new, s) _ => new.toNat + s.newcomers vs
    | .stopped _ => 0

namespace Deed

def inserts (d : Deed α π) : Nat :=
  match d.operation, d.answer with
  | .update (.insert _), .ok (.flag true) => 1
  | .update (.insertMany vs), _ | .update (.extend vs), _ | .addAll vs, _ => d.before.newcomers vs
  | _, _ => 0

def removes (d : Deed α π) : Bool :=
  match d.operation, d.answer with
  | .update (.remove _), .ok (.flag true) => true
  | .update (.take _), .ok (.element (some _)) => true
  | .update (.pop _), .ok (.element (some _)) => true
  | _, _ => false

def clears (d : Deed α π) : Bool :=
  match d.operation with
  | .update .clear => true
  | _ => false

/-- Whether a predicate was to look at some value, whatever came of it. -/
def sifts (d : Deed α π) : Bool :=
  match d.operation with
  | .update (.retain _) => !d.before.isEmpty
  | _ => false

def count (d : Deed α π) : Nat :=
  d.inserts + d.removes.toNat + d.clears.toNat + d.sifts.toNat

end Deed

namespace Holder
variable [Predicate π α] [Render α]

def perform (h : Holder α) : Operation α π → Traced Event (Except Failure (Reply α) × Holder α)
  | .update u => h.update u
  | .addAll vs => do
    let (n, h) ← h.insertMany vs
    return (.ok (.number n), h)
  | .ask q => do return (← h.ask q, h)
  | .share => return (.ok .done, h.share)
  | .unshare => return (.ok .done, h.unshare)
  | .poison => do return (.ok .done, ← h.poison)

def performAll (h : Holder α) : List (Operation α π) → Traced Event (List (Deed α π) × Holder α)
  | [] => return ([], h)
  | op :: ops => do
    let (r, h') ← h.perform op
    let (ds, h') ← h'.performAll ops
    return (⟨h.inner, op, r⟩ :: ds, h')

end Holder

namespace OrderedSet
variable {s s' : OrderedSet α}

theorem newcomers_eq {vs : List α} {n : Nat} {es : List Event}
    (hi : s.insertMany vs = .done (n, s') es) : s.newcomers vs = n := by
  induction vs generalizing s n es with
  | nil =>
    cases hi
    rfl
  | cons v vs ih =>
    obtain ⟨⟨new, s₁⟩, es₁, _, e₁, hr, -⟩ := Traced.bind_eq_done_iff.1 hi
    obtain ⟨⟨m, s₂⟩, _, _, e₂, hr, -⟩ := Traced.bind_eq_done_iff.1 hr
    cases hr
    simp only [newcomers, e₁, ih e₂]
    cases new with
    | false => exact Nat.zero_add m
    | true => exact Nat.add_comm 1 m

variable [Predicate π α]

theorem IsSound.changes_eq_count (h : s.IsSound) {u : Update α π}
    {outcome : Except Failure (Reply α)} {es : List Event}
    (hu : s.update u = .done (outcome, s') es) :
    u.changes s s' = Deed.count ⟨s, .update u, outcome⟩ := by
  have hmore {vs : List α} {n : Nat} {s' : OrderedSet α} {es : List Event}
      (hi : s.insertMany vs = .done (n, s') es) : s'.size - s.size = s.newcomers vs := by
    obtain ⟨m, s₁, _, e, -, hs⟩ := h.exists_insertMany vs
    rw [newcomers_eq hi]
    rw [hi] at e
    cases e
    omega
  have hless {x : Traced Event (Option α × OrderedSet α)} {w : Option α} {s' : OrderedSet α}
      {es : List Event} (hx : ∃ v s' es, x = .done (v, s') es ∧ s.Becomes s' v.isSome.toNat ∧
        s'.size + v.isSome.toNat = s.size) (e : x = .done (w, s') es) :
      s.size - s'.size = w.isSome.toNat := by
    obtain ⟨v, s₁, _, e₁, -, hs⟩ := hx
    rw [e] at e₁
    cases e₁
    omega
  cases u with
  | insert v =>
    obtain ⟨⟨new, _⟩, _, _, hi, hr, -⟩ := Traced.bind_eq_done_iff.1 hu
    cases hr
    obtain ⟨_, _, _, e, -, hs⟩ := h.exists_insert v
    rw [hi] at e
    cases e
    rw [Update.changes, hs, Nat.add_sub_cancel_left]
    cases new <;> rfl
  | insertMany vs | extend vs =>
    obtain ⟨_, _, _, hi, hr, -⟩ := Traced.bind_eq_done_iff.1 hu
    cases hr
    exact hmore hi
  | remove v =>
    obtain ⟨_, _, _, hi, hr, -⟩ := Traced.bind_eq_done_iff.1 hu
    cases hr
    obtain ⟨⟨w, _⟩, _, _, ht, hr, -⟩ := Traced.bind_eq_done_iff.1 hi
    cases hr
    rw [Update.changes, hless (h.exists_take v) ht]
    cases w <;> rfl
  | take v =>
    obtain ⟨⟨w, _⟩, _, _, ht, hr, -⟩ := Traced.bind_eq_done_iff.1 hu
    cases hr
    rw [Update.changes, hless (h.exists_take v) ht]
    cases w <;> rfl
  | pop side =>
    obtain ⟨⟨w, _⟩, _, _, hp, hr, -⟩ := Traced.bind_eq_done_iff.1 hu
    cases hr
    rw [Update.changes, hless (h.exists_pop side) hp]
    cases w <;> rfl
  | clear => rfl
  | retain p =>
    rw [Update.changes, Deed.count, Deed.sifts]
    cases s.isEmpty <;> rfl

end OrderedSet

namespace Holder
variable [Predicate π α] [Render α] {h : Holder α}

theorem IsSound.exists_perform (hs : h.IsSound) (op : Operation α π) :
    ∃ r h' es, h.perform op = .done (r, h') es ∧
      h.inner.Becomes h'.inner (Deed.count ⟨h.inner, op, r⟩) := by
  have hself : h.inner.Becomes h.inner 0 := OrderedSet.IsSound.becomes_self hs
  cases op with
  | update u =>
    obtain ⟨outcome, s', _, e, hb, -⟩ := OrderedSet.IsSound.exists_update hs u
    obtain ⟨h', es, e', rfl⟩ := update_done e
    rw [OrderedSet.IsSound.changes_eq_count hs e] at hb
    exact ⟨outcome, h', es, e', hb⟩
  | addAll vs =>
    obtain ⟨n, s', _, e, hb, -⟩ := OrderedSet.IsSound.exists_insertMany hs vs
    obtain ⟨h', es, e', rfl⟩ := insertMany_done e
    rw [← OrderedSet.newcomers_eq e] at hb
    exact ⟨_, h', _, Traced.bind_done e' rfl, hb⟩
  | ask q =>
    obtain ⟨r, _, e, -⟩ := hs.exists_ask q
    exact ⟨r, h, _, Traced.bind_done e rfl, hself⟩
  | share => cases h <;> exact ⟨.ok .done, _, [], rfl, hself⟩
  | unshare => exact ⟨.ok .done, h.unshare, [], rfl, hself⟩
  | poison => cases h <;> exact ⟨.ok .done, _, _, rfl, hself⟩

theorem IsSound.exists_performAll (hs : h.IsSound) (ops : List (Operation α π)) :
    ∃ ds h' es, h.performAll ops = .done (ds, h') es ∧
      h.inner.Becomes h'.inner (ds.map Deed.count).sum := by
  induction ops generalizing h with
  | nil => exact ⟨[], h, [], rfl, OrderedSet.IsSound.becomes_self hs⟩
  | cons op ops ih =>
    obtain ⟨r, h₁, _, e₁, hb₁⟩ := hs.exists_perform op
    obtain ⟨ds, h₂, _, e₂, hb₂⟩ := ih hb₁.isSound
    exact ⟨⟨h.inner, op, r⟩ :: ds, h₂, _, Traced.bind_done e₁ (Traced.bind_done e₂ rfl),
      hb₁.trans hb₂⟩

end Holder

theorem Deed.sum_count (ds : List (Deed α π)) :
    (ds.map count).sum = (ds.map inserts).sum + ds.countP removes + ds.countP clears +
      ds.countP sifts := by
  induction ds with
  | nil => rfl
  | cons d ds ih =>
    simp only [List.map_cons, List.sum_cons, List.countP_cons, ih, count, Bool.toNat]
    cases d.removes <;> cases d.clears <;> cases d.sifts <;> simp <;> omega

/-- The ways in which a set is made, and its version then. The result of a set operation has been
filled by insertions. -/
inductive OrderedSet.Made [BEq α] : OrderedSet α → Nat → Prop
  | empty (id : Nat) (settings : Settings α) : Made (.empty id settings) 0
  | clone {s : OrderedSet α} (id : Nat) : s.Reached → Made (s.clone id) 0
  | deepClone {s : OrderedSet α} (id : Nat) : s.Reached → Made (s.deepClone id) 0
  | combine {h c : Holder α} {kind : Combination} {id : Nat} {o : Operand α} {es : List Event} :
    h.combine kind id o = .done c es → Made c.inner c.inner.size

theorem OrderedSet.Made.isSound_and_version_eq [BEq α] {s : OrderedSet α} {n : Nat}
    (h : s.Made n) : s.IsSound ∧ s.version = n := by
  cases h with
  | empty id settings => exact ⟨isSound_empty id settings, rfl⟩
  | clone id hs => exact ⟨hs.isSound.clone id, rfl⟩
  | deepClone id hs => exact ⟨hs.isSound.deepClone id, rfl⟩
  | @combine h c kind id o es hc =>
    obtain ⟨s, _, _, -, hr, -⟩ := Traced.bind_eq_done_iff.1 hc
    obtain ⟨⟨a, b⟩, _, _, -, hr, -⟩ := Traced.bind_eq_done_iff.1 hr
    obtain ⟨s', _, _, hi, hr, -⟩ := Traced.bind_eq_done_iff.1 hr
    cases hr
    obtain ⟨n, hn⟩ := (IsSound.emptyLike s id).insertCombination hi
    rw [Holder.inner_renew]
    exact ⟨hn.isSound, hn.version_eq.trans hn.size_eq.symm⟩

/-- After any operations on a set since it was made, its version counts the values inserted, those
taken out, and the times it was cleared or had a predicate look at its values. What leaves the
version as it is leaves the set as it is. -/
theorem Holder.version_performAll [Predicate π α] [Render α] [BEq α] {h : Holder α} {n : Nat}
    (hm : h.inner.Made n) (ops : List (Operation α π)) :
    ∃ ds h' es, h.performAll ops = .done (ds, h') es ∧
      h'.inner.version = n + (ds.map Deed.inserts).sum + ds.countP Deed.removes +
        ds.countP Deed.clears + ds.countP Deed.sifts ∧
      ∀ op : Operation α π, ∃ r h'' es', h'.perform op = .done (r, h'') es' ∧
        (h''.inner.version = h'.inner.version → h''.inner = h'.inner) := by
  obtain ⟨hs, hn⟩ := hm.isSound_and_version_eq
  obtain ⟨ds, h', es, e, hb⟩ := IsSound.exists_performAll hs ops
  refine ⟨ds, h', es, e, ?_, fun op => ?_⟩
  · rw [hb.version_eq, hn, Deed.sum_count]
    simp only [Nat.add_assoc]
  · obtain ⟨r, h'', es', e', hb'⟩ := IsSound.exists_perform hb.isSound op
    -- An unchanged version leaves no room for a change, and no change leaves the same set.
    refine ⟨r, h'', es', e', fun hv => hb'.unchanged ?_⟩
    rw [hb'.version_eq] at hv
    omega

def Operation.mixed : List (Operation Element Condition) :=
  [.update (.insertMany [.int 3, .int 1, .int 4, .int 2, .int 3]), .share,
    .update (.remove (.int 4)), .update (.remove (.int 7)), .update (.pop .left), .update .clear,
    .update .clear, .update (.retain (.constant false)), .addAll [.int 3, .int 3]]

theorem Holder.version_performAll_lopsided :
    ∃ ds h es, (Holder.plain (OrderedSet.empty 0
        ⟨⟨"Lopsided", .custom, Element.byParity⟩, none, false⟩)).performAll Operation.mixed =
        .done (ds, h) es ∧
      ds.map Deed.count = [4, 0, 1, 0, 1, 1, 1, 0, 1] ∧ h.inner.version = 9 := by
  obtain ⟨ds, h, es, e, hv, -⟩ := Holder.version_performAll (h := .plain (OrderedSet.empty 0
    ⟨⟨"Lopsided", .custom, Element.byParity⟩, none, false⟩)) (.empty ..) Operation.mixed
  obtain ⟨ds', h', es', e', hc, hn⟩ : ∃ ds' h' es', (Holder.plain (OrderedSet.empty 0
      ⟨⟨"Lopsided", .custom, Element.byParity⟩, none, false⟩)).performAll Operation.mixed =
        .done (ds', h') es' ∧ ds'.map Deed.count = [4, 0, 1, 0, 1, 1, 1, 0, 1] ∧
          (ds'.map Deed.inserts).sum + ds'.countP Deed.removes + ds'.countP Deed.clears +
            ds'.countP Deed.sifts = 9 := ⟨_, _, _, rfl, rfl, rfl⟩
  rw [e] at e'
  cases e'
  exact ⟨ds, h, es, e, hc, by rw [hv]; omega⟩

end RedBlack
