import RedBlack.Element.Comparators
import RedBlack.Element.Condition
import RedBlack.Proofs.Lock.Session
import RedBlack.Proofs.Workspace.Safety

/-!
Runs of a session beside runs of the set inside. Every call of the one that does not concern the
lock is answered as in the other and leaves the same set, whenever the lock was taken, given or lost
to a panic; the lock shows in nothing but its warnings and its own state.
-/

set_option autoImplicit false

namespace RedBlack
variable {α π : Type}

theorem OrderedSet.IsSound.ask_extreme [Render α] {s : OrderedSet α} (h : s.IsSound)
    (he : s.isEmpty = true) (side : Side) : s.ask (.extreme side) = .ok (.error .emptySet) := by
  obtain ⟨t, ht⟩ := h
  cases t with
  | nil =>
    simp only [OrderedSet.ask, ht.extreme]
    rfl
  | node => simp [OrderedSet.isEmpty, ht.size_eq, Tree.toList] at he

namespace Session
variable {s s' : Session α π} {c : Call α π}

structure IsSound (s : Session α π) : Prop where
  holder : s.holder.IsSound
  suits : ∀ c ∈ s.cursors, c.setId = s.holder.inner.id → c.Suits s.holder.inner

/-- Every other set that a call involves is sound. -/
def Call.IsSound : Call α π → Prop
  | relate _ o | combine _ _ o => o.IsSound
  | relateTo _ c => c.IsSound
  | combineWith _ _ h => h.IsSound
  | _ => True

theorem IsSound.change {h : Holder α} {n : Nat} (hs : s.IsSound)
    (hb : s.holder.inner.Becomes h.inner n) : IsSound { s with holder := h } :=
  ⟨hb.isSound, fun c hc hid => (hs.suits c hc (hid.trans hb.id_eq)).change hb⟩

theorem IsSound.put {cs : List (Cursor π)} (hs : s.IsSound)
    (h : ∀ c ∈ cs, c ∈ s.cursors ∨ (c.setId = s.holder.inner.id → c.Suits s.holder.inner)) :
    IsSound { s with cursors := cs } :=
  ⟨hs.holder, fun c hc => (h c hc).elim (hs.suits c) id⟩

theorem IsSound.adapt {f : Cursor π → Cursor π} (hs : s.IsSound) (i : Nat)
    (hid : ∀ c : Cursor π, (f c).setId = c.setId)
    (hf : ∀ c : Cursor π, c.Suits s.holder.inner → (f c).Suits s.holder.inner) :
    (s.adapt i f).IsSound := by
  refine hs.put fun c hc => ?_
  obtain ⟨j, hj⟩ := List.mem_iff_getElem?.1 hc
  rw [List.getElem?_modify] at hj
  obtain ⟨c₀, h₀, rfl⟩ := Option.map_eq_some_iff.1 hj
  have hmem := List.mem_of_getElem? h₀
  split
  · refine .inr fun he => hf c₀ (hs.suits c₀ hmem ?_)
    rwa [← hid c₀]
  · exact .inl hmem

variable [BEq α] [Ord α] [Render α] [Predicate π α]

theorem serve_panic (s : Session α π) :
    s.serve .panic = .done (.nothing, { s with holder := s.holder.hold s.holder.inner true })
      s.holder.warnings := by
  simp [serve, Holder.poison_eq, Traced.done_bind, Traced.pure_eq]

theorem IsSound.exists_serve (hs : s.IsSound) (hc : c.IsSound) :
    ∃ r s' es, s.serve c = .done (r, s') es ∧ s'.IsSound := by
  cases c with
  | update u =>
    obtain ⟨r, h, es, e, hb, -⟩ := hs.holder.exists_update u
    exact ⟨_, _, _, Traced.bind_done e rfl, hs.change hb⟩
  | insertMany vs =>
    obtain ⟨n, h, es, e, hb, -⟩ := hs.holder.exists_insertMany vs
    exact ⟨_, _, _, Traced.bind_done e rfl, hs.change hb⟩
  | ask q =>
    obtain ⟨r, es, e, -⟩ := hs.holder.exists_ask q
    exact ⟨_, _, _, Traced.bind_done e rfl, hs⟩
  | count =>
    obtain ⟨v, es, e, -⟩ := hs.holder.exists_view
    exact ⟨_, _, _, Traced.bind_done e rfl, hs⟩
  | snapshot =>
    have hordered : (Container.ordered s.holder).IsSound := hs.holder
    obtain ⟨vs, es, e⟩ := hordered.exists_snapshot
    exact ⟨_, _, _, Traced.bind_done e rfl, hs⟩
  | relate r o =>
    have hordered : (Container.ordered s.holder).IsSound := hs.holder
    obtain ⟨a, b, es, e, ha, hb⟩ := hordered.exists_views hc
    obtain ⟨k, hk⟩ := ha.exists_holds hb r
    exact ⟨_, _, _, Traced.bind_done e (Traced.bind_done (Traced.liftM_eq_done hk) rfl), hs⟩
  | relateTo r c =>
    have hordered : (Operand.other (.ordered s.holder)).IsSound := hs.holder
    obtain ⟨a, b, es, e, ha, hb⟩ := Container.IsSound.exists_views hc hordered
    obtain ⟨k, hk⟩ := ha.exists_holds hb r
    exact ⟨_, _, _, Traced.bind_done e (Traced.bind_done (Traced.liftM_eq_done hk) rfl), hs⟩
  | combine kind id o =>
    obtain ⟨h, es, n, e, -⟩ := hs.holder.exists_combine kind id hc
    exact ⟨_, _, _, Traced.bind_done e rfl, hs⟩
  | combineWith kind id h =>
    have hordered : (Operand.other (.ordered s.holder)).IsSound := hs.holder
    obtain ⟨h, es, n, e, -⟩ := Holder.IsSound.exists_combine hc kind id hordered
    exact ⟨_, _, _, Traced.bind_done e rfl, hs⟩
  | derive d id =>
    obtain ⟨es, e⟩ := s.holder.exists_acquire
    exact ⟨_, _, _, Traced.bind_done e rfl, hs⟩
  | cursor d =>
    obtain ⟨es, ha⟩ := s.holder.exists_acquire
    obtain ⟨c, e, hid, hv, -, -, hf⟩ := OrderedSet.IsSound.exists_cursor (π := π) hs.holder d
    refine ⟨_, _, _, Traced.bind_done ha (Traced.bind_done (Traced.liftM_eq_done e) rfl), ?_⟩
    refine hs.put fun x hx => ?_
    rcases List.mem_append.1 hx with hx | hx
    · exact .inl hx
    · obtain rfl := List.mem_singleton.1 hx
      exact .inr fun _ => ⟨Nat.le_of_eq hv, fun _ _ => ⟨_, hf⟩⟩
  | filter i p =>
    exact ⟨_, _, [], rfl, hs.adapt i (fun _ => rfl) fun _ h => h.filter p⟩
  | takeWhile i p =>
    exact ⟨_, _, [], rfl, hs.adapt i (fun _ => rfl) fun _ h => h.takeWhile p⟩
  | call i k =>
    obtain ⟨es, ha⟩ := s.holder.exists_acquire
    cases hi : s.cursors[i]? with
    | none =>
      refine ⟨.nothing, s, es ++ [], Traced.bind_done ha ?_, hs⟩
      rw [hi]
      rfl
    | some c =>
      obtain ⟨r, c', es', e, hr, -⟩ :=
        Cursor.exists_call hs.holder (hs.suits c (List.mem_of_getElem? hi)) k
      refine ⟨.yielded r, { s with cursors := s.cursors.set i c' }, es ++ (es' ++ []),
        Traced.bind_done ha ?_, hs.put fun x hx => ?_⟩
      · rw [hi]
        exact Traced.bind_done e rfl
      · rcases List.mem_or_eq_of_mem_set hx with hx | rfl
        · exact .inl hx
        · exact .inr fun he => hr.suits (hr.setId_eq ▸ he)
  | panic =>
    refine ⟨_, _, _, serve_panic s, hs.change (n := 0) ?_⟩
    rw [s.holder.inner_hold]
    exact OrderedSet.IsSound.becomes_self hs.holder
  | share =>
    refine ⟨_, _, [], rfl, hs.change (n := 0) ?_⟩
    rw [s.holder.inner_share]
    exact OrderedSet.IsSound.becomes_self hs.holder
  | unshare => exact ⟨_, _, [], rfl, hs.change (OrderedSet.IsSound.becomes_self hs.holder)⟩

/-- One call of a run: what it found, what came of it, and what was reported meanwhile. -/
structure Turn (α π : Type) where
  before : Session α π
  call : Call α π
  result : Result α
  after : Session α π
  log : List Event

def serveAll (s : Session α π) : List (Call α π) → Except Fault (List (Turn α π))
  | [] => return []
  | c :: cs =>
    match s.serve c with
    | .stopped e => throw e
    | .done (r, s') es => return ⟨s, c, r, s', es⟩ :: (← s'.serveAll cs)

theorem serveAll_cons_eq_ok_iff {cs : List (Call α π)} {ts : List (Turn α π)} :
    s.serveAll (c :: cs) = .ok ts ↔ ∃ r s' es us, s.serve c = .done (r, s') es ∧
      s'.serveAll cs = .ok us ∧ ts = ⟨s, c, r, s', es⟩ :: us := by
  rw [serveAll]
  cases s.serve c with
  | stopped e => simp [throw, throwThe, MonadExceptOf.throw]
  | done x es =>
    obtain ⟨r, s'⟩ := x
    cases hs : s'.serveAll cs with
    | error e => simp [hs]
    | ok us => simp [hs, pure, Except.pure, eq_comm]

namespace Turn
variable {t : Turn α π}

omit [BEq α] [Ord α] [Render α] [Predicate π α]

/-- A call beside the same call of the set inside. -/
structure Mirrors (t t' : Turn α π) : Prop where
  call_eq : t'.call = t.call.bare
  before_eq : t'.before = t.before.bare
  after_eq : t'.after = t.after.bare
  result_eq : t.result = t'.result.behind t.before.holder t.call
  log_eq : t.log = t.call.warnings t.before.holder ++ t'.log

/-- What a call does with the lock. -/
structure Guards (t : Turn α π) : Prop where
  /-- Nothing but a panic of whoever writes poisons it. -/
  holder_eq : t.call ≠ .share → t.call ≠ .unshare → t.after.holder =
    t.before.holder.hold t.after.holder.inner
      (t.before.holder.isPoisoned || t.call.poisons t.result)
  /-- An empty set fails to name its ends, and the lock is none the worse for it. -/
  extreme : ∀ side, t.call = .ask (.extreme side) → t.before.holder.inner.isEmpty →
    t.result = .replied (.error .emptySet) ∧ t.after = t.before
  /-- What concerns the lock alone leaves the set as it is. -/
  hidden : t.call.concernsLock → t.result = .nothing ∧ t.after.bare = t.before.bare ∧
    t.log = t.call.warnings t.before.holder
  /-- Nothing cures a lock, one can only take the set from behind it. -/
  poisoned : t.call ≠ .unshare → t.before.holder.isPoisoned → t.after.holder.isPoisoned

end Turn

variable {r : Result α} {es : List Event} {cs : List (Call α π)} {t : Turn α π}
  {ts : List (Turn α π)}

theorem serve_extreme (hs : s.IsSound) (he : s.holder.inner.isEmpty) (side : Side) :
    s.serve (.ask (.extreme side)) = .done (.replied (.error .emptySet), s) s.holder.warnings := by
  have hp : s.holder.present (.extreme side) (.error .emptySet) = .error .emptySet := by
    cases s.holder <;> rfl
  rw [serve, Holder.ask_eq, hs.holder.ask_extreme he]
  simp [hp, Traced.after_pure]

theorem guards_of_serve (hs : s.IsSound) (h : s.serve c = .done (r, s') es) :
    Turn.Guards ⟨s, c, r, s', es⟩ := by
  cases hc : c.concernsLock with
  | false =>
    obtain ⟨_, _, -, -, -, hh⟩ := exists_serve_bare hc h
    refine ⟨fun _ _ => hh, ?_, fun hc' => ?_, fun _ hp => ?_⟩
    · rintro side rfl he
      cases h.symm.trans (serve_extreme hs he side)
      exact ⟨rfl, rfl⟩
    · rw [hc] at hc'
      cases hc'
    · rw [hh]
      exact Holder.isPoisoned_hold hp ..
  | true =>
    cases c with
    | panic =>
      cases h.symm.trans (serve_panic s)
      refine ⟨fun _ _ => ?_, nofun, fun _ => ⟨rfl, by simp, rfl⟩, fun _ hp => ?_⟩
      · simp
      · have hh := Holder.isPoisoned_hold hp s.holder.inner true
        rwa [Bool.or_true] at hh
    | share =>
      cases h
      refine ⟨fun h => absurd rfl h, nofun, fun _ => ⟨rfl, ?_, rfl⟩, fun _ hp => ?_⟩
      · rw [bare, bare, Holder.inner_share]
      · exact s.holder.isPoisoned_share.trans hp
    | unshare =>
      cases h
      exact ⟨fun _ h => absurd rfl h, nofun, fun _ => ⟨rfl, rfl, rfl⟩, fun h => absurd rfl h⟩
    | _ => cases hc

theorem exists_serveAll_of_cons (h : s.serveAll cs = .ok (t :: ts)) :
    t.before = s ∧ ∃ cs', t.after.serveAll cs' = .ok ts := by
  cases cs with
  | nil => cases h
  | cons c cs =>
    obtain ⟨r, s', es, us, -, hs, ht⟩ := serveAll_cons_eq_ok_iff.1 h
    cases ht
    exact ⟨rfl, cs, hs⟩

/-- A poisoned lock stays so as long as the set is not taken from behind it. -/
theorem poisoned_of_serveAll {us : List (Turn α π)} (h : s.serveAll cs = .ok (ts ++ us))
    (hg : ∀ t ∈ ts, t.Guards) (hu : ∀ t ∈ ts, t.call ≠ .unshare) (hp : s.holder.isPoisoned) :
    ∀ t ∈ ts, t.after.holder.isPoisoned := by
  induction ts generalizing s cs with
  | nil => exact List.forall_mem_nil _
  | cons t ts ih =>
    obtain ⟨rfl, cs', h'⟩ := exists_serveAll_of_cons h
    obtain ⟨hgt, hgs⟩ := List.forall_mem_cons.1 hg
    obtain ⟨hut, hus⟩ := List.forall_mem_cons.1 hu
    have ht := hgt.poisoned hut hp
    exact List.forall_mem_cons.2 ⟨ht, ih h' hgs hus ht⟩

theorem poisoned_of_infix {us : List (Turn α π)} (h : s.serveAll cs = .ok ts)
    (hg : ∀ t ∈ ts, t.Guards) (hi : t :: us <:+: ts) (hp : t.after.holder.isPoisoned)
    (hu : ∀ u ∈ us, u.call ≠ .unshare) : ∀ u ∈ us, u.after.holder.isPoisoned := by
  obtain ⟨pre, post, rfl⟩ := hi
  induction pre generalizing s cs with
  | nil =>
    obtain ⟨-, cs', h'⟩ := exists_serveAll_of_cons h
    exact poisoned_of_serveAll h' (fun u hu => hg u (by simp [hu])) hu hp
  | cons p pre ih =>
    obtain ⟨-, cs', h'⟩ := exists_serveAll_of_cons h
    exact ih h' fun u hu => hg u (List.mem_cons_of_mem _ hu)

/-- Whatever is done to its lock in between, a set behind one answers every call as it would without
and ends up the same. A lock once poisoned stays so until the set is taken from behind it. -/
theorem serveAll_mirrors (hs : s.IsSound) (cs : List (Call α π)) (hcs : ∀ c ∈ cs, c.IsSound) :
    ∃ ts ts', s.serveAll cs = .ok ts ∧
      s.bare.serveAll ((cs.filter (!·.concernsLock)).map Call.bare) = .ok ts' ∧
      List.Forall₂ Turn.Mirrors (ts.filter (!·.call.concernsLock)) ts' ∧
      (∀ t ∈ ts, t.Guards) ∧
      ∀ t us, t :: us <:+: ts → t.after.holder.isPoisoned → (∀ u ∈ us, u.call ≠ .unshare) →
        ∀ u ∈ us, u.after.holder.isPoisoned := by
  suffices h : ∃ ts ts', s.serveAll cs = .ok ts ∧
      s.bare.serveAll ((cs.filter (!·.concernsLock)).map Call.bare) = .ok ts' ∧
      List.Forall₂ Turn.Mirrors (ts.filter (!·.call.concernsLock)) ts' ∧ ∀ t ∈ ts, t.Guards by
    obtain ⟨ts, ts', h, h', hm, hg⟩ := h
    exact ⟨ts, ts', h, h', hm, hg, fun t us => poisoned_of_infix h hg⟩
  induction cs generalizing s with
  | nil => exact ⟨[], [], rfl, rfl, .nil, List.forall_mem_nil _⟩
  | cons c cs ih =>
    obtain ⟨hc, hcs⟩ := List.forall_mem_cons.1 hcs
    obtain ⟨r, s', es, e, hs'⟩ := hs.exists_serve hc
    obtain ⟨ts, ts', h, h', hm, hg⟩ := ih hs' hcs
    have hgt := guards_of_serve hs e
    have hall := serveAll_cons_eq_ok_iff.2 ⟨r, s', es, ts, e, h, rfl⟩
    cases hl : c.concernsLock with
    | false =>
      obtain ⟨r', es', e', hr, hes, -⟩ := exists_serve_bare hl e
      have hall' := serveAll_cons_eq_ok_iff.2 ⟨r', s'.bare, es', ts', e', h', rfl⟩
      refine ⟨_, _, hall, by simpa [hl] using hall', ?_, List.forall_mem_cons.2 ⟨hgt, hg⟩⟩
      simpa [hl] using ⟨⟨rfl, rfl, rfl, hr, hes⟩, hm⟩
    | true =>
      obtain ⟨-, hb, -⟩ := hgt.hidden hl
      refine ⟨_, ts', hall, ?_, by simpa [hl] using hm, List.forall_mem_cons.2 ⟨hgt, hg⟩⟩
      rw [List.filter_cons, hl]
      exact hb ▸ h'

/-- An empty set is asked for its least element; later a `retain` panics half way, and so does
someone else with the lock in hand. The warnings of every call are counted until the set is taken
out. -/
theorem serveAll_mirrors_panics :
    ∃ (s : Session Element Condition) (cs : List (Call Element Condition))
      (ts ts' : List (Turn Element Condition)), s.IsSound ∧ (∀ c ∈ cs, c.IsSound) ∧
        s.serveAll cs = .ok ts ∧
          s.bare.serveAll ((cs.filter (!·.concernsLock)).map Call.bare) = .ok ts' ∧
            List.Forall₂ Turn.Mirrors (ts.filter (!·.call.concernsLock)) ts' ∧
              (∀ t ∈ ts, t.Guards) ∧
                ts.map (fun t => (t.after.holder.isPoisoned, t.log.count .recovered)) =
                  [(false, 0), (false, 0), (false, 0), (true, 0), (true, 2), (true, 3), (true, 1),
                    (true, 1), (true, 1), (false, 0), (false, 0)] := by
  let other : OrderedSet Element := .empty 1 ⟨.natural Element, none, false⟩
  let s : Session Element Condition :=
    ⟨.shared (.share (.empty 0 ⟨.natural Element, none, false⟩)), []⟩
  let cs : List (Call Element Condition) :=
    [.ask (.extreme .left), .insertMany [.int 1, .int 2, .int 3], .cursor .ascending,
      .update (.retain (.refusing (.int 2) (.constant true))), .combine .union 2 .itself,
      .combine .intersection 3 (.other (.ordered (.shared ⟨other, true⟩))), .panic, .call 0 .next,
      .ask (.extreme .left), .unshare, .count]
  have hother : other.IsSound := ⟨.nil, OrderedSet.represents_empty ..⟩
  have hs : s.IsSound := ⟨⟨.nil, OrderedSet.represents_empty ..⟩, nofun⟩
  have hcs : ∀ c ∈ cs, c.IsSound := by
    simpa [cs, Call.IsSound, Operand.IsSound, Container.IsSound, Holder.IsSound, Holder.inner]
      using hother
  obtain ⟨ts, ts', h, h', hm, hg, -⟩ := serveAll_mirrors hs cs hcs
  refine ⟨s, cs, ts, ts', hs, hcs, h, h', hm, hg, ?_⟩
  have hcount : (s.serveAll cs).map
      (List.map fun t => (t.after.holder.isPoisoned, t.log.count .recovered)) =
        .ok [(false, 0), (false, 0), (false, 0), (true, 0), (true, 2), (true, 3), (true, 1),
          (true, 1), (true, 1), (false, 0), (false, 0)] := by decide +kernel
  rw [h] at hcount
  exact Except.ok.inj hcount

end Session
end RedBlack
