import RedBlack.Proofs.Workspace.Invariant
import RedBlack.Proofs.Workspace.Sets

set_option autoImplicit false

namespace RedBlack

section Cursors
variable {α π : Type} [Predicate π α] {c c' : Cursor π} {h : Holder α}

def Cursor.IsCurrent (c : Cursor π) (s : OrderedSet α) : Prop :=
  c.setId = s.id ∧ c.version = s.version ∧ c.state ≠ .invalidated

theorem Cursor.exists_call_refused {s : OrderedSet α} (hc : c.setId = s.id → c.Suits s)
    (hn : ¬c.IsCurrent s) (k : Cursor.Call) :
    ∃ f c' es, c.call s k = .done (.error f, c') es ∧ c.Remains c' s ∧ f.isPanic = false := by
  by_cases hid : c.setId = s.id
  · have hst : c.state = .invalidated ∨ c.version ≠ s.version := by
      by_contra hst
      obtain ⟨hi, hv⟩ := not_or.1 hst
      exact hn ⟨hid, not_not.1 hv, hi⟩
    obtain ⟨c', es, hcall, hid', hv', -, hi', hr⟩ := Cursor.exists_call_stale hid hst k
    refine ⟨_, c', es, hcall, ⟨hid', fun hn => absurd hid hn, fun _ => ⟨?_, ?_⟩, hr⟩, rfl⟩
    · exact hv' ▸ (hc hid).version_le
    · exact fun _ hi => absurd hi' hi
  · exact ⟨_, c, [], Cursor.call_foreign hid k, Cursor.remains_self hc, rfl⟩

theorem Cursor.exists_call {s : OrderedSet α} (hs : s.IsSound) (hc : c.setId = s.id → c.Suits s)
    (k : Cursor.Call) :
    ∃ r c' es, c.call s k = .done (r, c') es ∧ c.Remains c' s ∧
      ∀ f, r = .error f → f.isPanic = true → k = .next ∧ c.Raises f := by
  by_cases hcur : c.IsCurrent s
  · obtain ⟨hid, hv, hi⟩ := hcur
    cases k with
    | start =>
      obtain ⟨c', es, hcall, hid', hv', ha, -, hf, hr⟩ := Cursor.exists_start_fresh hs hid hv hi
      refine ⟨_, c', es, hcall, ⟨hid', fun hn => absurd hid hn, fun _ => ⟨?_, ?_⟩, hr⟩, nofun⟩
      · exact hv' ▸ (hc hid).version_le
      · exact fun _ _ => ⟨_, hf⟩
    | next =>
      obtain ⟨walked, hwalked⟩ := (hc hid).exists_follows hv hi
      obtain ⟨r, c', es, vs, hcall, -, hid', hv', -, -, hf, hm, hr⟩ :=
        Cursor.exists_next_fresh hs hid hv hi hwalked
      refine ⟨r, c', es, hcall, ⟨hid', fun hn => absurd hid hn, fun _ => ⟨?_, ?_⟩, hr⟩,
        fun f hf _ => ⟨rfl, hm.panicked f hf⟩⟩
      · exact hv' ▸ (hc hid).version_le
      · exact fun _ _ => ⟨_, hf⟩
  · obtain ⟨f, c', es, hcall, hr, hf⟩ := Cursor.exists_call_refused hc hcur k
    refine ⟨_, c', es, hcall, hr, ?_⟩
    rintro _ ⟨⟩ hp
    rw [hf] at hp
    cases hp

namespace Holder

theorem IsSound.exists_next (hs : h.IsSound) (hc : c.setId = h.inner.id → c.Suits h.inner) :
    ∃ r c' es, h.next c = .done (r, c') es ∧ c.Remains c' h.inner ∧
      ∀ f, r = .error f → f.isPanic = true → c.Raises f := by
  obtain ⟨_, ha⟩ := h.exists_acquire
  obtain ⟨r, c', es, hcall, hr, hf⟩ := Cursor.exists_call hs hc .next
  exact ⟨r, c', _, Traced.bind_done ha hcall, hr, fun f h h' => (hf f h h').2⟩

theorem IsSound.exists_nextMany (hs : h.IsSound) (hc : c.setId = h.inner.id → c.Suits h.inner)
    (n : Nat) :
    ∃ ys c' es, h.nextMany c n = .done (ys, c') es ∧ c.Remains c' h.inner ∧
      ∀ f, .error f ∈ ys → f.isPanic = true → c.Raises f := by
  induction n generalizing c with
  | zero => exact ⟨[], c, [], rfl, Cursor.remains_self hc, nofun⟩
  | succ n ih =>
    obtain ⟨y, c₁, _, e₁, hr₁, hf₁⟩ := hs.exists_next hc
    obtain ⟨ys, c₂, _, e₂, hr₂, hf₂⟩ := ih fun hid => hr₁.suits (hr₁.setId_eq ▸ hid)
    refine ⟨y :: ys, c₂, _, Traced.bind_done e₁ (Traced.bind_done e₂ rfl), hr₁.trans hr₂, ?_⟩
    intro f hf
    rcases List.mem_cons.1 hf with hf | hf
    · exact hf₁ f hf.symm
    · exact fun hp => hr₁.raises f (hf₂ f hf hp)

/-- Each call that yields an element leaves one less ahead, so that there are no more such calls
than elements. -/
theorem IsSound.exists_drainWithin {n : Nat} {walked : List α} (hs : h.IsSound)
    (hcur : c.IsCurrent h.inner) (hf : c.Follows h.inner walked)
    (hn : h.inner.size < walked.length + n) :
    ∃ ys c' es, h.drainWithin c n = .done (ys, c') es ∧ c.Remains c' h.inner ∧
      ∀ f, .error f ∈ ys → f.isPanic = true → c.Raises f := by
  induction n generalizing c walked with
  | zero =>
    obtain ⟨vs, hvs, hl⟩ := OrderedSet.IsSound.exists_elements hs
    have hle := (hf.isPrefix hvs).length_le
    rw [Direction.length_arrange, hl] at hle
    omega
  | succ n ih =>
    obtain ⟨hid, hv, hi⟩ := hcur
    obtain ⟨_, ha⟩ := h.exists_acquire
    obtain ⟨r, c₁, es, vs, hcall, -, hid₁, hv₁, hi₁, -, hf₁, hm, hraises⟩ :=
      Cursor.exists_next_fresh hs hid hv hi hf
    have hnext : h.next c = .done (r, c₁) _ := Traced.bind_done ha hcall
    have hrem : c.Remains c₁ h.inner :=
      ⟨hid₁, fun hne => absurd hid hne, fun _ => ⟨by omega, fun _ _ => ⟨_, hf₁⟩⟩, hraises⟩
    cases r with
    | error f =>
      refine ⟨[.error f], c₁, _, Traced.bind_done hnext rfl, hrem, fun g hg _ => ?_⟩
      exact hm.panicked g (List.mem_singleton.1 hg).symm
    | ok y =>
      cases y with
      | none => exact ⟨[], c₁, _, Traced.bind_done hnext rfl, hrem, nofun⟩
      | some v =>
        have hlt := (hm.yielded v rfl).1
        obtain ⟨ys, c₂, _, e₂, hr₂, hf₂⟩ :=
          ih ⟨hid₁.trans hid, hv₁.trans hv, hi₁⟩ hf₁ (by omega)
        refine ⟨.ok (some v) :: ys, c₂, _, Traced.bind_done hnext (Traced.bind_done e₂ rfl),
          hrem.trans hr₂, fun f hf => ?_⟩
        rcases List.mem_cons.1 hf with hf | hf
        · cases hf
        · exact fun hp => hraises f (hf₂ f hf hp)

theorem IsSound.exists_drain (hs : h.IsSound) (hc : c.setId = h.inner.id → c.Suits h.inner) :
    ∃ ys c' es, h.drain c = .done (ys, c') es ∧ c.Remains c' h.inner ∧
      ∀ f, .error f ∈ ys → f.isPanic = true → c.Raises f := by
  by_cases hcur : c.IsCurrent h.inner
  · obtain ⟨walked, hf⟩ := (hc hcur.1).exists_follows hcur.2.1 hcur.2.2
    exact hs.exists_drainWithin hcur hf (by omega)
  · obtain ⟨_, ha⟩ := h.exists_acquire
    obtain ⟨f, c', es, hcall, hr, hf⟩ := Cursor.exists_call_refused hc hcur .next
    have hnext : h.next c = .done (.error f, c') _ := Traced.bind_done ha hcall
    refine ⟨[.error f], c', _, Traced.bind_done hnext rfl, hr, fun g hg hp => ?_⟩
    cases List.mem_singleton.1 hg
    rw [hf] at hp
    cases hp

end Holder

namespace Workspace
variable {w : Workspace α π} {P : Failure → Prop} {name n : String}

theorem Sound.proper_useCursor (hw : w.Sound) (hc : w.cursors.get? name = some c)
    (hn : w.sets.get? n = some (.ordered h)) (t : CursorTask α π)
    (hP : ∀ f, t.Asks → c.Raises f → P f)
    (ht : ∀ v, t = .replace v → P .readOnlyElement) :
    (w.useCursor name c h t).Proper P := by
  have hholds : w.Holds n h.inner := ⟨h, hn, rfl⟩
  have hs : h.IsSound := hw.isSound hholds
  have hsuits : c.setId = h.inner.id → c.Suits h.inner := hw.suits hc hholds
  cases t with
  | create | filter | takeWhile | info => exact hw.proper_refuse _
  | next count =>
    refine hw.proper_withPart fun k _ => ?_
    obtain ⟨ys, c', es, e, hr, hf⟩ := hs.exists_nextMany hsuits k
    refine proper_bind e ((hw.keep_remains hc hholds hr).proper_yields fun f h h' => ?_)
    exact hP f trivial (hf f h h')
  | drain =>
    obtain ⟨ys, c', es, e, hr, hf⟩ := hs.exists_drain hsuits
    refine proper_bind e ((hw.keep_remains hc hholds hr).proper_yields fun f h h' => ?_)
    exact hP f trivial (hf f h h')
  | restart =>
    obtain ⟨_, ha⟩ := h.exists_acquire
    obtain ⟨r, c', es, e, hr, hf⟩ := Cursor.exists_call hs hsuits .start
    obtain ⟨⟨r, c'⟩, _, _, hrestart, hd, -⟩ := Traced.bind_eq_done_iff.1 e
    cases hd
    refine proper_bind ha (proper_bind hrestart ?_)
    refine (hw.keep_remains hc hholds hr).proper_ofExcept fun f hf' hp => ?_
    cases r with
    | ok u => cases hf'
    | error g =>
      cases hf'
      cases (hf f rfl hp).1
  | replace v =>
    refine hw.proper_withPart fun v hv => ?_
    obtain ⟨r, c', es, e, hr, hf⟩ := hs.exists_next hsuits
    have hw' := hw.keep_remains hc hholds hr
    refine proper_bind e ?_
    cases r with
    | error f =>
      refine hw'.proper fun g hg hp => ?_
      cases List.mem_singleton.1 hg
      exact hP f trivial (hf f rfl hp)
    | ok y =>
      cases y with
      | none => exact hw'.proper nofun
      | some x =>
        refine hw'.proper fun g hg _ => ?_
        have hg' : g = .readOnlyElement := by
          simpa [Outcome.failures, Response.failures, replacement] using hg
        exact hg' ▸ ht _ rfl

theorem Sound.proper_onCursor (hw : w.Sound) (subject : Option String) (t : CursorTask α π)
    (hP : ∀ c f, t.Asks → w.cursors.get? name = some c → c.Raises f → P f)
    (ht : ∀ v, t = .replace v → P .readOnlyElement) :
    (w.onCursor subject name t).Proper P := by
  have huse (h' : ∀ c h n, w.cursors.get? name = some c → w.sets.get? n = some (.ordered h) →
      (w.useCursor name c h t).Proper P) :
      (w.withCursor name fun c => w.withSet subject fun _ s => w.withHolder s fun h =>
        w.useCursor name c h t).Proper P := by
    refine hw.proper_withCursor fun c hc => ?_
    refine hw.proper_withSet fun n s _ hn => hw.proper_withHolder fun h hs => ?_
    exact h' c h n hc (hs ▸ hn)
  have hall : ∀ c h n, w.cursors.get? name = some c → w.sets.get? n = some (.ordered h) →
      (w.useCursor name c h t).Proper P :=
    fun c h n hc hn => hw.proper_useCursor hc hn t (fun f ha => hP c f ha hc) ht
  cases t with
  | create d =>
    refine hw.proper_withSet fun n s _ hn => hw.proper_withHolder fun h hs => ?_
    refine hw.proper_withPart fun d _ => ?_
    subst hs
    have hholds : w.Holds n h.inner := ⟨h, hn, rfl⟩
    obtain ⟨_, ha⟩ := h.exists_acquire
    obtain ⟨c, hc, hid, hv, hact, -, hf⟩ := (hw.isSound hholds).exists_cursor (π := π) d
    refine proper_bind ha (proper_lift hc ?_)
    refine Sound.proper_replied (hw.keep ?_ fun m t hm he => ?_)
    · rw [hid]
      exact hw.lt_nextId hholds
    · have hts : t.id = h.inner.id := by rw [← he, hid]
      obtain rfl := hw.distinct hm hholds hts
      obtain rfl := hm.eq hholds
      exact ⟨Nat.le_of_eq hv, fun _ _ => ⟨_, hf⟩⟩
  | filter p =>
    refine hw.proper_withPart fun p _ => hw.proper_withCursor fun c hc => ?_
    have hlt := hw.cursor_lt hc
    exact Sound.proper_replied (hw.keep hlt fun m t hm he => (hw.suits hc hm he).filter p)
  | takeWhile p =>
    refine hw.proper_withPart fun p _ => hw.proper_withCursor fun c hc => ?_
    have hlt := hw.cursor_lt hc
    exact Sound.proper_replied (hw.keep hlt fun m t hm he => (hw.suits hc hm he).takeWhile p)
  | info => exact hw.proper_withCursor fun c _ => hw.proper nofun
  | next | drain | restart | replace => exact huse hall

end Workspace
end Cursors

namespace Workspace
variable {α π : Type} {w : Workspace α π}

theorem Sound.exists_shown [Render α] (hw : w.Sound) (detail : Detail) (r : Request α π) :
    ∃ shown, w.shown detail r = .ok shown := by
  unfold shown
  split
  · next h hh =>
    obtain ⟨name, -, hn⟩ := Option.bind_eq_some_iff.1 hh
    obtain ⟨p, hp⟩ := (hw.isSound_holder hn).exists_portrait detail
    exact ⟨some p, by rw [hp]; rfl⟩
  · exact ⟨none, rfl⟩

variable [Predicate π α]

/-- The panics that a request may end in. -/
inductive Panics (w : Workspace α π) (r : Request α π) : Failure → Prop
  /-- The first or the last element of an empty set was asked for. -/
  | emptySet {name : String} {h : Holder α} {side : Side} :
    r.subject = some name → w.sets.get? name = some (.ordered h) → h.inner.isEmpty = true →
      r.task = .onSet (.query (some (.extreme side))) → Panics w r .emptySet
  /-- An element was to be replaced. -/
  | readOnlyElement {name : Option String} {v : Option α} :
    r.task = .onCursor name (.replace v) → Panics w r .readOnlyElement
  /-- The predicate of the request panicked. -/
  | predicate {t : SetTask α π} {p : π} {f : Failure} :
    r.task = .onSet t → t.Asks p → Predicate.Raises p f → Panics w r f
  /-- A predicate of the cursor panicked. -/
  | attached {name : String} {t : CursorTask α π} {c : Cursor π} {f : Failure} :
    r.task = .onCursor (some name) t → t.Asks → w.cursors.get? name = some c → c.Raises f →
      Panics w r f

variable [BEq α] [Ord α] [Render α]

theorem Sound.proper_perform (hw : w.Sound) (detail : Detail) (r : Request α π) :
    (w.perform detail r).Proper (w.Panics r) := by
  unfold perform
  cases ht : r.task with
  | create recipe =>
    refine hw.proper_withPart fun name _ => hw.proper_withPart fun recipe _ => ?_
    exact hw.proper_create name recipe
  | onSet t =>
    refine hw.proper_withSet fun name c hs hc => ?_
    refine hw.proper_onSet detail _ _ hc t (fun _ _ => .predicate ht) ?_
    rintro h side rfl rfl he
    exact .emptySet hs hc he ht
  | onCursor name t =>
    refine hw.proper_withPart fun n hn => hw.proper_onCursor r.subject t ?_ ?_
    · exact fun c f => .attached (hn ▸ ht)
    · rintro v rfl
      exact .readOnlyElement ht
  | missing => exact hw.proper_refuse _

/-- The workspace after some requests. -/
def after (w : Workspace α π) (detail : Detail) : List (Request α π) → Workspace α π
  | [] => w
  | r :: rs => (w.answer detail r).2.after detail rs

theorem Sound.exists_answer (hw : w.Sound) (detail : Detail) (r : Request α π) :
    ∃ outcome shown log, (w.answer detail r).1 = ⟨outcome, shown, log⟩ ∧
      (w.answer detail r).2.Sound ∧
      (∃ es, w.perform detail r = .done (outcome, (w.answer detail r).2) es) ∧
      (w.answer detail r).2.shown detail r = .ok shown ∧
      ∀ f ∈ outcome.failures, f.isPanic = true → w.Panics r f := by
  obtain ⟨outcome, w', es, e, hw', hf⟩ := hw.proper_perform detail r
  obtain ⟨shown, hs⟩ := hw'.exists_shown detail r
  have ha : w.answer detail r = (⟨outcome, shown, log (w'.scattered r) es⟩, w') := by
    simp only [answer, e, hs]
  rw [ha]
  exact ⟨outcome, shown, _, rfl, hw', ⟨es, e⟩, hs, hf⟩

theorem Sound.after (hw : w.Sound) (detail : Detail) (rs : List (Request α π)) :
    (w.after detail rs).Sound := by
  induction rs generalizing w with
  | nil => exact hw
  | cons r rs ih =>
    obtain ⟨-, -, -, -, hw', -⟩ := hw.exists_answer detail r
    exact ih hw'

/-- After any requests, any other one is carried out and its result shown without a fault: no
rotation lacks a child, no fix-up a grandparent, sibling or nephew, no index dangles, no count falls
below zero and no loop runs on. Every panic is one that its user asked for. -/
theorem requests_are_safe (detail : Detail) (rs : List (Request α π)) (r : Request α π) :
    let w := (empty : Workspace α π).after detail rs
    ∃ outcome shown log, (w.answer detail r).1 = ⟨outcome, shown, log⟩ ∧
      (∃ es, w.perform detail r = .done (outcome, (w.answer detail r).2) es) ∧
      (w.answer detail r).2.shown detail r = .ok shown ∧
      ∀ f ∈ outcome.failures, f.isPanic = true → w.Panics r f := by
  intro w
  obtain ⟨outcome, shown, log, ha, -, hd, hs, hf⟩ :=
    (sound_empty.after detail rs).exists_answer detail r
  exact ⟨outcome, shown, log, ha, hd, hs, hf⟩

end Workspace
end RedBlack
