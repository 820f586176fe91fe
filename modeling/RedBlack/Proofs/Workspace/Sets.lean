import RedBlack.Proofs.Workspace.Invariant

set_option autoImplicit false

namespace RedBlack
variable {α π : Type} {h : Holder α}

section Text
variable [Render α]

theorem Holder.IsSound.exists_record (hs : h.IsSound) : ∃ r, h.record = .ok r := by
  obtain ⟨t, ht⟩ := hs
  obtain ⟨r, hr⟩ := ht.exists_record
  cases h with
  | plain s => exact ⟨r, hr⟩
  | shared s =>
    have hr' : s.inner.record = .ok r := hr
    exact ⟨_, by simp only [Holder.record, SharedSet.record, hr', ok_bind]; rfl⟩

theorem Holder.IsSound.exists_portrait (hs : h.IsSound) (d : Detail) :
    ∃ p, Workspace.portrait h d = .ok p := by
  cases d with
  | sizes => exact ⟨_, rfl⟩
  | items =>
    obtain ⟨vs, hv, -⟩ := OrderedSet.IsSound.exists_elements hs
    exact ⟨_, by simp only [Workspace.portrait, Workspace.content, hv]; rfl⟩
  | drawing =>
    obtain ⟨r, hr⟩ := hs.exists_record
    exact ⟨_, by simp only [Workspace.portrait, Workspace.content, hr, ok_bind]; rfl⟩

theorem Holder.IsSound.exists_askEach (hs : h.IsSound) (qs : List (Query α))
    (hq : ∀ q ∈ qs, ∀ side, q ≠ .extreme side) :
    ∃ rs es, Workspace.askEach h qs = .done (.ok rs) es := by
  induction qs with
  | nil => exact ⟨[], [], rfl⟩
  | cons q qs ih =>
    obtain ⟨rs, _, e⟩ := ih fun q' hq' => hq q' (List.mem_cons_of_mem _ hq')
    obtain ⟨r, _, hr, hf⟩ := hs.exists_ask q
    cases r with
    | ok r => exact ⟨_, _, Traced.bind_done hr (Traced.bind_done e rfl)⟩
    | error f =>
      obtain ⟨-, -, side, hside⟩ := hf f rfl
      exact absurd hside (hq q List.mem_cons_self side)

end Text

section Predicate
variable [Predicate π α]

theorem Workspace.raises_visited {p : π} {vs : List α} {f : Failure}
    (h : Workspace.visited p vs = .error f) : Predicate.Raises p f := by
  induction vs generalizing p with
  | nil => cases h
  | cons v vs ih =>
    cases hp : Predicate.test p v with
    | mk verdict q =>
      simp only [Workspace.visited, hp] at h
      cases verdict with
      | reject => cases h
      | panic m =>
        cases h
        exact .panic hp
      | accept =>
        cases hv : Workspace.visited q vs with
        | ok us => simp [hv, Except.map] at h
        | error g =>
          obtain rfl : g = f := by simpa [hv, Except.map] using h
          exact .later hp (ih hv)

theorem Holder.IsSound.exists_removeEach (hs : h.IsSound) (vs : List α) :
    ∃ marks h' n es, Workspace.removeEach (π := π) h vs = .done (marks, h') es ∧
      h.inner.Becomes h'.inner n := by
  induction vs generalizing h with
  | nil => exact ⟨[], h, 0, [], rfl, OrderedSet.IsSound.becomes_self hs⟩
  | cons v vs ih =>
    obtain ⟨outcome, h₁, _, e₁, hb₁, -⟩ := hs.exists_update (π := π) (.remove v)
    obtain ⟨marks, h₂, n, _, e₂, hb₂⟩ := ih hb₁.isSound
    obtain ⟨mark, hm⟩ : ∃ mark, Workspace.removeEach (π := π) h (v :: vs) =
        .done (mark :: marks, h₂) _ := by
      rcases outcome with f | r
      · exact ⟨'0', Traced.bind_done e₁ (Traced.bind_done e₂ rfl)⟩
      · cases r with
        | flag b =>
          cases b with
          | false => exact ⟨'0', Traced.bind_done e₁ (Traced.bind_done e₂ rfl)⟩
          | true => exact ⟨'1', Traced.bind_done e₁ (Traced.bind_done e₂ rfl)⟩
        | _ => exact ⟨'0', Traced.bind_done e₁ (Traced.bind_done e₂ rfl)⟩
    exact ⟨mark :: marks, h₂, _, _, hm, hb₁.trans hb₂⟩

end Predicate

namespace Workspace
variable {w : Workspace α π} {P : Failure → Prop} {name : String} {target : Option String}

theorem Sound.proper_create [BEq α] (hw : w.Sound) (name : String) (r : Recipe α) :
    (w.create name r).Proper P := by
  refine hw.proper_withPart fun c hc => ?_
  have hnew : c.IsSound ∧ ∀ h, c = .ordered h → h.inner.id = w.nextId := by
    split at hc <;> cases hc
    · refine ⟨OrderedSet.isSound_empty .., ?_⟩
      rintro _ ⟨⟩
      rfl
    · refine ⟨OrderedSet.isSound_empty .., ?_⟩
      rintro _ ⟨⟩
      rfl
    · exact ⟨trivial, nofun⟩
    · exact ⟨trivial, nofun⟩
  obtain ⟨n, c', _, e, hc'⟩ := hnew.1.exists_insertMany r.items
  refine proper_bind e (Sound.proper_replied (hw.put_new fun h' hh' => ?_))
  obtain ⟨h, hh, hb⟩ := hc' h' hh'
  exact ⟨hb.isSound, hb.id_eq.trans (hnew.2 h hh)⟩

theorem Sound.proper_collect [Render α] (hw : w.Sound) (detail : Detail) (target : Option String)
    (hs : h.IsSound) (hid : h.inner.id = w.nextId) :
    (liftM (w.collect detail target h) : Traced Event (Step α π)).Proper P := by
  obtain ⟨p, hp⟩ := hs.exists_portrait (if detail = .drawing then .drawing else .items)
  have hw' : Sound { w with nextId := w.nextId + 1 } := ⟨hw.isSound,
    fun h => Nat.lt_succ_of_lt (hw.lt_nextId h), hw.distinct,
    fun h => Nat.lt_succ_of_lt (hw.cursor_lt h), hw.suits⟩
  simp only [collect, hp, ok_bind]
  cases target with
  | none => exact hw'.proper nofun
  | some target =>
    refine Sound.proper (hw.put_new ?_) nofun
    rintro _ ⟨⟩
    exact ⟨hs, hid⟩

section Holder
variable (hn : w.sets.get? name = some (.ordered h))
include hn

theorem Sound.isSound_holder (hw : w.Sound) : h.IsSound := hw.isSound_get? hn

theorem Sound.proper_derive (hw : w.Sound) (target : Option String) (d : Derivation) :
    (w.derive h target d).Proper P := by
  have hs := hw.isSound_holder hn
  obtain ⟨_, ha⟩ := h.exists_acquire
  refine hw.proper_withPart fun target _ => proper_bind ha (Sound.proper_replied ?_)
  refine hw.put_new ?_
  rintro _ ⟨⟩
  cases d with
  | clone => exact ⟨OrderedSet.IsSound.clone hs _, rfl⟩
  | deepClone => exact ⟨OrderedSet.IsSound.deepClone hs _, rfl⟩
  | emptyLike => exact ⟨OrderedSet.IsSound.emptyLike h.inner _, rfl⟩

theorem Sound.proper_combine [BEq α] [Render α] (hw : w.Sound) (detail : Detail)
    (target : Option String) (kind : Combination) (c : Container α) {o : Operand α}
    (ho : o.IsSound) : (w.combine detail h target kind c o).Proper P := by
  obtain ⟨h', _, n, e, hb⟩ := (hw.isSound_holder hn).exists_combine kind w.nextId ho
  exact proper_bind e (hw.proper_collect _ target hb.isSound hb.id_eq)

theorem Sound.proper_onHolder [Predicate π α] [Render α] (hw : w.Sound)
    (target : Option String) (t : SetTask α π) (hP : ∀ p f, t.Asks p → Predicate.Raises p f → P f)
    (ht : ∀ side, t = .query (some (.extreme side)) → h.inner.isEmpty = true → P .emptySet) :
    (w.onHolder name target h t).Proper P := by
  have hs := hw.isSound_holder hn
  have hholds : w.Holds name h.inner := ⟨h, hn, rfl⟩
  cases t with
  | query q =>
    refine hw.proper_withPart fun q hq => ?_
    obtain ⟨r, _, e, hr⟩ := hs.exists_ask q
    refine proper_bind e (hw.proper_ofExcept fun f hf _ => ?_)
    obtain ⟨rfl, he, side, rfl⟩ := hr f hf
    exact ht side (by rw [hq]) he
  | update u =>
    refine hw.proper_withPart fun u hu => ?_
    obtain ⟨outcome, h', _, e, hb, hf⟩ := hs.exists_update u
    refine proper_bind e (Sound.proper_ofExcept (hw.store ?_) fun f ho _ => ?_)
    · rintro _ ⟨⟩
      exact ⟨_, _, hholds, hb⟩
    · obtain ⟨p, rfl, hr⟩ := hf f ho
      exact hP p f (hu ▸ rfl) hr
  | removeEach items =>
    refine hw.proper_withPart fun vs _ => ?_
    obtain ⟨marks, h', n, _, e, hb⟩ := hs.exists_removeEach (π := π) vs
    refine proper_bind e (Sound.proper_replied (hw.store ?_))
    rintro _ ⟨⟩
    exact ⟨_, n, hholds, hb⟩
  | extent =>
    obtain ⟨rs, _, e⟩ := hs.exists_askEach [.size, .isEmpty, .version] (by simp)
    exact proper_bind e (hw.proper nofun)
  | poison =>
    cases h with
    | plain s => exact hw.proper_refuse _
    | shared s =>
      refine proper_bind (b := ⟨s.inner, true⟩) rfl (Sound.proper_replied (hw.store ?_))
      rintro _ ⟨⟩
      exact ⟨_, 0, hholds, OrderedSet.IsSound.becomes_self hs⟩
  | derive d => exact hw.proper_derive hn target d
  | share =>
    cases h with
    | plain s =>
      refine Sound.proper_replied (hw.relocate name _ ?_)
      rintro _ ⟨⟩
      exact hholds
    | shared s => exact hw.proper_refuse _
  | unshare =>
    cases h with
    | plain s => exact hw.proper_refuse _
    | shared s =>
      refine Sound.proper_replied (hw.relocate name _ ?_)
      rintro _ ⟨⟩
      exact hholds
  | consume script =>
    refine hw.proper_withPart fun script _ => ?_
    obtain ⟨t, hrep⟩ := hs
    refine proper_lift hrep.extract ?_
    exact Sound.proper_replied (hw.erase name)
  | _ => exact hw.proper_refuse _

end Holder

section Container
variable {c : Container α}

theorem Sound.proper_withOperand {other : Option String}
    {go : Container α → Operand α → Traced Event (Step α π)} (hw : w.Sound)
    (hgo : ∀ c o, c.IsSound → o.IsSound → (go c o).Proper P) :
    (w.withOperand name other go).Proper P := by
  refine hw.proper_withSet fun n c _ hc => ?_
  have hs := hw.isSound_get? hc
  split
  · exact hgo c .itself hs trivial
  · exact hgo c (.other c) hs hs

theorem Sound.proper_withAlike {a b : Container α}
    {go : OrderedSet α → OrderedSet α → Traced Event (Step α π)} (hw : w.Sound) (ha : a.IsSound)
    (hb : b.IsSound) (hgo : ∀ s t, s.IsSound → t.IsSound → (go s t).Proper P) :
    (w.withAlike a b go).Proper P := by
  cases hst : alike? a b with
  | none =>
    simp only [withAlike, hst]
    exact hw.proper_refuse _
  | some x =>
    simp only [withAlike, hst]
    simp only [alike?, Option.bind_eq_bind, Option.bind_eq_some_iff] at hst
    obtain ⟨s, hs, t, ht, hst⟩ := hst
    split at hst <;> cases hst
    exact hgo s t (ha.isSound_plain? hs) (hb.isSound_plain? ht)

variable [BEq α] [Ord α] [Predicate π α] [Render α]

theorem Sound.proper_onSet (hw : w.Sound) (detail : Detail) (target other : Option String)
    (hn : w.sets.get? name = some c) (t : SetTask α π)
    (hP : ∀ p f, t.Asks p → Predicate.Raises p f → P f)
    (ht : ∀ h side, c = .ordered h → t = .query (some (.extreme side)) → h.inner.isEmpty = true →
      P .emptySet) :
    (w.onSet detail name target other c t).Proper P := by
  have hs := hw.isSound_get? hn
  have hholder (h : Holder α) (hc : c = .ordered h) : (w.onHolder name target h t).Proper P := by
    subst hc
    exact hw.proper_onHolder hn target t hP fun side => ht h side rfl
  cases t with
  | count =>
    obtain ⟨v, _, e, -⟩ := hs.exists_view
    exact proper_bind e hw.proper_replied
  | snapshot =>
    obtain ⟨vs, _, e⟩ := hs.exists_snapshot
    exact proper_bind e hw.proper_replied
  | insertMany items =>
    refine hw.proper_withPart fun vs _ => ?_
    obtain ⟨n, c', _, e, hc'⟩ := hs.exists_insertMany vs
    refine proper_bind e (Sound.proper_replied (hw.store fun h' hh' => ?_))
    obtain ⟨h, rfl, hb⟩ := hc' h' hh'
    exact ⟨_, n, ⟨h, hn, rfl⟩, hb⟩
  | view v =>
    refine hw.proper_withPart fun v _ => ?_
    obtain ⟨view, _, e, ha⟩ := hs.exists_view
    obtain ⟨b, hb⟩ := ha v
    exact proper_bind e (proper_lift hb (hw.proper nofun))
  | visit p =>
    refine hw.proper_withPart fun p hp => ?_
    obtain ⟨view, _, e, -⟩ := hs.exists_view
    refine proper_bind e (hw.proper_ofExcept fun f hf _ => hP p f (hp ▸ rfl) ?_)
    cases hv : visited p view.elements with
    | ok vs => rw [hv] at hf; cases hf
    | error g =>
      rw [hv] at hf
      cases hf
      exact raises_visited hv
  | move =>
    refine Sound.proper_replied (hw.relocate name _ fun h hc => ?_)
    subst hc
    exact ⟨h, hn, rfl⟩
  | combine kind =>
    rw [onSet]
    refine hw.proper_withOperand fun o operand _ ho => hw.proper_withHolder fun h hc => ?_
    subst hc
    exact hw.proper_withPart fun kind _ => hw.proper_combine hn detail target kind o ho
  | operator kind =>
    rw [onSet]
    refine hw.proper_withOperand fun o operand _ ho => ?_
    refine hw.proper_withAlike hs (Operand.isSound_beside hs ho) fun s t hs ht => ?_
    obtain ⟨u, es, n, e, hb⟩ := hs.exists_operate ht kind w.nextId
    exact proper_bind e (hw.proper_collect detail target hb.isSound hb.id_eq)
  | relate r =>
    rw [onSet]
    refine hw.proper_withOperand fun o operand _ ho => hw.proper_withPart fun r _ => ?_
    obtain ⟨a, b, _, e, ha, hb⟩ := hs.exists_views ho
    obtain ⟨k, hk⟩ := ha.exists_holds hb r
    exact proper_bind e (proper_lift hk hw.proper_replied)
  | sizes =>
    rw [onSet]
    refine hw.proper_withOperand fun o operand _ ho => ?_
    obtain ⟨a, b, _, e, -⟩ := hs.exists_views ho
    exact proper_bind e (hw.proper nofun)
  | equal =>
    rw [onSet]
    refine hw.proper_withOperand fun o operand hos _ => ?_
    refine hw.proper_withAlike hs hos fun s t hs ht => ?_
    obtain ⟨k, hk⟩ := hs.exists_equal ht
    exact proper_lift hk hw.proper_replied
  | _ => exact hw.proper_withHolder hholder

end Container
end Workspace
end RedBlack
