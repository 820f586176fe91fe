import RedBlack.Container
import RedBlack.Proofs.Lock.Warnings
import RedBlack.Proofs.OrderedSet.Algebra

set_option autoImplicit false

namespace RedBlack
variable {α π : Type}

namespace Holder
variable {h h' : Holder α}

def IsSound (h : Holder α) : Prop := h.inner.IsSound

theorem exists_acquire (h : Holder α) : ∃ es, h.acquire = .done h.inner es := ⟨_, h.acquire_eq⟩

theorem inner_renew (h : Holder α) (s : OrderedSet α) : (h.renew s).inner = s := by
  cases h <;> rfl

theorem IsSound.exists_view (hs : h.IsSound) : ∃ v es, h.view = .done v es ∧ v.Answers := by
  obtain ⟨es, e⟩ := h.exists_acquire
  obtain ⟨v, hv, ha⟩ := OrderedSet.IsSound.exists_view hs
  exact ⟨v, _, Traced.bind_done e (Traced.liftM_eq_done hv), ha⟩

theorem insertMany_done {vs : List α} {n : Nat} {s' : OrderedSet α} {es : List Event}
    (hi : h.inner.insertMany vs = .done (n, s') es) :
    ∃ h' es', h.insertMany vs = .done (n, h') es' ∧ h'.inner = s' :=
  ⟨_, _, by rw [insertMany_eq, hi, Traced.map_done, Traced.after_done], inner_hold ..⟩

theorem IsSound.exists_insertMany (hs : h.IsSound) (vs : List α) :
    ∃ n h' es, h.insertMany vs = .done (n, h') es ∧ h.inner.Becomes h'.inner n ∧
      h'.inner.size = h.inner.size + n := by
  obtain ⟨n, s', es, e, hb, hn⟩ := OrderedSet.IsSound.exists_insertMany hs vs
  obtain ⟨h', es', e', rfl⟩ := insertMany_done e
  exact ⟨n, h', es', e', hb, hn⟩

section Predicate
variable [Predicate π α]

theorem update_done {u : Update α π} {outcome : Except Failure (Reply α)} {s' : OrderedSet α}
    {es : List Event} (hu : h.inner.update u = .done (outcome, s') es) :
    ∃ h' es', h.update u = .done (outcome, h') es' ∧ h'.inner = s' :=
  ⟨_, _, by rw [update_eq, hu, Traced.map_done, Traced.after_done], inner_hold ..⟩

theorem IsSound.exists_update (hs : h.IsSound) (u : Update α π) :
    ∃ outcome h' es, h.update u = .done (outcome, h') es ∧
      h.inner.Becomes h'.inner (u.changes h.inner h'.inner) ∧
      ∀ e, outcome = .error e → ∃ p, u = .retain p ∧ Predicate.Raises p e := by
  obtain ⟨outcome, s', es, e, hb, hf⟩ := OrderedSet.IsSound.exists_update hs u
  obtain ⟨h', es', e', rfl⟩ := update_done e
  exact ⟨outcome, h', es', e', hb, hf⟩

end Predicate

section Text
variable [Render α]

theorem IsSound.exists_ask (hs : h.IsSound) (q : Query α) :
    ∃ r es, h.ask q = .done r es ∧
      ∀ e, r = .error e → e = .emptySet ∧ h.inner.isEmpty = true ∧ ∃ side, q = .extreme side := by
  obtain ⟨t, ht⟩ := hs
  have hask : ∃ r, h.inner.ask q = .ok r ∧
      ∀ e, r = .error e → e = .emptySet ∧ h.inner.isEmpty = true ∧ ∃ side, q = .extreme side := by
    rcases ht.ask q with ⟨r, e⟩ | ⟨e, rfl, side, rfl⟩
    · exact ⟨.ok r, e, nofun⟩
    · refine ⟨_, e, ?_⟩
      rintro _ ⟨⟩
      exact ⟨rfl, by simp [OrderedSet.isEmpty, ht.size_eq, Tree.toList], side, rfl⟩
  obtain ⟨r, e, hr⟩ := hask
  refine ⟨h.present q r, h.warnings, ?_, fun f hf => hr f (h.present_eq_error_iff.1 hf)⟩
  rw [ask_eq, e, Traced.liftM_ok, map_pure, Traced.after_pure]

end Text
end Holder

def Container.IsSound : Container α → Prop
  | .ordered h => h.IsSound
  | .sorted _ | .unordered _ => True

theorem Container.IsSound.isSound_plain? {c : Container α} {s : OrderedSet α} (hc : c.IsSound)
    (h : c.plain? = some s) : s.IsSound := by
  rcases c with (_ | _) | _ | _ <;> cases h
  exact hc

def Operand.IsSound : Operand α → Prop
  | .itself => True
  | .other c => c.IsSound

theorem exists_allM {p : α → Except Fault Bool} (h : ∀ x, ∃ b, p x = .ok b) (vs : List α) :
    ∃ b, vs.allM p = .ok b := by
  induction vs with
  | nil => exact ⟨true, rfl⟩
  | cons v vs ih =>
    obtain ⟨b, hb⟩ := h v
    cases b with
    | false => exact ⟨false, by simp only [List.allM, hb, ok_bind]; rfl⟩
    | true => simpa only [List.allM, hb, ok_bind] using ih

theorem View.Answers.exists_holds {a b : View α} (ha : a.Answers) (hb : b.Answers)
    (r : Relation) : ∃ k, r.holds a b = .ok k := by
  cases r with
  | subset =>
    simp only [Relation.holds, View.isSubset]
    split
    · exact exists_allM hb _
    · exact ⟨false, rfl⟩
  | superset =>
    simp only [Relation.holds, View.isSuperset]
    split
    · exact exists_allM ha _
    · exact ⟨false, rfl⟩
  | disjoint => exact exists_allM (ha.smallerFirst hb).exists_not _

variable [BEq α] {c : Container α} {o : Operand α}

namespace Container

theorem IsSound.exists_view (hc : c.IsSound) : ∃ v es, c.view = .done v es ∧ v.Answers := by
  cases c with
  | ordered h => exact Holder.IsSound.exists_view hc
  | sorted s => exact ⟨_, [], rfl, fun x => ⟨s.contains x, rfl⟩⟩
  | unordered s => exact ⟨_, [], rfl, fun x => ⟨s.contains x, rfl⟩⟩

theorem IsSound.exists_views (hc : c.IsSound) (ho : o.IsSound) :
    ∃ a b es, c.views o = .done (a, b) es ∧ a.Answers ∧ b.Answers := by
  obtain ⟨a, es, e, ha⟩ := hc.exists_view
  cases o with
  | itself => exact ⟨a, a, _, Traced.bind_done e rfl, ha, ha⟩
  | other d =>
    obtain ⟨b, es', e', hb⟩ := IsSound.exists_view ho
    exact ⟨a, b, _, Traced.bind_done e (Traced.bind_done e' rfl), ha, hb⟩

theorem IsSound.exists_insertMany (hc : c.IsSound) (vs : List α) :
    ∃ n c' es, c.insertMany vs = .done (n, c') es ∧
      ∀ h', c' = .ordered h' → ∃ h, c = .ordered h ∧ h.inner.Becomes h'.inner n := by
  cases c with
  | ordered h =>
    obtain ⟨n, h', _, e, hb, -⟩ := Holder.IsSound.exists_insertMany hc vs
    refine ⟨n, .ordered h', _, Traced.bind_done e rfl, ?_⟩
    rintro _ ⟨⟩
    exact ⟨h, rfl, hb⟩
  | sorted s => exact ⟨_, .sorted (s.insertMany vs).2, [], rfl, nofun⟩
  | unordered s => exact ⟨_, .unordered (s.insertMany vs).2, [], rfl, nofun⟩

theorem IsSound.exists_snapshot [Ord α] (hc : c.IsSound) : ∃ vs es, c.snapshot = .done vs es := by
  obtain ⟨v, _, e, -⟩ := hc.exists_view
  cases c with
  | ordered | sorted => exact ⟨_, _, Traced.bind_done e rfl⟩
  | unordered s => exact ⟨_, [], rfl⟩

end Container

theorem OrderedSet.IsSound.exists_equal {s t : OrderedSet α} (hs : s.IsSound) (ht : t.IsSound) :
    ∃ b, s.equal t = .ok b := by
  obtain ⟨u, hu⟩ := hs
  obtain ⟨v, hv⟩ := ht
  simp only [OrderedSet.equal, hu.elements, hv.elements]
  split
  · exact ⟨_, rfl⟩
  · exact ⟨_, rfl⟩

/-- A combination starts out as an empty set like the left operand and only grows. -/
theorem Holder.IsSound.exists_combine {h : Holder α} (hs : h.IsSound) (kind : Combination)
    (id : Nat) (ho : o.IsSound) :
    ∃ h' es n, h.combine kind id o = .done h' es ∧
      (h.inner.emptyLike id).Becomes h'.inner n := by
  obtain ⟨es₁, e₁⟩ := h.exists_acquire
  obtain ⟨a, b, es₂, e₂, ha, hb⟩ := Container.IsSound.exists_views (c := .ordered h) hs ho
  have hempty := OrderedSet.IsSound.emptyLike h.inner id
  obtain ⟨s', es₃, e₃⟩ := hempty.exists_insertCombination kind ha hb
  obtain ⟨n, hn⟩ := hempty.insertCombination e₃
  refine ⟨h.renew s', _, n, Traced.bind_done e₁ (Traced.bind_done e₂ (Traced.bind_done e₃ rfl)), ?_⟩
  rw [Holder.inner_renew]
  exact hn.toBecomes

omit [BEq α] in
theorem Operand.isSound_beside (hc : c.IsSound) (ho : o.IsSound) : (o.beside c).IsSound := by
  cases o with
  | itself => exact hc
  | other d => exact ho

theorem Holder.combine_plain {s t : OrderedSet α} (hs : s.IsSound) (ht : t.IsSound)
    (ho : o.beside (.ordered (.plain s)) = .ordered (.plain t)) (kind : Combination) (id : Nat) :
    (Holder.plain s).combine kind id o = Holder.plain <$> s.operate t kind id := by
  obtain ⟨v, hv, -⟩ := hs.exists_view
  obtain ⟨u, hu, -⟩ := ht.exists_view
  rw [OrderedSet.operate_eq]
  cases o with
  | itself =>
    cases ho
    simp [Holder.combine, Holder.acquire, Container.views, Container.view, Holder.view, hv,
      OrderedSet.combine, Holder.renew]
  | other d =>
    obtain rfl : d = .ordered (.plain t) := ho
    simp [Holder.combine, Holder.acquire, Container.views, Container.view, Holder.view, hv, hu,
      OrderedSet.combine, Holder.renew]

end RedBlack
