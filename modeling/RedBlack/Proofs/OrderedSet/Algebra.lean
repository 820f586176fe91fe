import RedBlack.Algebra
import RedBlack.Proofs.OrderedSet.Soundness

set_option autoImplicit false

namespace RedBlack
variable {α : Type}

/-- No question about membership runs into a fault. -/
def View.Answers (v : View α) : Prop := ∀ x, ∃ b, v.contains x = .ok b

theorem View.Answers.exists_not {v : View α} (h : v.Answers) (x : α) :
    ∃ b, (do return !(← v.contains x)) = Except.ok (ε := Fault) b := by
  obtain ⟨b, hb⟩ := h x
  exact ⟨!b, by rw [hb]; rfl⟩

theorem View.Answers.smallerFirst {a b : View α} (ha : a.Answers) (hb : b.Answers) :
    (a.smallerFirst b).2.Answers := by
  unfold View.smallerFirst
  split
  · exact ha
  · exact hb

namespace OrderedSet
variable {s s' : OrderedSet α} {t : Tree α} {keep : α → Except Fault Bool} {es : List Event}

theorem isSound_empty (id : Nat) (settings : Settings α) : (OrderedSet.empty id settings).IsSound :=
  (represents_empty id settings).isSound

theorem IsSound.emptyLike (s : OrderedSet α) (id : Nat) : (s.emptyLike id).IsSound :=
  isSound_empty id s.settings

theorem IsSound.clone (h : s.IsSound) (id : Nat) : (s.clone id).IsSound :=
  h.imp fun _ ht => ht.clone id

theorem IsSound.deepClone (h : s.IsSound) (id : Nat) : (s.deepClone id).IsSound := by
  obtain ⟨t, ht⟩ := h
  exact (ht.deepClone id).isSound

theorem IsSound.exists_view (h : s.IsSound) : ∃ v, s.view = .ok v ∧ v.Answers := by
  obtain ⟨t, ht⟩ := h
  exact ⟨_, ht.view, fun x => ⟨_, ht.contains x⟩⟩

/-- A set that came from another one by insertions alone: every change put in a value. -/
structure Grows (s s' : OrderedSet α) (n : Nat) : Prop extends s.Becomes s' n where
  size_eq : s'.size = s.size + n

theorem Grows.trans {s'' : OrderedSet α} {n m : Nat} (h : s.Grows s' n) (h' : s'.Grows s'' m) :
    s.Grows s'' (n + m) where
  toBecomes := h.toBecomes.trans h'.toBecomes
  size_eq := by rw [h'.size_eq, h.size_eq, Nat.add_assoc]

theorem IsSound.insertWhere (h : s.IsSound) {vs : List α}
    (hd : s.insertWhere keep vs = .done s' es) : ∃ n, s.Grows s' n := by
  induction vs generalizing s es with
  | nil =>
    cases hd
    exact ⟨0, h.becomes_self, rfl⟩
  | cons v vs ih =>
    obtain ⟨b, es₁, es₂, -, hr, -⟩ := Traced.bind_eq_done_iff.1 hd
    split at hr
    · obtain ⟨new, s₁, es₃, e₁, h₁, hs₁⟩ := h.exists_insert v
      obtain ⟨x, es₄, es₅, hi, hr, -⟩ := Traced.bind_eq_done_iff.1 hr
      rw [e₁] at hi
      cases hi
      obtain ⟨n, hn⟩ := ih h₁.isSound hr
      exact ⟨_, Grows.trans ⟨h₁, hs₁⟩ hn⟩
    · exact ih h hr

theorem IsSound.exists_insertWhere (h : s.IsSound) (vs : List α)
    (hk : ∀ v, ∃ b, keep v = .ok b) : ∃ s' es, s.insertWhere keep vs = .done s' es := by
  induction vs generalizing s with
  | nil => exact ⟨s, [], rfl⟩
  | cons v vs ih =>
    obtain ⟨b, hb⟩ := hk v
    cases b with
    | false =>
      obtain ⟨s', es, e⟩ := ih h
      exact ⟨s', es, by simp [OrderedSet.insertWhere, hb, e]⟩
    | true =>
      obtain ⟨new, s₁, es₁, e₁, h₁, -⟩ := h.exists_insert v
      obtain ⟨s₂, es₂, e₂⟩ := ih h₁.isSound
      exact ⟨s₂, es₁ ++ es₂, by simp [OrderedSet.insertWhere, hb, e₁, e₂, Traced.done_bind]⟩

variable {a b : View α}

theorem IsSound.insertDifference (h : s.IsSound) (hd : s.insertDifference a b = .done s' es) :
    ∃ n, s.Grows s' n := by
  obtain ⟨_, _, _, -, hw, -⟩ := Traced.bind_eq_done_iff.1 hd
  exact h.insertWhere hw

theorem IsSound.exists_insertDifference (h : s.IsSound) (hb : b.Answers) :
    ∃ s' es, s.insertDifference a b = .done s' es := by
  obtain ⟨s', es, e⟩ := h.exists_insertWhere a.elements hb.exists_not
  exact ⟨s', _, Traced.bind_done rfl e⟩

theorem IsSound.insertCombination (h : s.IsSound) {kind : Combination}
    (hd : s.insertCombination kind a b = .done s' es) : ∃ n, s.Grows s' n := by
  cases kind with
  | union =>
    obtain ⟨_, _, _, -, hd, -⟩ := Traced.bind_eq_done_iff.1 hd
    obtain ⟨s₁, _, _, h₁, h₂, -⟩ := Traced.bind_eq_done_iff.1 hd
    obtain ⟨n, hn⟩ := h.insertWhere h₁
    obtain ⟨m, hm⟩ := hn.isSound.insertWhere h₂
    exact ⟨_, hn.trans hm⟩
  | intersection =>
    obtain ⟨_, _, _, -, hd, -⟩ := Traced.bind_eq_done_iff.1 hd
    exact h.insertWhere hd
  | difference => exact h.insertDifference hd
  | symmetricDifference =>
    obtain ⟨s₁, _, _, h₁, h₂, -⟩ := Traced.bind_eq_done_iff.1 hd
    obtain ⟨n, hn⟩ := h.insertDifference h₁
    obtain ⟨m, hm⟩ := hn.isSound.insertDifference h₂
    exact ⟨_, hn.trans hm⟩

theorem IsSound.exists_insertCombination (h : s.IsSound) (kind : Combination) (ha : a.Answers)
    (hb : b.Answers) : ∃ s' es, s.insertCombination kind a b = .done s' es := by
  cases kind with
  | union =>
    have hk (_ : α) : ∃ k, Except.ok (ε := Fault) true = .ok k := ⟨true, rfl⟩
    obtain ⟨s₁, es₁, e₁⟩ := h.exists_insertWhere a.elements hk
    obtain ⟨n, hn⟩ := h.insertWhere e₁
    obtain ⟨s₂, es₂, e₂⟩ := hn.isSound.exists_insertWhere b.elements hk
    exact ⟨s₂, _, Traced.bind_done rfl (Traced.bind_done e₁ e₂)⟩
  | intersection =>
    have hk := ha.smallerFirst hb
    obtain ⟨s', es, e⟩ := h.exists_insertWhere (a.smallerFirst b).1.elements hk
    exact ⟨s', _, Traced.bind_done rfl e⟩
  | difference => exact h.exists_insertDifference hb
  | symmetricDifference =>
    obtain ⟨s₁, es₁, e₁⟩ := h.exists_insertDifference (a := a) hb
    obtain ⟨n, hn⟩ := h.insertDifference e₁
    obtain ⟨s₂, es₂, e₂⟩ := hn.isSound.exists_insertDifference (a := b) ha
    exact ⟨s₂, _, Traced.bind_done e₁ e₂⟩

theorem grows_combine {kind : Combination} {id : Nat} {other : View α}
    (hd : s.combine kind id other = .done s' es) : ∃ n, (s.emptyLike id).Grows s' n := by
  obtain ⟨_, _, _, -, hc, -⟩ := Traced.bind_eq_done_iff.1 hd
  exact (IsSound.emptyLike s id).insertCombination hc

theorem IsSound.exists_combine (h : s.IsSound) (kind : Combination) (id : Nat) {other : View α}
    (ho : other.Answers) : ∃ s' es, s.combine kind id other = .done s' es := by
  obtain ⟨v, hv, ha⟩ := h.exists_view
  obtain ⟨s', es, e⟩ := (IsSound.emptyLike s id).exists_insertCombination kind ha ho
  exact ⟨s', es, by simp [OrderedSet.combine, hv, e]⟩

theorem operate_eq (s s' : OrderedSet α) (kind : Combination) (id : Nat) :
    s.operate s' kind id = liftM s'.view >>= s.combine kind id := by
  cases kind <;> rfl

theorem IsSound.exists_operate (h : s.IsSound) (h' : s'.IsSound) (kind : Combination) (id : Nat) :
    ∃ u es n, s.operate s' kind id = .done u es ∧ (s.emptyLike id).Grows u n := by
  obtain ⟨v, hv, ha⟩ := h'.exists_view
  obtain ⟨u, es, e⟩ := h.exists_combine kind id ha
  obtain ⟨n, hn⟩ := grows_combine e
  refine ⟨u, es, n, ?_, hn⟩
  simp only [operate_eq, hv, Traced.liftM_ok, pure_bind, e]

end OrderedSet

section Selection
variable {s s' : OrderedSet α} {a b : View α} {hasA hasB : α → Bool}

/-- The values that a combination of operands with these elements inserts, if `hasA` and `hasB` are
what the operands answer about membership. -/
def Combination.inserted (kind : Combination) (hasA hasB : α → Bool) (xs ys : List α) : List α :=
  match kind with
  | .union => xs ++ ys
  | .intersection => if ys.length < xs.length then ys.filter hasA else xs.filter hasB
  | .difference => xs.filter fun v => !hasB v
  | .symmetricDifference => (xs.filter fun v => !hasB v) ++ ys.filter fun v => !hasA v

namespace OrderedSet

theorem insertMany_append (s : OrderedSet α) (vs ws : List α) :
    s.insertMany (vs ++ ws) = do
      let (n, s) ← s.insertMany vs
      let (m, s) ← s.insertMany ws
      return (n + m, s) := by
  induction vs generalizing s with
  | nil => simp [insertMany]
  | cons v vs ih =>
    simp only [List.cons_append, insertMany, ih, bind_assoc, pure_bind]
    refine congrArg _ (funext fun x => congrArg _ (funext fun y => congrArg _ (funext fun z => ?_)))
    cases x.1 <;> simp [Nat.add_right_comm]

theorem insertWhere_eq {keep : α → Except Fault Bool} {p : α → Bool}
    (hk : ∀ v, keep v = .ok (p v)) (s : OrderedSet α) (vs : List α) :
    s.insertWhere keep vs = Prod.snd <$> s.insertMany (vs.filter p) := by
  induction vs generalizing s with
  | nil => simp [insertWhere, insertMany]
  | cons v vs ih =>
    cases hp : p v with
    | false => simp [insertWhere, hk, hp, ih]
    | true => simp [insertWhere, insertMany, hk, hp, ih]

variable {n m : Nat} {s₁ : OrderedSet α} {vs : List α} {es es₁ : List Event}

theorem insertWhere_done {keep : α → Except Fault Bool} {p : α → Bool}
    (hk : ∀ v, keep v = .ok (p v)) (h : s.insertMany (vs.filter p) = .done (n, s') es) :
    s.insertWhere keep vs = .done s' es := by
  rw [insertWhere_eq hk, h, Traced.map_done]

theorem insertDifference_done (hB : ∀ v, b.contains v = .ok (hasB v))
    (h : s.insertMany (a.elements.filter fun v => !hasB v) = .done (n, s') es) :
    s.insertDifference a b = .done s' (.subtracting a.size b.size :: es) :=
  Traced.bind_done rfl (insertWhere_done (fun v => by rw [hB]; rfl) h)

theorem insertIntersection_done (hA : ∀ v, a.contains v = .ok (hasA v))
    (hB : ∀ v, b.contains v = .ok (hasB v)) (ha : a.size = a.elements.length)
    (hb : b.size = b.elements.length)
    (h : s.insertMany (Combination.intersection.inserted hasA hasB a.elements b.elements) =
      .done (n, s') es) :
    ∃ es', s.insertIntersection a b = .done s' es' := by
  simp only [insertIntersection, View.smallerFirst, ha, hb]
  by_cases hlt : b.elements.length < a.elements.length
  · simp only [Combination.inserted, if_pos hlt] at h
    rw [if_pos hlt]
    exact ⟨_, Traced.bind_done rfl (insertWhere_done hA h)⟩
  · simp only [Combination.inserted, if_neg hlt] at h
    rw [if_neg hlt]
    exact ⟨_, Traced.bind_done rfl (insertWhere_done hB h)⟩

theorem insertUnion_done (h : s.insertMany a.elements = .done (n, s₁) es₁)
    (h' : s₁.insertMany b.elements = .done (m, s') es) :
    s.insertUnion a b = .done s' (.uniting a.size b.size :: (es₁ ++ es)) := by
  have hall {s s' : OrderedSet α} {n : Nat} {vs : List α} {es : List Event}
      (h : s.insertMany vs = .done (n, s') es) :
      s.insertWhere (fun _ => .ok true) vs = .done s' es :=
    insertWhere_done (p := fun _ => true) (fun _ => rfl) (by rwa [List.filter_true])
  exact Traced.bind_done rfl (Traced.bind_done (hall h) (hall h'))

theorem IsSound.exists_insertCombination_eq (h : s.IsSound) (kind : Combination)
    (hA : ∀ v, a.contains v = .ok (hasA v)) (hB : ∀ v, b.contains v = .ok (hasB v))
    (ha : a.size = a.elements.length) (hb : b.size = b.elements.length) :
    ∃ n s' es es',
      s.insertMany (kind.inserted hasA hasB a.elements b.elements) = .done (n, s') es ∧
        s.insertCombination kind a b = .done s' es' := by
  have htwo (vs ws : List α) : ∃ n m s₁ s₂ es₁ es₂, s.insertMany vs = .done (n, s₁) es₁ ∧
      s₁.insertMany ws = .done (m, s₂) es₂ ∧
        s.insertMany (vs ++ ws) = .done (n + m, s₂) (es₁ ++ es₂) := by
    obtain ⟨n, s₁, es₁, e₁, h₁, -⟩ := h.exists_insertMany vs
    obtain ⟨m, s₂, es₂, e₂, -, -⟩ := h₁.isSound.exists_insertMany ws
    exact ⟨n, m, s₁, s₂, es₁, es₂, e₁, e₂,
      by simp [insertMany_append, e₁, e₂, Traced.done_bind, Traced.pure_eq]⟩
  have hone (vs : List α) : ∃ n s' es, s.insertMany vs = .done (n, s') es := by
    obtain ⟨n, s', es, e, -⟩ := h.exists_insertMany vs
    exact ⟨n, s', es, e⟩
  cases kind with
  | union =>
    obtain ⟨n, m, s₁, s₂, es₁, es₂, e₁, e₂, e⟩ := htwo a.elements b.elements
    exact ⟨_, s₂, _, _, e, insertUnion_done e₁ e₂⟩
  | intersection =>
    obtain ⟨n, s', es, e⟩ := hone (Combination.intersection.inserted hasA hasB _ _)
    obtain ⟨es', e'⟩ := insertIntersection_done hA hB ha hb e
    exact ⟨n, s', es, es', e, e'⟩
  | difference =>
    obtain ⟨n, s', es, e⟩ := hone (a.elements.filter fun v => !hasB v)
    exact ⟨n, s', es, _, e, insertDifference_done hB e⟩
  | symmetricDifference =>
    obtain ⟨n, m, s₁, s₂, es₁, es₂, e₁, e₂, e⟩ := htwo (a.elements.filter fun v => !hasB v)
      (b.elements.filter fun v => !hasA v)
    exact ⟨_, s₂, _, _, e,
      Traced.bind_done (insertDifference_done hB e₁) (insertDifference_done hA e₂)⟩

end OrderedSet
end Selection
end RedBlack
