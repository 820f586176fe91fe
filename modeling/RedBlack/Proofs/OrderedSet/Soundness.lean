import RedBlack.Proofs.OrderedSet.Traversal

set_option autoImplicit false

namespace RedBlack
variable {α π : Type}

/-- A failure that is a panic of a predicate, at once or after tests of any elements. -/
inductive Predicate.Raises [Predicate π α] : π → Failure → Prop
  | panic {p q : π} {v : α} {m : String} :
    Predicate.test p v = (.panic m, q) → Raises p (.predicate m)
  | later {p q : π} {v : α} {verdict : Verdict} {f : Failure} :
    Predicate.test p v = (verdict, q) → Raises q f → Raises p f

/-- The changes an update makes: one for every value put in or taken out, and one for a `clear` or a
`retain` as a whole, unless that has nothing to look at. -/
def Update.changes (before after : OrderedSet α) : Update α π → Nat
  | .insert _ | .insertMany _ | .extend _ => after.size - before.size
  | .remove _ | .take _ | .pop _ => before.size - after.size
  | .clear => 1
  | .retain _ => if before.isEmpty then 0 else 1

namespace OrderedSet
variable {s s' s'' : OrderedSet α} {t : Tree α}

/-- A sound set that came from another one by so many changes. -/
structure Becomes (s s' : OrderedSet α) (n : Nat) : Prop where
  isSound : s'.IsSound
  id_eq : s'.id = s.id
  settings_eq : s'.settings = s.settings
  version_eq : s'.version = s.version + n
  unchanged : n = 0 → s' = s

theorem IsSound.becomes_self (h : s.IsSound) : s.Becomes s 0 := ⟨h, rfl, rfl, rfl, fun _ => rfl⟩

theorem Becomes.trans {n m : Nat} (h : s.Becomes s' n) (h' : s'.Becomes s'' m) :
    s.Becomes s'' (n + m) where
  isSound := h'.isSound
  id_eq := h'.id_eq.trans h.id_eq
  settings_eq := h'.settings_eq.trans h.settings_eq
  version_eq := by rw [h'.version_eq, h.version_eq, Nat.add_assoc]
  unchanged e := by
    obtain ⟨rfl, rfl⟩ := Nat.add_eq_zero_iff.1 e
    rw [h'.unchanged rfl, h.unchanged rfl]

theorem becomes_touch {a : Arena α} (h : OrderedSet.IsSound { s with tree := a }) :
    s.Becomes ({ s with tree := a }.touch) 1 where
  isSound := h.imp fun _ ht => ht.congr rfl
  id_eq := rfl
  settings_eq := rfl
  version_eq := rfl
  unchanged := nofun

theorem becomes_of_eq_ite {b : Bool} (h : s.IsSound) (h' : s'.IsSound)
    (e : s' = if b then { s with tree := s'.tree }.touch else s) : s.Becomes s' b.toNat := by
  cases b with
  | false =>
    obtain rfl : s' = s := e
    exact h.becomes_self
  | true =>
    rw [if_pos rfl] at e
    rw [e]
    exact becomes_touch (h'.imp fun _ ht => ht.congr rfl)

theorem IsSound.exists_insert (h : s.IsSound) (v : α) :
    ∃ new s' es, s.insert v = .done (new, s') es ∧ s.Becomes s' new.toNat ∧
      s'.size = s.size + new.toNat := by
  obtain ⟨t, ht⟩ := h
  obtain ⟨r, ts, es, s', hr, -, hi, hs, he⟩ := ht.insert v
  refine ⟨_, s', es, hi, becomes_of_eq_ite ht.isSound hs.isSound he, ?_⟩
  rw [hs.size_eq, ht.size_eq]
  cases r with
  | none => rfl
  | some u =>
    obtain ⟨hl, hl'⟩ := Tree.toList_insert? hr
    rw [Option.getD_some, hl', hl]
    simp
    omega

theorem IsSound.exists_insertMany (h : s.IsSound) (vs : List α) :
    ∃ n s' es, s.insertMany vs = .done (n, s') es ∧ s.Becomes s' n ∧ s'.size = s.size + n := by
  induction vs generalizing s with
  | nil => exact ⟨0, s, [], rfl, h.becomes_self, rfl⟩
  | cons v vs ih =>
    obtain ⟨new, s₁, es₁, e₁, h₁, hs₁⟩ := h.exists_insert v
    obtain ⟨n, s₂, es₂, e₂, h₂, hs₂⟩ := ih h₁.isSound
    refine ⟨if new then n + 1 else n, s₂, es₁ ++ es₂, ?_, ?_, ?_⟩
    · simp [OrderedSet.insertMany, e₁, e₂, Traced.done_bind, Traced.pure_eq]
    · have ht := h₁.trans h₂
      cases new with
      | false => rwa [Bool.toNat_false, Nat.zero_add] at ht
      | true => rwa [Bool.toNat_true, Nat.add_comm] at ht
    · rw [hs₂, hs₁]
      cases new with
      | false => simp
      | true => simp; omega

theorem IsSound.exists_take (h : s.IsSound) (key : α) :
    ∃ v s' es, s.take key = .done (v, s') es ∧ s.Becomes s' v.isSome.toNat ∧
      s'.size + v.isSome.toNat = s.size := by
  obtain ⟨t, ht⟩ := h
  obtain ⟨r, ts, es, s', hr, -, hi, hs, he⟩ := ht.take key
  refine ⟨_, s', es, hi, ?_, ?_⟩
  · rw [Option.isSome_map]
    exact becomes_of_eq_ite ht.isSound hs.isSound he
  · rw [hs.size_eq, ht.size_eq]
    cases r with
    | none => rfl
    | some x =>
      obtain ⟨v, u⟩ := x
      obtain ⟨xs, ys, -, hl, hu⟩ := Tree.toList_take? hr
      simp [hl, hu]
      omega

theorem IsSound.exists_pop (h : s.IsSound) (side : Side) :
    ∃ v s' es, s.pop side = .done (v, s') es ∧ s.Becomes s' v.isSome.toNat ∧
      s'.size + v.isSome.toNat = s.size := by
  obtain ⟨t, ht⟩ := h
  obtain ⟨r, ts, es, s', hr, -, hi, hs, he⟩ := ht.pop side
  refine ⟨_, s', es, hi, ?_, ?_⟩
  · rw [Option.isSome_map]
    exact becomes_of_eq_ite ht.isSound hs.isSound he
  · rw [hs.size_eq, ht.size_eq]
    cases r with
    | none => rfl
    | some x =>
      obtain ⟨v, u⟩ := x
      cases side with
      | left => simp [Tree.toList_takeExtreme?_left hr]
      | right => simp [Tree.toList_takeExtreme?_right hr]

theorem IsSound.exists_clear (h : s.IsSound) :
    ∃ s' es, s.clear = .done s' es ∧ s.Becomes s' 1 := by
  obtain ⟨t, ht⟩ := h
  obtain ⟨e, hs⟩ := ht.clear
  exact ⟨_, _, e, becomes_touch ⟨.nil, hs.congr rfl⟩⟩

theorem IsSound.exists_place (h : s.IsSound) (v : α) :
    ∃ new a es, s.place v = .done (new, { s with tree := a }) es ∧
      OrderedSet.IsSound { s with tree := a } ∧ a.size ≤ s.size + 1 := by
  obtain ⟨t, ht⟩ := h
  obtain ⟨r, ts, es, a, hr, -, hp, hs, -⟩ := ht.place v
  refine ⟨_, a, es, hp, ⟨_, hs⟩, ?_⟩
  have ha : a.size = (r.getD t).toList.length := hs.size_eq
  rw [ha, ht.size_eq]
  cases r with
  | none => simp
  | some u =>
    obtain ⟨hl, hl'⟩ := Tree.toList_insert? hr
    rw [Option.getD_some, hl', hl]
    simp
    omega

theorem IsSound.exists_placeMany (h : s.IsSound) (vs : List α) :
    ∃ a es, s.placeMany vs = .done { s with tree := a } es ∧
      OrderedSet.IsSound { s with tree := a } ∧ a.size ≤ s.size + vs.length := by
  induction vs generalizing s with
  | nil => exact ⟨s.tree, [], rfl, h, Nat.le_refl _⟩
  | cons v vs ih =>
    obtain ⟨new, a₁, es₁, e₁, h₁, hs₁⟩ := h.exists_place v
    obtain ⟨a₂, es₂, e₂, h₂, hs₂⟩ := ih h₁
    refine ⟨a₂, es₁ ++ es₂, ?_, h₂, ?_⟩
    · simp [OrderedSet.placeMany, e₁, e₂, Traced.done_bind]
    · simp only [List.length_cons]
      simp only [OrderedSet.size] at hs₁ hs₂ ⊢
      omega

section Predicate
variable [Predicate π α]

theorem IsSound.exists_sift (h : s.IsSound) (p : π) (vs : List α) :
    ∃ a q m es, s.sift p vs = .done ⟨{ s with tree := a }, q, m⟩ es ∧
      OrderedSet.IsSound { s with tree := a } ∧ a.size ≤ s.size + vs.length ∧
      ∀ text, m = some text → Predicate.Raises p (.predicate text) := by
  induction vs generalizing s p with
  | nil => exact ⟨s.tree, p, none, [], rfl, h, Nat.le_refl _, nofun⟩
  | cons v vs ih =>
    cases hp : Predicate.test p v with
    | mk verdict q =>
      cases verdict with
      | accept =>
        obtain ⟨new, a₁, es₁, e₁, h₁, hs₁⟩ := h.exists_place v
        obtain ⟨a₂, q', m, es₂, e₂, h₂, hs₂, hm⟩ := ih h₁ q
        refine ⟨a₂, q', m, es₁ ++ es₂, ?_, h₂, ?_, fun text h => .later hp (hm text h)⟩
        · simp [OrderedSet.sift, hp, e₁, e₂, Traced.done_bind]
        · simp only [List.length_cons]
          simp only [OrderedSet.size] at hs₁ hs₂ ⊢
          omega
      | reject =>
        obtain ⟨a, q', m, es, e, h', hs, hm⟩ := ih h q
        refine ⟨a, q', m, es, ?_, h', ?_, fun text h => .later hp (hm text h)⟩
        · simp [OrderedSet.sift, hp, e]
        · simp only [List.length_cons]
          omega
      | panic text =>
        obtain ⟨a, es, e, h', hs⟩ := h.exists_placeMany (v :: vs)
        refine ⟨a, q, some text, es, ?_, h', hs, ?_⟩
        · simp [OrderedSet.sift, hp, e, Traced.done_bind, Traced.pure_eq]
        · rintro _ ⟨⟩
          exact .panic hp

theorem IsSound.exists_retain (h : s.IsSound) (p : π) :
    ∃ r es, s.retain p = .done r es ∧ s.Becomes r.set (if s.isEmpty then 0 else 1) ∧
      ∀ e, r.outcome = .error e → Predicate.Raises p e := by
  cases he : s.isEmpty with
  | true =>
    refine ⟨⟨s, p, .ok 0⟩, [], ?_, h.becomes_self, by rintro _ ⟨⟩⟩
    simp [OrderedSet.retain, he, Traced.pure_eq]
  | false =>
    obtain ⟨t, ht⟩ := h
    have hempty : OrderedSet.IsSound { s.touch with tree := .empty } :=
      ⟨.nil, Arena.shows_empty, Tree.isRedBlack_nil⟩
    obtain ⟨a, q, m, es, e, h', hs, hm⟩ := hempty.exists_sift p t.toList
    have hb : s.Becomes { s.touch with tree := a } 1 :=
      becomes_touch (h'.imp fun _ ht => ht.congr rfl)
    have hsize : a.size ≤ s.size := by
      rw [ht.size_eq]
      simpa [OrderedSet.size, Arena.size, Arena.empty] using hs
    have hsorted := ht.shows.takeSorted
    cases m with
    | none =>
      refine ⟨⟨{ s.touch with tree := a }, q, .ok (s.size - a.size)⟩, es, ?_, hb, by rintro _ ⟨⟩⟩
      have hle : OrderedSet.size { s.touch with tree := a } ≤ s.size := hsize
      simp [OrderedSet.retain, he, hsorted, e, hle, Traced.done_bind, Traced.pure_eq]
      rfl
    | some text =>
      refine ⟨⟨{ s.touch with tree := a }, q, .error (.predicate text)⟩, es, ?_, hb, ?_⟩
      · simp [OrderedSet.retain, he, hsorted, e, Traced.done_bind, Traced.pure_eq]
      · rintro _ ⟨⟩
        exact hm text rfl

/-- Every update is done. Only a `retain` can fail, and only by a panic of its predicate. -/
theorem IsSound.exists_update (h : s.IsSound) (u : Update α π) :
    ∃ outcome s' es, s.update u = .done (outcome, s') es ∧ s.Becomes s' (u.changes s s') ∧
      ∀ e, outcome = .error e → ∃ p, u = .retain p ∧ Predicate.Raises p e := by
  cases u with
  | insert v =>
    obtain ⟨new, s', es, e, hb, hs⟩ := h.exists_insert v
    refine ⟨.ok (.flag new), s', es, ?_, ?_, by rintro _ ⟨⟩⟩
    · simp [OrderedSet.update, e, Traced.done_bind, Traced.pure_eq]
    · rwa [Update.changes, hs, Nat.add_sub_cancel_left]
  | insertMany vs =>
    obtain ⟨n, s', es, e, hb, hs⟩ := h.exists_insertMany vs
    refine ⟨.ok (.number n), s', es, ?_, ?_, by rintro _ ⟨⟩⟩
    · simp [OrderedSet.update, e, Traced.done_bind, Traced.pure_eq]
    · rwa [Update.changes, hs, Nat.add_sub_cancel_left]
  | extend vs =>
    obtain ⟨n, s', es, e, hb, hs⟩ := h.exists_insertMany vs
    refine ⟨.ok .done, s', es, ?_, ?_, by rintro _ ⟨⟩⟩
    · simp [OrderedSet.update, e, Traced.done_bind, Traced.pure_eq]
    · rwa [Update.changes, hs, Nat.add_sub_cancel_left]
  | remove v =>
    obtain ⟨w, s', es, e, hb, hs⟩ := h.exists_take v
    refine ⟨.ok (.flag w.isSome), s', es, ?_, ?_, by rintro _ ⟨⟩⟩
    · simp [OrderedSet.update, OrderedSet.remove, e, Traced.done_bind, Traced.pure_eq]
    · rwa [Update.changes, ← hs, Nat.add_sub_cancel_left]
  | take v =>
    obtain ⟨w, s', es, e, hb, hs⟩ := h.exists_take v
    refine ⟨.ok (.element w), s', es, ?_, ?_, by rintro _ ⟨⟩⟩
    · simp [OrderedSet.update, e, Traced.done_bind, Traced.pure_eq]
    · rwa [Update.changes, ← hs, Nat.add_sub_cancel_left]
  | pop side =>
    obtain ⟨w, s', es, e, hb, hs⟩ := h.exists_pop side
    refine ⟨.ok (.element w), s', es, ?_, ?_, by rintro _ ⟨⟩⟩
    · simp [OrderedSet.update, e, Traced.done_bind, Traced.pure_eq]
    · rwa [Update.changes, ← hs, Nat.add_sub_cancel_left]
  | clear =>
    obtain ⟨s', es, e, hb⟩ := h.exists_clear
    refine ⟨.ok .done, s', es, ?_, hb, by rintro _ ⟨⟩⟩
    simp [OrderedSet.update, e, Traced.done_bind, Traced.pure_eq]
  | retain p =>
    obtain ⟨r, es, e, hb, hf⟩ := h.exists_retain p
    refine ⟨r.outcome.map .number, r.set, es, ?_, hb, fun f hf' => ?_⟩
    · simp [OrderedSet.update, e, Traced.done_bind, Traced.pure_eq]
    · cases ho : r.outcome with
      | ok n => rw [ho] at hf'; cases hf'
      | error g =>
        rw [ho] at hf'
        cases hf'
        exact ⟨p, rfl, hf _ ho⟩

end Predicate
end OrderedSet
end RedBlack
