import RedBlack.Proofs.Arena.Links
import RedBlack.Proofs.History

/-!
What a `retain` asks of its predicate and what it leaves in a set in ascending order. The values
accepted so far are in the tree and those not yet asked about are pending; the two together are
always in order, so that every value put back goes to the far right.
-/

set_option autoImplicit false

namespace RedBlack
variable {α π : Type}

/-- Asked about each value once, from the first to the last, a predicate accepts some, rejects the
others, panics on none and becomes `q`. -/
inductive Predicate.Divides [Predicate π α] : π → List α → List α → List α → π → Prop
  | nil (p : π) : Divides p [] [] [] p
  | accept {p q r : π} {v : α} {vs accepted rejected : List α} :
    test p v = (.accept, q) → Divides q vs accepted rejected r →
      Divides p (v :: vs) (v :: accepted) rejected r
  | reject {p q r : π} {v : α} {vs accepted rejected : List α} :
    test p v = (.reject, q) → Divides q vs accepted rejected r →
      Divides p (v :: vs) accepted (v :: rejected) r

theorem Predicate.Divides.length_eq [Predicate π α] {p q : π} {vs accepted rejected : List α}
    (h : Divides p vs accepted rejected q) : vs.length = accepted.length + rejected.length := by
  induction h with
  | nil p => rfl
  | accept _ _ ih => simp [ih]; omega
  | reject _ _ ih => simp [ih]; omega

theorem Predicate.Divides.kept_append [Predicate π α] {p q : π} {vs accepted rejected : List α}
    (h : Divides p vs accepted rejected q) (ws : List α) :
    kept (decisions p (vs ++ ws)) (vs ++ ws) = accepted ++ kept (decisions q ws) ws := by
  induction h with
  | nil p => rfl
  | accept ht _ ih => simp [decisions, ht, kept, ih]
  | reject ht _ ih => simp [decisions, ht, kept, ih]

namespace OrderedSet
variable {s : OrderedSet α} {compare : α → α → Ordering} {xs vs : List α} {v : α}

namespace Refines

theorem isRedBlack (h : s.Refines compare xs) : s.tree.IsRedBlack := by
  obtain ⟨t, ht, -⟩ := h.represents
  exact ht.shows.isRedBlack ht.balanced

section Lawful
variable [Std.TransCmp compare]

theorem place_last (h : s.Refines compare xs) (hv : ∀ x ∈ xs, compare x v = .lt) :
    ∃ a es, s.place v = .done (true, { s with tree := a }) es ∧
      OrderedSet.Refines { s with tree := a } compare (xs ++ [v]) := by
  obtain ⟨t, ht, rfl⟩ := h.represents
  have hgt : ∀ x ∈ t.toList, compare v x = .gt := fun x hx => Std.OrientedCmp.gt_of_lt (hv x hx)
  obtain ⟨r, ts, es, a, hr, -, hp, hs, -⟩ := ht.place v
  rw [h.compare_eq] at hr
  have hl := Tree.insert?_eq h.ascending hr
  have hlt : ∀ y ∈ ([] : List α), compare v y = .lt := nofun
  have hany := any_split hgt hlt
  have hplace := place_split hgt hlt v
  simp only [List.append_nil] at hany hplace
  rw [hany, hplace] at hl
  cases r with
  | none => cases hl
  | some u =>
    have hu : u.toList = t.toList ++ [v] := Option.some.inj hl
    have hasc : Ascending compare (t.toList ++ [v]) := hu ▸ Tree.ascending_insert? h.ascending hr
    exact ⟨a, es, hp, h.compare_eq, ⟨u, hs, hu⟩, hasc⟩

theorem placeMany_last (h : s.Refines compare xs) (ha : Ascending compare (xs ++ vs)) :
    ∃ a es, s.placeMany vs = .done { s with tree := a } es ∧
      OrderedSet.Refines { s with tree := a } compare (xs ++ vs) := by
  induction vs generalizing s xs with
  | nil => exact ⟨s.tree, [], rfl, by simpa using h⟩
  | cons v vs ih =>
    obtain ⟨a₁, es₁, e₁, h₁⟩ := h.place_last ha.lt_of_append
    have happ : xs ++ v :: vs = xs ++ [v] ++ vs := by simp
    rw [happ] at ha ⊢
    obtain ⟨a₂, es₂, e₂, h₂⟩ := ih h₁ ha
    refine ⟨a₂, es₁ ++ es₂, ?_, h₂⟩
    simp [OrderedSet.placeMany, e₁, e₂, Traced.done_bind]

variable [Predicate π α]

/-- The accepted values come to stand behind those that are there already. A panic puts the value it
is about and all that are still pending behind them. -/
theorem exists_sift (h : s.Refines compare xs) (p : π) (ha : Ascending compare (xs ++ vs)) :
    ∃ r es, s.sift p vs = .done r es ∧ r.set.version = s.version ∧
      ((∃ accepted rejected, Predicate.Divides p vs accepted rejected r.predicate ∧
          r.panic = none ∧ r.set.Refines compare (xs ++ accepted)) ∨
        ∃ before x after accepted rejected q m, vs = before ++ x :: after ∧
          Predicate.Divides p before accepted rejected q ∧
          Predicate.test q x = (.panic m, r.predicate) ∧ r.panic = some m ∧
          r.set.Refines compare (xs ++ accepted ++ x :: after)) := by
  induction vs generalizing s xs p with
  | nil => exact ⟨⟨s, p, none⟩, [], rfl, rfl, .inl ⟨[], [], .nil p, rfl, by simpa using h⟩⟩
  | cons v vs ih =>
    cases hp : Predicate.test p v with
    | mk verdict q =>
      cases verdict with
      | accept =>
        obtain ⟨a, es₁, e₁, h₁⟩ := h.place_last ha.lt_of_append
        obtain ⟨r, es₂, e₂, hver, hr⟩ := ih h₁ q (by simpa using ha)
        refine ⟨r, es₁ ++ es₂, ?_, hver, ?_⟩
        · simp [OrderedSet.sift, hp, e₁, e₂, Traced.done_bind]
        · rcases hr with ⟨accepted, rejected, hd, hn, hset⟩ |
            ⟨before, x, after, accepted, rejected, q', m, rfl, hd, ht, hm, hset⟩
          · exact .inl ⟨v :: accepted, rejected, .accept hp hd, hn, by simpa using hset⟩
          · exact .inr ⟨v :: before, x, after, v :: accepted, rejected, q', m, rfl, .accept hp hd,
              ht, hm, by simpa using hset⟩
      | reject =>
        have ha' : Ascending compare (xs ++ vs) :=
          ha.sublist (List.Sublist.append_left (List.sublist_cons_self v vs) xs)
        obtain ⟨r, es, e, hver, hr⟩ := ih h q ha'
        refine ⟨r, es, ?_, hver, ?_⟩
        · simp [OrderedSet.sift, hp, e]
        · rcases hr with ⟨accepted, rejected, hd, hn, hset⟩ |
            ⟨before, x, after, accepted, rejected, q', m, rfl, hd, ht, hm, hset⟩
          · exact .inl ⟨accepted, v :: rejected, .reject hp hd, hn, hset⟩
          · exact .inr ⟨v :: before, x, after, accepted, v :: rejected, q', m, rfl, .reject hp hd,
              ht, hm, hset⟩
      | panic m =>
        obtain ⟨a, es, e, h'⟩ := h.placeMany_last ha
        refine ⟨⟨{ s with tree := a }, q, some m⟩, es, ?_, rfl, .inr ?_⟩
        · simp [OrderedSet.sift, hp, e, Traced.done_bind, Traced.pure_eq]
        · exact ⟨[], v, vs, [], [], p, m, rfl, .nil p, hp, rfl, by simpa using h'⟩

/-- A `retain` asks about every value once, in ascending order, up to the first panic. Without one
the accepted values are left and the others counted. A panic leaves the values accepted before it,
the one that it is about and all behind that one. Either way the set is red-black and in order and
one change older, unless it was empty: then nothing is asked and nothing changes. -/
theorem retain (h : s.Refines compare xs) (p : π) :
    (xs = [] → s.retain p = .done ⟨s, p, .ok 0⟩ []) ∧
      (xs ≠ [] → ∃ r es, s.retain p = .done r es ∧ r.set.version = s.version + 1 ∧
        r.set.tree.IsRedBlack ∧
          ((∃ accepted rejected, Predicate.Divides p xs accepted rejected r.predicate ∧
              r.outcome = .ok rejected.length ∧ r.set.Refines compare accepted) ∨
            ∃ before x after accepted rejected q m, xs = before ++ x :: after ∧
              Predicate.Divides p before accepted rejected q ∧
              Predicate.test q x = (.panic m, r.predicate) ∧
              r.outcome = .error (.predicate m) ∧
              r.set.Refines compare (accepted ++ x :: after))) := by
  constructor
  · rintro rfl
    simp [OrderedSet.retain, h.isEmpty, Traced.pure_eq]
  · intro hne
    have he : s.isEmpty = false := by simpa [h.isEmpty] using hne
    have hsize := h.size_eq
    obtain ⟨t, ht, rfl⟩ := h.represents
    have hempty : OrderedSet.Refines { s.touch with tree := .empty } compare [] :=
      ⟨h.compare_eq, ⟨.nil, ⟨Arena.shows_empty, Tree.isRedBlack_nil⟩, rfl⟩, List.Pairwise.nil⟩
    obtain ⟨r, es, e, hver, ⟨accepted, rejected, hd, hn, hset⟩ |
      ⟨before, x, after, accepted, rejected, q, m, hx, hd, hp, hm, hset⟩⟩ :=
      hempty.exists_sift p h.ascending
    · refine ⟨⟨r.set, r.predicate, .ok rejected.length⟩, es, ?_, hver, hset.isRedBlack,
        .inl ⟨accepted, rejected, hd, rfl, hset⟩⟩
      have hle : r.set.size ≤ s.size ∧ s.size - r.set.size = rejected.length := by
        rw [hset.size_eq, hsize, hd.length_eq]
        simp
      simp [OrderedSet.retain, he, ht.shows.takeSorted, e, hn, hle, Traced.done_bind,
        Traced.pure_eq]
    · refine ⟨⟨r.set, r.predicate, .error (.predicate m)⟩, es, ?_, hver, hset.isRedBlack,
        .inr ⟨before, x, after, accepted, rejected, q, m, hx, hd, hp, rfl, hset⟩⟩
      simp [OrderedSet.retain, he, ht.shows.takeSorted, e, hm, Traced.done_bind, Traced.pure_eq]

end Lawful

/-- Every second number is kept, until the third one ends the sifting. -/
theorem retain_refusing :
    ∃ (s : OrderedSet Element) (r : Retained Element Condition) (es : List Event),
      s.Refines Ord.compare [.int 1, .int 2, .int 3, .int 4] ∧
        s.retain (Condition.refusing (.int 3) (.periodic 2 0)) = .done r es ∧
          r.set.version = s.version + 1 ∧ (∃ m, r.outcome = .error (.predicate m)) ∧
            r.set.Refines Ord.compare [.int 2, .int 3, .int 4] := by
  obtain ⟨s, hs⟩ := exists_refines (Ord.compare : Element → Element → Ordering)
    [.int 2, .int 4, .int 1, .int 3]
  replace hs : s.Refines Ord.compare [.int 1, .int 2, .int 3, .int 4] := hs
  obtain ⟨r, es, e, hver, -, ⟨accepted, rejected, hd, -⟩ |
    ⟨before, x, after, accepted, rejected, q, m, hx, hd, ht, hm, hset⟩⟩ :=
    (hs.retain (Condition.refusing (.int 3) (.periodic 2 0))).2 (by simp)
  · rcases hd with _ | ⟨⟨⟩, _⟩ | ⟨⟨⟩, _ | ⟨⟨⟩, _ | ⟨⟨⟩, _⟩ | ⟨⟨⟩, _⟩⟩ | ⟨⟨⟩, _⟩⟩
  · have hk := hd.kept_append (x :: after)
    simp only [Predicate.decisions, ht, kept, ← hx] at hk
    rw [← hk] at hset
    exact ⟨s, r, es, hs, e, hver, ⟨m, hm⟩, hset⟩

end Refines
end OrderedSet
end RedBlack
