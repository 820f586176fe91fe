import RedBlack.Element.Comparators
import RedBlack.Element.Condition
import RedBlack.Proofs.Arena.Links
import RedBlack.Proofs.OrderedSet.Algebra
import RedBlack.Proofs.OrderedSet.Refinement

set_option autoImplicit false

namespace RedBlack
variable {α : Type}

namespace OrderedSet

/-- The sets that operations lead to from empty ones on. Predicates may have states of any type, and
an operand may be anything that can be viewed. -/
inductive Reached : OrderedSet α → Prop
  | empty (id : Nat) (settings : Settings α) : Reached (.empty id settings)
  | update {π : Type} [Predicate π α] {s s' : OrderedSet α} {u : Update α π}
      {outcome : Except Failure (Reply α)} {es : List Event} :
    Reached s → s.update u = .done (outcome, s') es → Reached s'
  | emptyLike {s : OrderedSet α} (id : Nat) : Reached s → Reached (s.emptyLike id)
  | clone {s : OrderedSet α} (id : Nat) : Reached s → Reached (s.clone id)
  | deepClone {s : OrderedSet α} (id : Nat) : Reached s → Reached (s.deepClone id)
  | combine {s s' : OrderedSet α} {kind : Combination} {id : Nat} {other : View α}
      {es : List Event} :
    Reached s → s.combine kind id other = .done s' es → Reached s'

variable {s : OrderedSet α}

theorem Reached.isSound (h : s.Reached) : s.IsSound := by
  induction h with
  | empty id settings => exact isSound_empty id settings
  | @update π _ s s' u outcome es _ hu ih =>
    obtain ⟨outcome, s', es, e, hb, -⟩ := IsSound.exists_update ih u
    rw [hu] at e
    cases e
    exact hb.isSound
  | emptyLike id _ _ => exact IsSound.emptyLike _ id
  | clone id _ ih => exact ih.clone id
  | deepClone id _ ih => exact ih.deepClone id
  | combine _ hc _ =>
    obtain ⟨n, hn⟩ := grows_combine hc
    exact hn.isSound

/-- Every set reached is red-black, and its nodes are all that its links lead to. Every update of it
is done, and so is every combination with an operand that answers. -/
theorem Reached.tree_isRedBlack (h : s.Reached) :
    s.tree.IsRedBlack ∧ s.size = {i | ∃ way, s.tree.Reaches way i}.ncard ∧
      (∀ (π : Type) [Predicate π α] (u : Update α π),
        ∃ outcome s' es, s.update u = .done (outcome, s') es) ∧
      ∀ (kind : Combination) (id : Nat) (other : View α), other.Answers →
        ∃ s' es, s.combine kind id other = .done s' es := by
  have hs := h.isSound
  obtain ⟨t, ht⟩ := h.isSound
  have hb := ht.shows.isRedBlack ht.balanced
  refine ⟨hb, hb.ncard_reached.symm, fun π _ u => ?_, fun kind id other ho => ?_⟩
  · obtain ⟨outcome, s', es, e, -⟩ := hs.exists_update u
    exact ⟨outcome, s', es, e⟩
  · exact hs.exists_combine kind id ho

/-- Numbers in an order that only the first one of two decides, put in and then taken out again in
part. -/
def lopsidedRun : Traced Event (OrderedSet Element) := do
  let s := OrderedSet.empty 0 ⟨⟨"Lopsided", .custom, Element.byParity⟩, none, false⟩
  let (_, s) ← s.update (π := Condition)
    (.insertMany [.int 3, .int 1, .int 4, .int 2, .int 5, .int 9, .int 6])
  let (_, s) ← s.update (π := Condition) (.remove (.int 9))
  let (_, s) ← s.update (π := Condition) (.pop .left)
  return s

theorem Reached.tree_isRedBlack_lopsidedRun :
    ∃ s es, lopsidedRun = .done s es ∧ s.size = 5 ∧ s.tree.IsRedBlack := by
  obtain ⟨s, es, e, hs⟩ : ∃ s es, lopsidedRun = .done s es ∧ s.size = 5 := ⟨_, _, rfl, rfl⟩
  obtain ⟨⟨_, s₁⟩, _, _, h₁, e₁, -⟩ := Traced.bind_eq_done_iff.1 e
  obtain ⟨⟨_, s₂⟩, _, _, h₂, e₂, -⟩ := Traced.bind_eq_done_iff.1 e₁
  obtain ⟨⟨_, s₃⟩, _, _, h₃, e₃, -⟩ := Traced.bind_eq_done_iff.1 e₂
  cases e₃
  have h := Reached.tree_isRedBlack (.update (.update (.update (.empty ..) h₁) h₂) h₃)
  exact ⟨s, es, e, hs, h.1⟩

def filled (settings : Settings Element) (vs : List Element) :
    Traced Event (OrderedSet Element) := do
  let (_, s) ← (OrderedSet.empty 0 settings).update (π := Condition) (.insertMany vs)
  return s

theorem reached_filled {settings : Settings Element} {vs : List Element} {s : OrderedSet Element}
    {es : List Event} (h : filled settings vs = .done s es) : s.Reached := by
  obtain ⟨⟨_, s₁⟩, _, _, h₁, h, -⟩ := Traced.bind_eq_done_iff.1 h
  cases h
  exact .update (.empty ..) h₁

end OrderedSet

/-- A search leaves a value just before its hole for being greater, and one just after it for being
less. -/
theorem Tree.zoom_neighbours (cut : α → Ordering) (t : Tree α) {p : Path α}
    (hb : ∀ x ∈ (Path.before p).getLast?, cut x = .gt)
    (ha : ∀ y ∈ (Path.after p).head?, cut y = .lt) :
    (∀ x ∈ (Path.before (t.zoom cut p).1).getLast?, cut x = .gt) ∧
      ∀ y ∈ (Path.after (t.zoom cut p).1).head?, cut y = .lt := by
  induction t generalizing p with
  | nil => exact ⟨hb, ha⟩
  | node c l v r hl hr =>
    simp only [Tree.zoom]
    cases hc : cut v with
    | lt =>
      refine hl ?_ ?_
      · simpa [Path.before, Frame.before] using hb
      · simp [Path.after, Frame.after, hc]
    | gt =>
      refine hr ?_ ?_
      · simp [Path.before, Frame.before, hc]
      · simpa [Path.after, Frame.after] using ha
    | eq => exact ⟨hb, ha⟩

namespace OrderedSet
variable {s : OrderedSet α} {t : Tree α}

namespace Represents

theorem insert_elements (h : s.Represents t) (v : α) :
    ∃ new s' es, s.insert v = .done (new, s') es ∧
      (new = false ∧ s' = s ∨ new = true ∧ ∃ xs ys, t.toList = xs ++ ys ∧
        s'.elements = .ok (xs ++ v :: ys) ∧ (∀ x ∈ xs.getLast?, s.compare v x = .gt) ∧
          ∀ y ∈ ys.head?, s.compare v y = .lt) := by
  obtain ⟨r, ts, es, s', hr, -, hi, hs, e⟩ := h.insert v
  refine ⟨r.isSome, s', es, hi, ?_⟩
  cases r with
  | none => exact .inl ⟨rfl, e⟩
  | some u =>
    obtain ⟨hl, hu⟩ := Tree.toList_insert? hr
    obtain ⟨hb, ha⟩ := t.zoom_neighbours (s.compare v) (p := []) (by simp [Path.before])
      (by simp [Path.after])
    exact .inr ⟨rfl, _, _, hl, by rw [hs.elements, Option.getD_some, hu], hb, ha⟩

theorem take_elements (h : s.Represents t) (key : α) :
    ∃ found s' es, s.take key = .done (found, s') es ∧
      (found = none ∧ s' = s ∨ ∃ y xs ys, found = some y ∧ s.compare key y = .eq ∧
        t.toList = xs ++ y :: ys ∧ s'.elements = .ok (xs ++ ys)) := by
  obtain ⟨r, ts, es, s', hr, -, hi, hs, e⟩ := h.take key
  refine ⟨r.map Prod.fst, s', es, hi, ?_⟩
  cases r with
  | none => exact .inl ⟨rfl, e⟩
  | some x =>
    obtain ⟨y, u⟩ := x
    obtain ⟨xs, ys, hy, hl, hu⟩ := Tree.toList_take? hr
    exact .inr ⟨y, xs, ys, rfl, hy, hl, by simp [hs.elements, hu]⟩

theorem pop_elements (h : s.Represents t) (side : Side) :
    ∃ s' es, s.pop side = .done (Reference.extreme? side t.toList, s') es ∧
      s'.elements = .ok (Reference.dropExtreme side t.toList) := by
  obtain ⟨r, ts, es, s', hr, -, hp, hs, -⟩ := h.pop side
  obtain ⟨hv, hl⟩ := Tree.takeExtreme?_eq hr
  exact ⟨s', es, hv ▸ hp, by rw [hs.elements, hl]⟩

end Represents

/-- Insertion leaves a set alone or puts the value between two neighbours that it compares greater
and less than. Removal leaves it alone or takes out one value that compares equal to the key, and
`pop` takes the first value or the last. All other values stay in the order they were in. -/
theorem Reached.sequence (h : s.Reached) :
    ∃ vs, s.elements = .ok vs ∧
      (∀ v, ∃ new s' es, s.insert v = .done (new, s') es ∧
        (new = false ∧ s' = s ∨ new = true ∧ ∃ xs ys, vs = xs ++ ys ∧
          s'.elements = .ok (xs ++ v :: ys) ∧ (∀ x ∈ xs.getLast?, s.compare v x = .gt) ∧
            ∀ y ∈ ys.head?, s.compare v y = .lt)) ∧
      (∀ key, ∃ found s' es, s.take key = .done (found, s') es ∧
        (found = none ∧ s' = s ∨ ∃ y xs ys, found = some y ∧ s.compare key y = .eq ∧
          vs = xs ++ y :: ys ∧ s'.elements = .ok (xs ++ ys))) ∧
      (∃ s' es, s.pop .left = .done (vs.head?, s') es ∧ s'.elements = .ok vs.tail) ∧
      ∃ s' es, s.pop .right = .done (vs.getLast?, s') es ∧ s'.elements = .ok vs.dropLast := by
  obtain ⟨t, ht⟩ := h.isSound
  exact ⟨t.toList, ht.elements, ht.insert_elements, ht.take_elements, ht.pop_elements .left,
    ht.pop_elements .right⟩

theorem reached_lopsidedRun {s : OrderedSet Element} {es : List Event}
    (h : lopsidedRun = .done s es) : s.Reached := by
  obtain ⟨⟨_, s₁⟩, _, _, h₁, h, -⟩ := Traced.bind_eq_done_iff.1 h
  obtain ⟨⟨_, s₂⟩, _, _, h₂, h, -⟩ := Traced.bind_eq_done_iff.1 h
  obtain ⟨⟨_, s₃⟩, _, _, h₃, h, -⟩ := Traced.bind_eq_done_iff.1 h
  cases h
  exact .update (.update (.update (.empty ..) h₁) h₂) h₃

/-- Eight compares less than every other number, so it goes to the front. Three is at the root, with
numbers on either side of it, and four comes up in its place. -/
theorem Reached.sequence_lopsidedRun :
    ∃ s es vs, lopsidedRun = .done s es ∧ s.elements = .ok vs ∧
      (∃ s' es', s.insert (.int 8) = .done (true, s') es' ∧ s'.elements = .ok (.int 8 :: vs)) ∧
      ∃ s' es' xs ys, s.take (.int 3) = .done (some (.int 3), s') es' ∧ vs = xs ++ .int 3 :: ys ∧
        s'.elements = .ok (xs ++ ys) ∧
        s.tree.nodes[0]? = some ⟨.int 3, .black, none, some 3, some 4⟩ ∧
          s'.tree.nodes[0]? = some ⟨.int 4, .black, none, some 3, some 2⟩ := by
  obtain ⟨s₀, es₀, e₀, hc, hroot⟩ : ∃ s es, lopsidedRun = .done s es ∧
      s.compare = Element.byParity ∧
        s.tree.nodes[0]? = some ⟨.int 3, .black, none, some 3, some 4⟩ := ⟨_, _, rfl, rfl, rfl⟩
  obtain ⟨s', es, e⟩ : ∃ s' es,
      (lopsidedRun >>= fun s => s.insert (.int 8)) = .done (true, s') es := ⟨_, _, rfl⟩
  obtain ⟨s, es, es', e, e', -⟩ := Traced.bind_eq_done_iff.1 e
  cases e₀.symm.trans e
  obtain ⟨s₂, es₂, e₂, hroot'⟩ : ∃ s' es,
      (lopsidedRun >>= fun s => s.take (.int 3)) = .done (some (.int 3), s') es ∧
        s'.tree.nodes[0]? = some ⟨.int 4, .black, none, some 3, some 2⟩ := ⟨_, _, rfl, rfl⟩
  obtain ⟨s₁, _, es₂, h₁, e₂, -⟩ := Traced.bind_eq_done_iff.1 e₂
  cases e₀.symm.trans h₁
  obtain ⟨vs, hvs, hinsert, htake, -⟩ := Reached.sequence (reached_lopsidedRun e)
  refine ⟨s₀, _, vs, e, hvs, ?_, ?_⟩
  · obtain ⟨new, s₁, es₁, e₁, hs⟩ := hinsert (.int 8)
    cases e'.symm.trans e₁
    obtain ⟨⟨⟩, -⟩ | ⟨-, xs, ys, rfl, hs', hgt, -⟩ := hs
    have h8 : ∀ x, Element.byParity (.int 8) x ≠ .gt := by
      intro x
      simp only [Element.byParity]
      split
      · simp
      · simp [show Element.num (.int 8) = 8 from rfl]
    have hxs : xs = [] := by
      cases hx : xs.getLast? with
      | none => exact List.getLast?_eq_none_iff.1 hx
      | some x => exact absurd (hc ▸ hgt x hx) (h8 x)
    subst hxs
    exact ⟨s', es', e', hs'⟩
  · obtain ⟨found, s₁, es₁, e₁, hs⟩ := htake (.int 3)
    cases e₂.symm.trans e₁
    obtain ⟨⟨⟩, -⟩ | ⟨y, xs, ys, hy, -, hl, hs'⟩ := hs
    cases hy
    exact ⟨s₂, es₂, xs, ys, e₂, hl, hs', hroot, hroot'⟩

end OrderedSet
end RedBlack
