import RedBlack.Element.Comparators
import RedBlack.Element.Condition
import RedBlack.Proofs.Lock.Session
import RedBlack.Proofs.Operand

/-!
Histories and what is left of them. Sets that list the same values may have trees of different
shapes. A `retain` and the combinations build their trees anew: what they build, and what they
report on the way, depends on the values listed and on the decisions about them alone.
-/

set_option autoImplicit false

namespace RedBlack
variable {α π : Type}

open Traced

namespace Arena

def insertMany (compare : α → α → Ordering) (a : Arena α) : List α → Traced Event (Arena α)
  | [] => return a
  | v :: vs => do
    let (_, a) ← a.insert compare v
    a.insertMany compare vs

theorem Shows.eq_empty {a : Arena α} (h : a.Shows .nil) : a = .empty := by
  obtain ⟨nodes, root⟩ := a
  obtain ⟨u, hu, hn⟩ := h
  cases u with
  | node c l x r => cases hn
  | nil =>
    obtain ⟨hroot, -, hsize, -⟩ := lays_nil.1 hu
    obtain rfl : root = none := hroot
    obtain rfl : nodes = #[] := Array.eq_empty_of_size_eq_zero hsize
    rfl

end Arena

namespace Predicate
variable [Predicate π α]

/-- What a predicate decides about values one after the other. A panic is the last decision. -/
def decisions (p : π) : List α → List (Option Bool)
  | [] => []
  | v :: vs =>
    match Predicate.test p v with
    | (.accept, p) => some true :: decisions p vs
    | (.reject, p) => some false :: decisions p vs
    | (.panic _, _) => [none]

end Predicate

/-- The values that stay under some decisions. Those without a decision do. -/
def kept : List (Option Bool) → List α → List α
  | some true :: ds, v :: vs => v :: kept ds vs
  | some false :: ds, _ :: vs => kept ds vs
  | _, vs => vs

def Reference.view (compare : α → α → Ordering) (xs : List α) : View α :=
  .of (fun key => (get? compare key xs).isSome) xs

theorem Reference.answers_view (compare : α → α → Ordering) (xs : List α) :
    (view compare xs).Answers := fun _ => ⟨_, rfl⟩

namespace OrderedSet
variable {s : OrderedSet α} {t : Tree α}

theorem placeMany_eq (s : OrderedSet α) (vs : List α) :
    s.placeMany vs = (fun a => { s with tree := a }) <$> s.tree.insertMany s.compare vs := by
  induction vs generalizing s with
  | nil => rfl
  | cons v vs ih =>
    simp only [placeMany, place, Arena.insertMany, ih, bind_assoc, pure_bind, map_bind]
    rfl

section Predicate
variable [Predicate π α]

theorem sift_eq (s : OrderedSet α) (p : π) (vs : List α) :
    Sifted.set <$> s.sift p vs = s.placeMany (kept (Predicate.decisions p vs) vs) := by
  induction vs generalizing s p with
  | nil => rfl
  | cons v vs ih =>
    cases ht : Predicate.test p v with
    | mk verdict q =>
      cases verdict with
      | accept => simp [sift, Predicate.decisions, ht, kept, placeMany, ih, map_bind]
      | reject => simp [sift, Predicate.decisions, ht, kept, ih]
      | panic m => simp [sift, Predicate.decisions, ht, kept]

/-- What a `retain` builds and reports, whatever tree it takes apart. -/
theorem Represents.tree_retain (h : s.Represents t) {p : π} {r : Retained α π} {es : List Event}
    (hd : s.retain p = .done r es) :
    Arena.empty.insertMany s.compare (kept (Predicate.decisions p t.toList) t.toList) =
      .done r.set.tree es := by
  cases he : s.isEmpty with
  | true =>
    rw [retain, if_pos he] at hd
    cases hd
    have ht : t.toList = [] := by
      rw [← List.length_eq_zero_iff, ← h.size_eq]
      exact beq_iff_eq.1 he
    cases t with
    | node c l v r => simp [Tree.toList] at ht
    | nil => rw [h.shows.eq_empty]; rfl
  | false =>
    rw [retain, if_neg (by simp [he]), liftM_eq_done h.shows.takeSorted, done_nil_bind] at hd
    obtain ⟨sifted, es₁, es₂, hs, hr, rfl⟩ := bind_eq_done_iff.1 hd
    have hset : r.set = sifted.set ∧ es₂ = [] := by
      cases hp : sifted.panic with
      | some m =>
        simp only [hp] at hr
        cases hr
        exact ⟨rfl, rfl⟩
      | none =>
        simp only [hp] at hr
        split at hr
        · cases hr
          exact ⟨rfl, rfl⟩
        · cases hr
    obtain ⟨hset, rfl⟩ := hset
    have hplaced := congrArg (Sifted.set <$> ·) hs
    simp only [sift_eq, placeMany_eq, map_done] at hplaced
    obtain ⟨a, ha, hsa⟩ := map_eq_done_iff.1 hplaced
    rw [hset, ← hsa, List.append_nil]
    exact ha

end Predicate

def rename (s : OrderedSet α) (id : Nat) : OrderedSet α := { s with id := id }

section Rename
variable (id : Nat) (a b : View α)

theorem insert_rename (s : OrderedSet α) (v : α) :
    (s.rename id).insert v = Prod.map (fun b => b) (rename · id) <$> s.insert v := by
  simp only [insert, place, rename, bind_assoc, pure_bind, map_bind, map_pure]
  refine congrArg _ (funext fun x => ?_)
  obtain ⟨_ | _, a⟩ := x <;> rfl

theorem insertWhere_rename (s : OrderedSet α) (keep : α → Except Fault Bool) (vs : List α) :
    (s.rename id).insertWhere keep vs = (rename · id) <$> s.insertWhere keep vs := by
  induction vs generalizing s with
  | nil => rfl
  | cons v vs ih =>
    cases hk : keep v with
    | error e =>
      rw [insertWhere, insertWhere, hk]
      rfl
    | ok b =>
      cases b with
      | false => simp [insertWhere, hk, ih]
      | true => simp [insertWhere, hk, insert_rename, ih, map_bind]

theorem insertDifference_rename (s : OrderedSet α) :
    (s.rename id).insertDifference a b = (rename · id) <$> s.insertDifference a b := by
  simp only [insertDifference, insertWhere_rename, map_bind]

theorem insertCombination_rename (s : OrderedSet α) (kind : Combination) :
    (s.rename id).insertCombination kind a b = (rename · id) <$> s.insertCombination kind a b := by
  cases kind with
  | union => simp [insertCombination, insertUnion, insertWhere_rename, map_bind]
  | intersection => simp [insertCombination, insertIntersection, insertWhere_rename, map_bind]
  | difference => exact insertDifference_rename id a b s
  | symmetricDifference => simp [insertCombination, insertDifference_rename, map_bind]

end Rename

theorem Refines.view_eq {compare : α → α → Ordering} [Std.TransCmp compare] {xs : List α}
    (h : s.Refines compare xs) : s.view = .ok (Reference.view compare xs) := by
  obtain ⟨t, ht, rfl⟩ := h.represents
  rw [ht.view, Reference.view, View.of, ht.size_eq, funext h.contains]

end OrderedSet

namespace Holder
variable {a a' b b' : Holder α} {compare compare' : α → α → Ordering} {xs ys : List α}

theorem exists_retain [Predicate π α] (ha : a.inner.Refines compare xs) (p : π) :
    ∃ outcome c es, a.update (.retain p) = .done (outcome, c) (a.warnings ++ es) ∧
      Arena.empty.insertMany compare (kept (Predicate.decisions p xs) xs) =
        .done c.inner.tree es := by
  obtain ⟨t, ht, rfl⟩ := ha.represents
  obtain ⟨r, es, e, -, -⟩ := ha.isSound.exists_retain p
  let outcome : Except Failure (Reply α) := r.outcome.map .number
  refine ⟨outcome, a.hold r.set (a.isPoisoned || panicked outcome), es, ?_, ?_⟩
  · simp [update_eq, OrderedSet.update, e, done_bind, pure_eq, outcome]
  · rw [inner_hold, ← ha.compare_eq, ht.tree_retain e]

section Combine
variable [BEq α] {o o' : Operand α}

theorem combine_done {kind : Combination} {id : Nat} {v w : View α} {s : OrderedSet α}
    {es : List Event} (hp : (Container.ordered a).peeks o = .ok (v, w))
    (hd : (a.inner.emptyLike id).insertCombination kind v w = .done s es) :
    a.combine kind id o =
      .done (a.renew s) (a.warnings ++ (a.warnings ++ o.warnings) ++ es) := by
  rw [combine_eq, hp]
  simp [hd, done_bind, pure_eq]

variable [Std.TransCmp compare] [Std.TransCmp compare']

theorem peeks_eq (ha : a.inner.Refines compare xs) (hb : b.inner.Refines compare' ys)
    (ho : o.beside (.ordered a) = .ordered b) : (Container.ordered a).peeks o =
      .ok (Reference.view compare xs, Reference.view compare' ys) := by
  rw [Container.peeks, ho, Container.peek, Container.peek, ha.view_eq, hb.view_eq]
  rfl

/-- Nothing but the values listed and the comparators is left of the histories of sets in what comes
of them: the trees that a `retain` and a combination build, the versions of combinations, and all
that is reported, apart from poisoned locks. -/
theorem forgets_history (ha : a.inner.Refines compare xs) (ha' : a'.inner.Refines compare xs)
    (hs : a.inner.settings = a'.inner.settings) (hb : b.inner.Refines compare' ys)
    (hb' : b'.inner.Refines compare' ys) :
    (∀ {π π' : Type} [Predicate π α] [Predicate π' α] (p : π) (p' : π'),
      Predicate.decisions p xs = Predicate.decisions p' xs →
        ∃ r r' c c' es, a.update (.retain p) = .done (r, c) (a.warnings ++ es) ∧
          a'.update (.retain p') = .done (r', c') (a'.warnings ++ es) ∧
            c.inner.tree = c'.inner.tree) ∧
      ∀ kind id id', ∀ o o' : Operand α, o.beside (.ordered a) = .ordered b →
        o'.beside (.ordered a') = .ordered b' →
          ∃ c c' es,
            a.combine kind id o = .done c (a.warnings ++ (a.warnings ++ o.warnings) ++ es) ∧
              a'.combine kind id' o' =
                .done c' (a'.warnings ++ (a'.warnings ++ o'.warnings) ++ es) ∧
                c.inner.tree = c'.inner.tree ∧ c.inner.version = c'.inner.version := by
  constructor
  · intro π π' _ _ p p' hp
    obtain ⟨r, c, es, e, hc⟩ := exists_retain ha p
    obtain ⟨r', c', es', e', hc'⟩ := exists_retain ha' p'
    rw [← hp, hc] at hc'
    obtain ⟨htree, rfl⟩ := Traced.done.inj hc'
    exact ⟨r, r', c, c', es, e, e', htree⟩
  · intro kind id id' o o' ho ho'
    obtain ⟨s, es, e⟩ := (OrderedSet.IsSound.emptyLike a.inner id).exists_insertCombination kind
      (Reference.answers_view compare xs) (Reference.answers_view compare' ys)
    have hlike : a'.inner.emptyLike id' = (a.inner.emptyLike id).rename id' := by
      rw [OrderedSet.emptyLike, ← hs]
      rfl
    have e' := OrderedSet.insertCombination_rename id' (Reference.view compare xs)
      (Reference.view compare' ys) (a.inner.emptyLike id) kind
    rw [← hlike, e, map_done] at e'
    refine ⟨_, _, es, combine_done (peeks_eq ha hb ho) e,
      combine_done (peeks_eq ha' hb' ho') e', ?_⟩
    simp only [inner_renew]
    exact ⟨rfl, rfl⟩

end Combine

/-- Two numbers put in one way round and the other, so that one of them is the root in either set.
Two conditions both panic on the second number, and a union with two more such sets makes a rotation
around the first. -/
theorem forgets_history_refusing :
    ∃ a a' b b' : OrderedSet Element, a.Refines Ord.compare [.int 1, .int 2] ∧
      a'.Refines Ord.compare [.int 1, .int 2] ∧ b.Refines Ord.compare [.int 2, .int 3] ∧
        b'.Refines Ord.compare [.int 2, .int 3] ∧
      a.tree.value 0 = .ok (.int 1) ∧ a'.tree.value 0 = .ok (.int 2) ∧
        b.tree.value 0 = .ok (.int 2) ∧ b'.tree.value 0 = .ok (.int 3) ∧
      (∃ r r' c c' es,
        (plain a).update (.retain (Condition.refusing (.int 2) (.constant true))) =
            .done (r, c) es ∧
          (plain a').update (.retain (Condition.refusing (.int 2) (.less (.int 2)))) =
              .done (r', c') es ∧
            c.inner.tree = c'.inner.tree) ∧
      ∃ c c', (plain a).combine .union 4 (.other (.ordered (.plain b))) =
          .done c [.uniting 2 2, .rotated ⟨.left, 0, 1⟩] ∧
        (plain a').combine .union 5 (.other (.ordered (.plain b'))) =
            .done c' [.uniting 2 2, .rotated ⟨.left, 0, 1⟩] ∧
          c.inner.tree = c'.inner.tree ∧ c.inner.version = c'.inner.version := by
  -- A union starts from an empty set, so that its lines can be computed without the trees of its
  -- operands.
  obtain ⟨v, hv⟩ : ∃ v,
      (OrderedSet.empty 4 ⟨.natural Element, none, false⟩).insertCombination .union
        (Reference.view Ord.compare [.int 1, .int 2])
          (Reference.view Ord.compare [.int 2, .int 3]) =
        .done v [.uniting 2 2, .rotated ⟨.left, 0, 1⟩] := ⟨_, rfl⟩
  let settings : Settings Element := ⟨.natural Element, none, false⟩
  have hset (id : Nat) (vs : List Element) (root : Element)
      (h : ∃ n s es, (OrderedSet.empty id settings).insertMany vs = .done (n, s) es ∧
        s.tree.value 0 = .ok root) :
      ∃ s : OrderedSet Element, s.settings = settings ∧ s.tree.value 0 = .ok root ∧
        s.Refines Ord.compare (Reference.insertMany Ord.compare vs []).2 := by
    obtain ⟨n, s, es, e, hroot⟩ := h
    have hempty : (OrderedSet.empty id settings).Refines Ord.compare [] :=
      OrderedSet.refines_empty id settings
    obtain ⟨s₁, _, e₁, hr, hb⟩ := hempty.exists_insertMany vs
    cases e.symm.trans e₁
    exact ⟨s, hb.settings_eq, hroot, hr⟩
  obtain ⟨a, hset₁, hroot₁, ha⟩ := hset 0 [.int 1, .int 2] (.int 1) ⟨_, _, _, rfl, rfl⟩
  obtain ⟨a', hset₂, hroot₂, ha'⟩ := hset 1 [.int 2, .int 1] (.int 2) ⟨_, _, _, rfl, rfl⟩
  obtain ⟨b, -, hroot₃, hb⟩ := hset 2 [.int 2, .int 3] (.int 2) ⟨_, _, _, rfl, rfl⟩
  obtain ⟨b', -, hroot₄, hb'⟩ := hset 3 [.int 3, .int 2] (.int 3) ⟨_, _, _, rfl, rfl⟩
  have hpa : (plain a).inner.Refines Ord.compare [.int 1, .int 2] := ha
  have hpa' : (plain a').inner.Refines Ord.compare [.int 1, .int 2] := ha'
  have hpb : (plain b).inner.Refines Ord.compare [.int 2, .int 3] := hb
  have hpb' : (plain b').inner.Refines Ord.compare [.int 2, .int 3] := hb'
  obtain ⟨hretain, hcombine⟩ := forgets_history hpa hpa' (hset₁.trans hset₂.symm) hpb hpb'
  obtain ⟨r, r', c, c', es, h, h', htree⟩ := hretain (Condition.refusing (.int 2) (.constant true))
    (Condition.refusing (.int 2) (.less (.int 2))) rfl
  obtain ⟨u, u', _, hu, hu', hutree, hversion⟩ := hcombine .union 4 5
    (.other (.ordered (.plain b))) (.other (.ordered (.plain b'))) rfl rfl
  have hlike : (plain a).inner.emptyLike 4 = .empty 4 ⟨.natural Element, none, false⟩ := by
    rw [inner, OrderedSet.emptyLike, hset₁]
  rw [← hlike] at hv
  have hviews := peeks_eq (o := .other (.ordered (.plain b))) hpa hpb rfl
  have hu₁ := combine_done hviews hv
  cases hu.symm.trans hu₁
  exact ⟨a, a', b, b', ha, ha', hb, hb', hroot₁, hroot₂, hroot₃, hroot₄,
    ⟨r, r', c, c', _, h, h', htree⟩, _, u', hu, hu', hutree, hversion⟩

end Holder
end RedBlack
