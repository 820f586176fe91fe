import RedBlack.Element.Comparators
import RedBlack.Proofs.Algebra.Values
import RedBlack.Proofs.Operand

/-!
Operands with equalities of their own. The answers about subsets and supersets compare the sizes of
both operands before they ask one of them about the values of the other: no more than a shortcut as
long as the one that is asked tells the values of the other apart. A difference asks the operand
about the values of the set, and so does an intersection, unless the operand is smaller: then the
set is asked about the values of the operand.
-/

set_option autoImplicit false

namespace RedBlack
variable {α : Type}

section Views
variable {same same' : α → α → Prop} {xs ys : List α} {a b : View α}

theorem View.Lists.exists_isSubset (ha : a.Lists same xs) (hb : b.Lists same' ys) :
    ∃ k, a.isSubset b = .ok k ∧
      (k = true ↔ xs.length ≤ ys.length ∧ ∀ x ∈ xs, Covers same' ys x) := by
  obtain ⟨has, hask, hhas⟩ := hb.exists_has
  have hall : xs.all has = true ↔ ∀ x ∈ xs, Covers same' ys x := by
    rw [List.all_eq_true]
    exact forall₂_congr fun x _ => hhas x
  rw [View.isSubset, ha.size_eq, hb.size_eq, ha.elements_eq, allM_eq_all hask]
  split
  · next hle => exact ⟨_, rfl, hall.trans (and_iff_right hle).symm⟩
  · next hnle => exact ⟨false, rfl, iff_of_false Bool.false_ne_true fun h => hnle h.1⟩

end Views

theorem Holder.exists_difference [BEq α] {a : Holder α} {o : Operand α}
    {compare : α → α → Ordering} [Std.TransCmp compare] {same : α → α → Prop} {xs ys : List α}
    (ha : a.inner.Refines compare xs) (hb : (o.beside (.ordered a)).Keeps same ys) (id : Nat) :
    ∃ d es, a.combine .difference id o = .done d es ∧
      (d.inner.isEmpty = true ↔ ∀ x ∈ xs, Covers same ys x) := by
  obtain ⟨hasA, hasB, -, hB, hc⟩ := Holder.exists_combine_eq ha hb
  obtain ⟨d, es, e, -, -, hr⟩ := hc .difference id
  refine ⟨d, es, e, ?_⟩
  rw [hr.isEmpty, Reference.isEmpty_insertMany, Combination.inserted, List.isEmpty_iff,
    List.filter_eq_nil_iff]
  simp [← hB]

/-- Whatever the kinds and the equalities of two operands, one is said to be a subset of the other
if it has not more values and the other contains them all. The sizes make a difference only if the
other takes two values of the first for the same. The difference of an ordered set is empty if the
operand contains all of its values, whatever their sizes. -/
theorem Container.exists_relations [BEq α] {c : Container α} {o : Operand α}
    {same same' : α → α → Prop} {xs ys : List α} (hc : c.Keeps same xs)
    (ho : (o.beside c).Keeps same' ys) :
    ∃ a b es subset superset, c.views o = .done (a, b) es ∧
      Relation.subset.holds a b = .ok subset ∧ Relation.superset.holds a b = .ok superset ∧
      (subset = true ↔ xs.length ≤ ys.length ∧ ∀ x ∈ xs, Covers same' ys x) ∧
      (superset = true ↔ ys.length ≤ xs.length ∧ ∀ y ∈ ys, Covers same xs y) ∧
      (Distinct same' xs → (subset = true ↔ ∀ x ∈ xs, Covers same' ys x)) ∧
      (Distinct same ys → (superset = true ↔ ∀ y ∈ ys, Covers same xs y)) ∧
      ∀ h, c = .ordered h → ∀ id, ∃ d es', h.combine .difference id o = .done d es' ∧
        (d.inner.isEmpty = true ↔ ∀ x ∈ xs, Covers same' ys x) := by
  obtain ⟨a, b, es, e, ha, hb⟩ := hc.exists_views ho
  obtain ⟨sub, hsub, hsubiff⟩ := ha.exists_isSubset hb
  -- A superset is the same question with the operands exchanged.
  obtain ⟨sup, hsup, hsupiff⟩ := hb.exists_isSubset ha
  refine ⟨a, b, es, sub, sup, e, hsub, hsup, hsubiff, hsupiff, fun hd => ?_, fun hd => ?_, ?_⟩
  · exact hsubiff.trans (and_iff_right_of_imp (hd.length_le hb.equivalence))
  · exact hsupiff.trans (and_iff_right_of_imp (hd.length_le ha.equivalence))
  · rintro h rfl id
    cases hc with
    | ordered hr => exact Holder.exists_difference hr ho id

/-- Numbers in their order, and one that stands for two of them at its distance from zero. -/
theorem Container.exists_relations_opposite :
    ∃ (h h' : Holder Element) (a b : View Element) (d : Holder Element) (es es' : List Event),
      h.inner.Refines Ord.compare [.int (-1), .int 1] ∧
        h'.inner.Refines Element.byAbs [.int 1] ∧
          (Container.ordered h).views (.other (.ordered h')) = .done (a, b) es ∧
            Relation.subset.holds a b = .ok false ∧
              h.combine .difference 2 (.other (.ordered h')) = .done d es' ∧
                d.inner.isEmpty = true := by
  obtain ⟨s, hs⟩ := OrderedSet.exists_refines Ord.compare [Element.int (-1), .int 1]
  obtain ⟨t, ht⟩ := OrderedSet.exists_refines Element.byAbs [.int 1]
  have hs' : (Holder.plain s).inner.Refines Ord.compare [.int (-1), .int 1] := hs
  obtain ⟨a, b, es, sub, sup, e, hsub, -, hiff, -, -, -, hdiff⟩ := Container.exists_relations
    (o := .other (.ordered (.plain t))) (.ordered hs') (.ordered ht)
  have hall : ∀ x ∈ [Element.int (-1), .int 1], Covers (Tied Element.byAbs) [.int 1] x := by
    simp only [Covers, Tied]
    decide
  have hfalse : sub = false := by
    rw [← Bool.not_eq_true, hiff]
    exact fun h => absurd h.1 (by decide)
  obtain ⟨d, es', e', hd⟩ := hdiff _ rfl 2
  exact ⟨.plain s, .plain t, a, b, d, es, es', hs, ht, e, hfalse ▸ hsub, e', hd.2 hall⟩

namespace Combination
variable {compare : α → α → Ordering} [Std.TransCmp compare] {same : α → α → Prop} {xs ys : List α}
  {hasA hasB : α → Bool} {x key : α}

section Inserted
variable (hx : Distinct (Tied compare) xs)
  (hA : ∀ key, hasA key = true ↔ Covers (Tied compare) xs key)
  (hB : ∀ key, hasB key = true ↔ Covers same ys key)

include hx hB in
theorem covers_difference (hmem : x ∈ xs) :
    Covers (Tied compare) (difference.inserted hasA hasB xs ys) x ↔ ¬ Covers same ys x := by
  rw [inserted, hx.covers_filter_iff tied_equivalence hmem, ← hB]
  simp

include hx hA hB in
theorem covers_intersection (hmem : x ∈ xs) :
    Covers (Tied compare) (intersection.inserted hasA hasB xs ys) x ↔
      if ys.length < xs.length then Covers (Tied compare) ys x else Covers same ys x := by
  rw [inserted]
  split
  · rw [covers_filter fun _ => test_congr tied_equivalence hA]
    exact and_iff_left ((hA x).2 ⟨x, hmem, tied_equivalence.refl x⟩)
  · rw [hx.covers_filter_iff tied_equivalence hmem, hB]

include hA in
theorem covers_of_inserted
    (h : Covers (Tied compare) (difference.inserted hasA hasB xs ys) key ∨
      Covers (Tied compare) (intersection.inserted hasA hasB xs ys) key) :
    Covers (Tied compare) xs key := by
  rcases h with h | h
  · exact h.mono List.filter_sublist.subset
  · simp only [inserted] at h
    split at h
    · rw [covers_filter fun _ => test_congr tied_equivalence hA] at h
      exact (hA key).1 h.2
    · exact h.mono List.filter_sublist.subset

include hx hA hB

theorem covers_one_iff (hmem : x ∈ xs) :
    (Covers (Tied compare) (difference.inserted hasA hasB xs ys) x ↔
        ¬ Covers (Tied compare) (intersection.inserted hasA hasB xs ys) x) ↔
      xs.length ≤ ys.length ∨ (Covers same ys x ↔ Covers (Tied compare) ys x) := by
  rw [covers_difference hx hB hmem, covers_intersection hx hA hB hmem, not_iff_not]
  by_cases hlt : ys.length < xs.length
  · rw [if_pos hlt, or_iff_right (Nat.not_le.2 hlt)]
  · rw [if_neg hlt]
    exact iff_of_true Iff.rfl (.inl (Nat.not_lt.1 hlt))

/-- Only what the operand has and the set has not under its own equality is lost. -/
theorem covers_either_iff :
    (∀ key, Covers (Tied compare) (difference.inserted hasA hasB xs ys) key ∨
        Covers (Tied compare) (intersection.inserted hasA hasB xs ys) key ↔
          Covers (Tied compare) xs key) ↔
      xs.length ≤ ys.length ∨ ∀ x ∈ xs, Covers same ys x → Covers (Tied compare) ys x := by
  -- Nothing foreign is inserted, so that it is enough to ask about the values of the set.
  have hmem : (∀ key, Covers (Tied compare) (difference.inserted hasA hasB xs ys) key ∨
      Covers (Tied compare) (intersection.inserted hasA hasB xs ys) key ↔
        Covers (Tied compare) xs key) ↔
      ∀ x ∈ xs, Covers (Tied compare) (difference.inserted hasA hasB xs ys) x ∨
        Covers (Tied compare) (intersection.inserted hasA hasB xs ys) x := by
    refine ⟨fun h x hx => (h x).2 ⟨x, hx, tied_equivalence.refl x⟩, fun h key => ?_⟩
    refine ⟨covers_of_inserted hA, fun ⟨x, hmem, hk⟩ => ?_⟩
    rw [covers_congr tied_equivalence hk, covers_congr tied_equivalence hk]
    exact h x hmem
  rw [hmem]
  by_cases hlt : ys.length < xs.length
  · rw [or_iff_right (Nat.not_le.2 hlt)]
    refine forall_congr' fun x => forall_congr' fun hx' => ?_
    rw [covers_difference hx hB hx', covers_intersection hx hA hB hx', if_pos hlt]
    exact imp_iff_not_or.symm
  · refine iff_of_true (fun x hx' => ?_) (.inl (Nat.not_lt.1 hlt))
    rw [covers_difference hx hB hx', covers_intersection hx hA hB hx', if_neg hlt]
    exact (Classical.em _).symm

end Inserted
end Combination

/-- A set has a difference and an intersection with an operand, which list `ds` and `is`, and any
two sets that list these have a union, which lists `us`. -/
structure Holder.Splits [BEq α] (a : Holder α) (o : Operand α) (compare : α → α → Ordering)
    (ds is us : List α) : Prop where
  difference (id : Nat) :
    ∃ d es, a.combine .difference id o = .done d es ∧ d.inner.Refines compare ds
  intersection (id : Nat) :
    ∃ i es, a.combine .intersection id o = .done i es ∧ i.inner.Refines compare is
  union (d i : Holder α) (id : Nat) :
    d.inner.Refines compare ds → i.inner.Refines compare is →
      ∃ u es, d.combine .union id (.other (.ordered i)) = .done u es ∧ u.inner.Refines compare us

/-- Every value of a set is in exactly one of its difference and its intersection with an operand,
of whatever kind and with whatever equality, if the operand is not the smaller one of the two.
Otherwise this depends on whether the two equalities agree about the value and the operand. -/
theorem Holder.exists_splits [BEq α] {a : Holder α} {o : Operand α} {compare : α → α → Ordering}
    [Std.TransCmp compare] {same : α → α → Prop} {xs ys : List α} (ha : a.inner.Refines compare xs)
    (hb : (o.beside (.ordered a)).Keeps same ys) :
    ∃ ds is us, a.Splits o compare ds is us ∧
      (∀ x ∈ xs, (Covers (Tied compare) ds x ↔ ¬ Covers (Tied compare) is x) ↔
        xs.length ≤ ys.length ∨ (Covers same ys x ↔ Covers (Tied compare) ys x)) ∧
      ((∀ key, Covers (Tied compare) us key ↔ Covers (Tied compare) xs key) ↔
        xs.length ≤ ys.length ∨ ∀ x ∈ xs, Covers same ys x → Covers (Tied compare) ys x) := by
  obtain ⟨hasA, hasB, hA, hB, hc⟩ := Holder.exists_combine_eq ha hb
  have hx := ha.ascending.distinct
  have hcov (vs : List α) (key : α) :
      Covers (Tied compare) (Reference.insertMany compare vs []).2 key ↔
        Covers (Tied compare) vs key := by
    simp [Reference.covers_insertMany, covers_nil]
  have hlist (kind : Combination) : ∃ zs, (∀ id, ∃ c es, a.combine kind id o = .done c es ∧
      c.inner.Refines compare zs) ∧ ∀ key, Covers (Tied compare) zs key ↔
        Covers (Tied compare) (kind.inserted hasA hasB xs ys) key := by
    refine ⟨_, fun id => ?_, hcov _⟩
    obtain ⟨c, es, e, -, -, hr⟩ := hc kind id
    exact ⟨c, es, e, hr⟩
  obtain ⟨ds, hds, hcd⟩ := hlist .difference
  obtain ⟨is, his, hci⟩ := hlist .intersection
  refine ⟨ds, is, (Reference.insertMany compare (ds ++ is) []).2,
    ⟨hds, his, fun d i id hd hi => ?_⟩, fun x hmem => ?_, ?_⟩
  · obtain ⟨_, _, -, -, hu⟩ := Holder.exists_combine_eq (o := .other (.ordered i)) hd (.ordered hi)
    obtain ⟨u, es, e, -, -, hr⟩ := hu .union id
    exact ⟨u, es, e, hr⟩
  · rw [hcd, hci]
    exact Combination.covers_one_iff hx hA hB hmem
  · simp only [hcov, covers_append, hcd, hci]
    exact Combination.covers_either_iff hx hA hB

/-- Numbers in their order, and an operand that looks at their distance from zero. It is smaller and
has 1 only as its opposite, so that 1 is lost. -/
theorem Holder.exists_splits_opposite :
    ∃ (a b : Holder Element) (ds is us : List Element),
      a.inner.Refines Ord.compare [.int 1, .int 2] ∧
        b.inner.Refines Element.byAbs [.int (-1)] ∧
          a.Splits (.other (.ordered b)) Ord.compare ds is us ∧
            ¬ (Covers (Tied Ord.compare) ds (.int 1) ↔
              ¬ Covers (Tied Ord.compare) is (.int 1)) ∧
                ¬ ∀ key, Covers (Tied Ord.compare) us key ↔
                  Covers (Tied Ord.compare) [.int 1, .int 2] key := by
  obtain ⟨s, ha⟩ := OrderedSet.exists_refines Ord.compare [Element.int 1, .int 2]
  obtain ⟨t, hb⟩ := OrderedSet.exists_refines Element.byAbs [.int (-1)]
  have hhas : Covers (Tied Element.byAbs) [.int (-1)] (.int 1) := by
    simp only [Covers, Tied]
    decide
  have hnot : ¬ Covers (Tied Ord.compare) [Element.int (-1)] (.int 1) := by
    simp only [Covers, Tied]
    decide
  obtain ⟨ds, is, us, h, hone, heither⟩ := Holder.exists_splits (a := .plain s)
    (o := .other (.ordered (.plain t))) ha (.ordered hb)
  refine ⟨.plain s, .plain t, ds, is, us, ha, hb, h, fun h₁ => ?_, fun h₂ => ?_⟩
  · rcases (hone (.int 1) (List.mem_cons_self ..)).1 h₁ with hle | hiff
    · exact absurd hle (by decide)
    · exact hnot (hiff.1 hhas)
  · rcases heither.1 h₂ with hle | himp
    · exact absurd hle (by decide)
    · exact hnot (himp _ (List.mem_cons_self ..) hhas)

end RedBlack
