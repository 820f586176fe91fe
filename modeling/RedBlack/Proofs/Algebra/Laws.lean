import RedBlack.Proofs.Algebra.Values

/-!
The laws of set algebra, for ordered sets that agree on which values are equal and may keep them in
different orders. What is answered about two sets and what their combinations hold are found out in
different ways; sizes tie the two together, since distinct values cannot all be covered by fewer.
-/

set_option autoImplicit false

namespace RedBlack
variable {α : Type} {same : α → α → Prop} {xs ys : List α}

namespace Relation
variable {hasA hasB : α → Bool} (he : Equivalence same)
include he

/-- Values that are distinct under the equality of the other operand do not outnumber it. -/
theorem verdict_subset_iff (hx : Distinct same xs)
    (hB : ∀ key, hasB key = true ↔ Covers same ys key) :
    subset.verdict hasA hasB xs ys = true ↔ ∀ x ∈ xs, Covers same ys x := by
  have hall : xs.all hasB = true ↔ ∀ x ∈ xs, Covers same ys x := by
    simp only [List.all_eq_true, hB]
  rw [verdict, Bool.and_eq_true, decide_eq_true_iff, hall]
  exact and_iff_right_of_imp (hx.length_le he)

theorem verdict_disjoint_iff (hA : ∀ key, hasA key = true ↔ Covers same xs key)
    (hB : ∀ key, hasB key = true ↔ Covers same ys key) :
    disjoint.verdict hasA hasB xs ys = true ↔ ∀ x ∈ xs, ¬ Covers same ys x := by
  simp only [verdict]
  split
  · simp only [List.all_eq_true, Bool.not_eq_true', ← Bool.not_eq_true, hA]
    constructor
    · rintro h x hx ⟨y, hy, hxy⟩
      exact h y hy ⟨x, hx, he.symm hxy⟩
    · rintro h y hy ⟨x, hx, hyx⟩
      exact h x hx ⟨y, hy, he.symm hyx⟩
  · simp only [List.all_eq_true, Bool.not_eq_true', ← Bool.not_eq_true, hB]

end Relation

namespace Container
variable [BEq α] {c d : Container α} {same' : α → α → Prop} {k : Bool}

theorem Keeps.equivalence (h : c.Keeps same xs) : Equivalence same := by
  obtain ⟨v, es, -, hl⟩ := h.exists_view
  exact hl.equivalence

theorem Keeps.exists_tells (hc : c.Keeps same xs) (hd : d.Keeps same' ys) (r : Relation) :
    ∃ k, c.Tells r d k := by
  obtain ⟨hasA, hcs, -⟩ := hc.exists_seen
  obtain ⟨hasB, hds, -⟩ := hd.exists_seen
  exact ⟨_, (hcs.tells_iff hds).2 (r.holds_of)⟩

theorem Keeps.tells_superset_iff (hc : c.Keeps same xs) (hd : d.Keeps same' ys) :
    c.Tells .superset d k ↔ d.Tells .subset c k := by
  obtain ⟨hasA, hcs, -⟩ := hc.exists_seen
  obtain ⟨hasB, hds, -⟩ := hd.exists_seen
  rw [hcs.tells_iff hds, hds.tells_iff hcs]
  rfl

theorem Keeps.tells_subset_iff (hc : c.Keeps same xs) (hd : d.Keeps same ys) :
    c.Tells .subset d true ↔ ∀ x ∈ xs, Covers same ys x := by
  obtain ⟨hasA, hcs, -⟩ := hc.exists_seen
  obtain ⟨hasB, hds, hB⟩ := hd.exists_seen
  rw [hcs.tells_iff hds, Relation.holds_of, Except.ok.injEq,
    Relation.verdict_subset_iff hc.equivalence hc.distinct hB]

theorem Keeps.tells_disjoint_iff (hc : c.Keeps same xs) (hd : d.Keeps same ys) :
    c.Tells .disjoint d true ↔ ∀ x ∈ xs, ¬ Covers same ys x := by
  obtain ⟨hasA, hcs, hA⟩ := hc.exists_seen
  obtain ⟨hasB, hds, hB⟩ := hd.exists_seen
  rw [hcs.tells_iff hds, Relation.holds_of, Except.ok.injEq,
    Relation.verdict_disjoint_iff hc.equivalence hA hB]

theorem Keeps.tells_disjoint_comm (hc : c.Keeps same xs) (hd : d.Keeps same ys) :
    c.Tells .disjoint d k ↔ d.Tells .disjoint c k := by
  obtain ⟨hasA, hcs, hA⟩ := hc.exists_seen
  obtain ⟨hasB, hds, hB⟩ := hd.exists_seen
  have he := hc.equivalence
  have hcomm : Relation.disjoint.verdict hasA hasB xs ys =
      Relation.disjoint.verdict hasB hasA ys xs := by
    rw [Bool.eq_iff_iff, Relation.verdict_disjoint_iff he hA hB,
      Relation.verdict_disjoint_iff he hB hA]
    exact ⟨fun h y hy ⟨x, hx, hyx⟩ => h x hx ⟨y, hy, he.symm hyx⟩,
      fun h x hx ⟨y, hy, hxy⟩ => h y hy ⟨x, hx, he.symm hxy⟩⟩
  rw [hcs.tells_iff hds, hds.tells_iff hcs, Relation.holds_of, Relation.holds_of, hcomm]

end Container

namespace Holder
variable [BEq α] {a b c d u i : Holder α}

abbrev Tells (a : Holder α) (r : Relation) (b : Holder α) (k : Bool) : Prop :=
  (Container.ordered a).Tells r (.ordered b) k

abbrev Keeps (a : Holder α) (same : α → α → Prop) (xs : List α) : Prop :=
  (Container.ordered a).Keeps same xs

/-- What three sets answer about each other. The first two hold `xs` and `ys`. -/
structure RelationLaws (a b d : Holder α) (same : α → α → Prop) (xs ys : List α) : Prop where
  answered (r : Relation) : ∃ k, a.Tells r b k
  subset_refl : a.Tells .subset a true
  subset_trans : a.Tells .subset b true → b.Tells .subset d true → a.Tells .subset d true
  subset_antisymm_iff : a.Tells .subset b true ∧ b.Tells .subset a true ↔
    a.inner.size = b.inner.size ∧ ∀ key, Covers same xs key ↔ Covers same ys key
  superset_iff (k : Bool) : a.Tells .superset b k ↔ b.Tells .subset a k
  disjoint_comm (k : Bool) : a.Tells .disjoint b k ↔ b.Tells .disjoint a k

/-- How a union `u`, an intersection `i` and a difference `d` of two sets are related to them. -/
structure CombinationLaws (a b u i d : Holder α) : Prop where
  disjoint_iff_isEmpty : a.Tells .disjoint b true ↔ i.inner.isEmpty = true
  disjoint_iff_elements_eq : a.Tells .disjoint b true ↔ d.inner.elements = a.inner.elements
  intersection_subset_left : i.Tells .subset a true
  intersection_subset_right : i.Tells .subset b true
  left_subset_union : a.Tells .subset u true
  right_subset_union : b.Tells .subset u true
  difference_disjoint : d.Tells .disjoint b true
  subset_iff_union_size : a.Tells .subset b true ↔ u.inner.size = b.inner.size
  subset_iff_intersection_size : a.Tells .subset b true ↔ i.inner.size = a.inner.size

theorem Keeps.size_eq (h : a.Keeps same xs) : a.inner.size = xs.length := by
  cases h with
  | ordered hr => exact hr.size_eq

theorem keeps_of_agree {compare compare' : α → α → Ordering} [Std.TransCmp compare']
    (hb : b.inner.Refines compare' ys) (agree : ∀ x y, compare x y = .eq ↔ compare' x y = .eq) :
    b.Keeps (Tied compare) ys := by
  have htied : Tied compare = Tied compare' := by
    funext x y
    exact propext (agree x y)
  exact htied ▸ .ordered hb

theorem Keeps.relationLaws {zs : List α} (ha : a.Keeps same xs) (hb : b.Keeps same ys)
    (hd : d.Keeps same zs) : a.RelationLaws b d same xs ys := by
  have he := ha.equivalence
  have hself (vs : List α) (key : α) (h : key ∈ vs) : Covers same vs key := ⟨key, h, he.refl key⟩
  refine ⟨ha.exists_tells hb, (ha.tells_subset_iff ha).2 (hself xs), ?_, ?_,
    fun _ => ha.tells_superset_iff hb, fun _ => ha.tells_disjoint_comm hb⟩
  · simp only [Tells, ha.tells_subset_iff hb, hb.tells_subset_iff hd, ha.tells_subset_iff hd]
    exact fun hab hbd x hx => (hab x hx).trans he hbd
  · simp only [Tells, ha.tells_subset_iff hb, hb.tells_subset_iff ha, Keeps.size_eq ha,
      Keeps.size_eq hb]
    constructor
    · rintro ⟨hab, hba⟩
      exact ⟨Nat.le_antisymm (ha.distinct.length_le he hab) (hb.distinct.length_le he hba),
        fun key => ⟨fun h => h.trans he hab, fun h => h.trans he hba⟩⟩
    · rintro ⟨-, hsame⟩
      exact ⟨fun x hx => (hsame x).1 (hself xs x hx), fun y hy => (hsame y).2 (hself ys y hy)⟩

variable {compare : α → α → Ordering} [Std.TransCmp compare] {us is ds : List α}

def Makes (a : Holder α) (kind : Combination) (b c : Holder α) : Prop :=
  ∃ (o : Operand α) (id : Nat) (es : List Event),
    o.beside (.ordered a) = .ordered b ∧ a.combine kind id o = .done c es

theorem Makes.exists_combines {kind : Combination} (h : a.Makes kind b c)
    (ha : a.inner.Refines compare xs) (hb : b.Keeps (Tied compare) ys) :
    ∃ zs, a.Combines kind compare xs ys c zs := by
  obtain ⟨o, id, es, ho, e⟩ := h
  have ho' : (o.beside (.ordered a)).Keeps (Tied compare) ys := by rwa [ho]
  obtain ⟨c', es', zs, e', hc⟩ := Holder.exists_combines ha ho' kind id
  cases e.symm.trans e'
  exact ⟨zs, hc⟩

section Combines
variable (ha : a.inner.Refines compare xs) (hb : b.Keeps (Tied compare) ys)
include ha hb

theorem Combines.size_add_size (hu : a.Combines .union compare xs ys u us)
    (hi : a.Combines .intersection compare xs ys i is) :
    u.inner.size + i.inner.size = a.inner.size + b.inner.size := by
  rw [hu.refines.size_eq, hi.refines.size_eq, ha.size_eq, hb.size_eq]
  exact Combination.length_union_add_length_intersection tied_equivalence ha.ascending.distinct
    hb.distinct (fun _ => any_eq_true_iff) (fun _ => any_eq_true_iff)
    hu.refines.ascending.distinct hi.refines.ascending.distinct hu.mem_iff hi.mem_iff

theorem Combines.disjoint_iff_isEmpty (hi : a.Combines .intersection compare xs ys i is) :
    a.Tells .disjoint b true ↔ i.inner.isEmpty = true := by
  rw [Tells, (Container.Keeps.ordered ha).tells_disjoint_iff hb, hi.refines.isEmpty,
    List.isEmpty_iff]
  constructor
  · refine fun h => List.eq_nil_iff_forall_not_mem.2 fun z hz => ?_
    obtain ⟨⟨x, hx, hzx⟩, hzy⟩ := (hi.covers_iff z).1 ⟨z, hz, tied_equivalence.refl z⟩
    exact h x hx ((covers_congr tied_equivalence hzx).1 hzy)
  · rintro rfl x hx hxy
    exact covers_nil x ((hi.covers_iff x).2 ⟨⟨x, hx, tied_equivalence.refl x⟩, hxy⟩)

theorem Combines.disjoint_iff_elements_eq (hd : a.Combines .difference compare xs ys d ds) :
    a.Tells .disjoint b true ↔ d.inner.elements = a.inner.elements := by
  rw [Tells, (Container.Keeps.ordered ha).tells_disjoint_iff hb, hd.refines.elements, ha.elements,
    Except.ok.injEq]
  constructor
  · refine fun h => hd.refines.ascending.eq_of_mem_iff ha.ascending fun z => ?_
    exact (hd.mem_iff z).trans (and_iff_left_of_imp (h z))
  · rintro rfl x hx
    exact ((hd.mem_iff x).1 hx).2

theorem Combines.subset_iff_size (hi : a.Combines .intersection compare xs ys i is) :
    a.Tells .subset b true ↔ i.inner.size = a.inner.size := by
  have he : Equivalence (Tied compare) := tied_equivalence
  have hd := hi.refines.ascending.distinct
  have hleft : ∀ z ∈ is, Covers (Tied compare) xs z := fun z hz =>
    ((hi.covers_iff z).1 ⟨z, hz, he.refl z⟩).1
  rw [Tells, (Container.Keeps.ordered ha).tells_subset_iff hb, hi.refines.size_eq, ha.size_eq]
  constructor
  · refine fun h => Nat.le_antisymm (hd.length_le he hleft) ?_
    refine ha.ascending.distinct.length_le he fun x hx => ?_
    exact (hi.covers_iff x).2 ⟨⟨x, hx, he.refl x⟩, h x hx⟩
  · intro h x hx
    have hx' := hd.covers_of_length_le he hleft (Nat.le_of_eq h.symm) x hx
    exact ((hi.covers_iff x).1 hx').2

theorem Combines.combinationLaws (hu : a.Combines .union compare xs ys u us)
    (hi : a.Combines .intersection compare xs ys i is)
    (hd : a.Combines .difference compare xs ys d ds) : a.CombinationLaws b u i d := by
  have he : Equivalence (Tied compare) := tied_equivalence
  have hka : a.Keeps (Tied compare) xs := .ordered ha
  have hki : i.Keeps (Tied compare) is := .ordered hi.refines
  have hku : u.Keeps (Tied compare) us := .ordered hu.refines
  have hkd : d.Keeps (Tied compare) ds := .ordered hd.refines
  have hself (vs : List α) (key : α) (h : key ∈ vs) : Covers (Tied compare) vs key :=
    ⟨key, h, he.refl key⟩
  have hsub := Combines.subset_iff_size ha hb hi
  have hsize := Combines.size_add_size ha hb hu hi
  exact {
    disjoint_iff_isEmpty := Combines.disjoint_iff_isEmpty ha hb hi
    disjoint_iff_elements_eq := Combines.disjoint_iff_elements_eq ha hb hd
    intersection_subset_left := (hki.tells_subset_iff hka).2 fun z hz =>
      ((hi.covers_iff z).1 (hself is z hz)).1
    intersection_subset_right := (hki.tells_subset_iff hb).2 fun z hz =>
      ((hi.covers_iff z).1 (hself is z hz)).2
    left_subset_union := (hka.tells_subset_iff hku).2 fun x hx =>
      (hu.covers_iff x).2 (.inl (hself xs x hx))
    right_subset_union := (hb.tells_subset_iff hku).2 fun y hy =>
      (hu.covers_iff y).2 (.inr (hself ys y hy))
    difference_disjoint := (hkd.tells_disjoint_iff hb).2 fun z hz =>
      ((hd.covers_iff z).1 (hself ds z hz)).2
    subset_iff_union_size := hsub.trans ⟨fun h => by omega, fun h => by omega⟩
    subset_iff_intersection_size := hsub }

end Combines

/-- Ordered sets that agree on which values are equal. All questions about them are answered and all
combinations of them done, and the answers and the combinations obey the laws of set algebra. -/
theorem laws_of_agree {compare' compare'' : α → α → Ordering} [Std.TransCmp compare']
    [Std.TransCmp compare''] {zs : List α} (ha : a.inner.Refines compare xs)
    (hb : b.inner.Refines compare' ys) (hd : d.inner.Refines compare'' zs)
    (agree : ∀ x y, compare x y = .eq ↔ compare' x y = .eq)
    (agree' : ∀ x y, compare' x y = .eq ↔ compare'' x y = .eq) :
    a.RelationLaws b d (Tied compare) xs ys ∧
      (∀ (o : Operand α) (kind : Combination) (id : Nat), o.beside (.ordered a) = .ordered b →
        ∃ c es, a.combine kind id o = .done c es) ∧
      ∀ u i e : Holder α, a.Makes .union b u → a.Makes .intersection b i → a.Makes .difference b e →
        a.CombinationLaws b u i e := by
  have hkb : b.Keeps (Tied compare) ys := keeps_of_agree hb agree
  have hkd : d.Keeps (Tied compare) zs :=
    keeps_of_agree hd fun x y => (agree x y).trans (agree' x y)
  refine ⟨Keeps.relationLaws (.ordered ha) hkb hkd, fun o kind id ho => ?_,
    fun u i e hu hi he => ?_⟩
  · have ho' : (o.beside (.ordered a)).Keeps (Tied compare) ys := by rwa [ho]
    obtain ⟨c, es, -, e, -⟩ := Holder.exists_combines ha ho' kind id
    exact ⟨c, es, e⟩
  · obtain ⟨us, hu⟩ := hu.exists_combines ha hkb
    obtain ⟨is, hi⟩ := hi.exists_combines ha hkb
    obtain ⟨es, he⟩ := he.exists_combines ha hkb
    exact Combines.combinationLaws ha hkb hu hi he

theorem laws_of_agree_abs :
    ∃ a b d u i e : Holder Element, a.inner.Refines Element.byAbs [.int (-1), .int 2] ∧
      b.inner.Refines (fun x y => Element.byAbs y x) [.int 3, .int (-2), .int 1] ∧
        d.inner.Refines Element.byAbs [.int 1] ∧
          a.RelationLaws b d (Tied Element.byAbs) [.int (-1), .int 2] [.int 3, .int (-2), .int 1] ∧
            a.Makes .union b u ∧ a.Makes .intersection b i ∧ a.Makes .difference b e ∧
              a.CombinationLaws b u i e ∧ u.inner.size = 3 := by
  obtain ⟨s, ha⟩ := OrderedSet.exists_refines Element.byAbs [Element.int (-1), .int 2]
  obtain ⟨t, hb⟩ := OrderedSet.exists_refines (fun x y => Element.byAbs y x)
    [Element.int 1, .int (-2), .int 3]
  obtain ⟨r, hd⟩ := OrderedSet.exists_refines Element.byAbs [Element.int 1]
  have ha' : (plain s).inner.Refines Element.byAbs [.int (-1), .int 2] := ha
  have hb' : (shared (.share t)).inner.Refines (fun x y => Element.byAbs y x)
    [.int 3, .int (-2), .int 1] := hb
  have agree (x y : Element) : Element.byAbs x y = .eq ↔ Element.byAbs y x = .eq :=
    Std.OrientedCmp.eq_comm
  obtain ⟨hrel, hdone, hlaws⟩ := laws_of_agree (d := .plain r) ha' hb' hd agree
    fun x y => agree y x
  have hmake (kind : Combination) : ∃ c, (plain s).Makes kind (.shared (.share t)) c := by
    obtain ⟨c, es, e⟩ := hdone (.other (.ordered (.shared (.share t)))) kind 2 rfl
    exact ⟨c, _, 2, es, rfl, e⟩
  obtain ⟨u, hu⟩ := hmake .union
  obtain ⟨i, hi⟩ := hmake .intersection
  obtain ⟨e, he⟩ := hmake .difference
  have hc := hlaws u i e hu hi he
  have hcov : ∀ x ∈ [Element.int (-1), .int 2],
      Covers (Tied Element.byAbs) [.int 3, .int (-2), .int 1] x := by
    simp only [Covers, Tied]
    decide
  have hsub : (plain s).Tells .subset (.shared (.share t)) true :=
    (Container.Keeps.tells_subset_iff (.ordered ha') (keeps_of_agree hb' agree)).2 hcov
  have hsize : u.inner.size = 3 := (hc.subset_iff_union_size.1 hsub).trans hb'.size_eq
  exact ⟨_, _, .plain r, u, i, e, ha', hb', hd, hrel, hu, hi, he, hc, hsize⟩

end Holder
end RedBlack
