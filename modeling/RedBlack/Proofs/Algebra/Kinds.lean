import RedBlack.Element.Comparators
import RedBlack.Proofs.Operand

set_option autoImplicit false

namespace RedBlack
variable {α : Type} {compare : α → α → Ordering} {xs ys ys' vs vs' : List α} {z : α}

theorem tied_eq_eq (compare : α → α → Ordering) [Std.LawfulEqCmp compare] :
    Tied compare = (· = ·) := by
  funext x y
  exact propext Std.LawfulEqCmp.compare_eq_iff_eq

theorem leads_eq_iff : Leads (· = ·) vs z ↔ z ∈ vs := by
  induction vs with
  | nil => simp [Leads]
  | cons v vs ih =>
    simp only [Leads, ih, List.mem_cons]
    exact ⟨fun h => h.imp_right And.right, fun h => (Classical.em (z = v)).imp_right fun hn =>
      ⟨hn, h.resolve_left hn⟩⟩

namespace Reference
variable [Std.TransCmp compare] [Std.LawfulEqCmp compare]

theorem mem_insertMany_nil : z ∈ (insertMany compare vs []).2 ↔ z ∈ vs := by
  rw [mem_insertMany, tied_eq_eq, leads_eq_iff]
  simp [covers_nil]

theorem insertMany_perm (h : vs.Perm vs') (hv : Ascending compare (insertMany compare vs []).2)
    (hv' : Ascending compare (insertMany compare vs' []).2) :
    (insertMany compare vs []).2 = (insertMany compare vs' []).2 := by
  refine hv.eq_of_mem_iff hv' fun z => ?_
  rw [mem_insertMany_nil, mem_insertMany_nil, h.mem_iff]

end Reference

theorem Combination.inserted_perm {kind : Combination} {hasA hasB : α → Bool} (h : ys.Perm ys') :
    (kind.inserted hasA hasB xs ys).Perm (kind.inserted hasA hasB xs ys') := by
  cases kind with
  | union => exact h.append_left xs
  | intersection =>
    simp only [inserted, h.length_eq]
    split
    · exact h.filter hasA
    · exact .refl _
  | difference => exact .refl _
  | symmetricDifference => exact (h.filter _).append_left _

/-- Two sets that list the same values in the order of one comparator, after as many changes. -/
structure OrderedSet.Alike [BEq α] (s t : OrderedSet α) (compare : α → α → Ordering) : Prop where
  exists_refines : ∃ zs, s.Refines compare zs ∧ t.Refines compare zs
  equal : s.equal t = .ok true
  size_eq : s.size = t.size
  version_eq : s.version = t.version

section Keeps
variable [BEq α]

theorem Container.keeps_ordered {h : Holder α} [Std.TransCmp compare] [Std.LawfulEqCmp compare]
    (hr : h.inner.Refines compare xs) : (ordered h).Keeps (· = ·) xs :=
  tied_eq_eq compare ▸ .ordered hr

theorem Container.keeps_sorted {name : String} {family : Comparator.Family} [Std.TransCmp compare]
    [Std.LawfulEqCmp compare] (h : Ascending compare xs) :
    (sorted ⟨⟨name, family, compare⟩, xs⟩).Keeps (· = ·) xs :=
  tied_eq_eq compare ▸ .sorted (s := ⟨⟨name, family, compare⟩, xs⟩) h

theorem Container.keeps_unordered [LawfulBEq α] (h : xs.Nodup) :
    (unordered ⟨xs⟩).Keeps (· = ·) xs := by
  have heq : (fun x y : α => (x == y) = true) = (· = ·) := by simp
  exact heq ▸ .unordered (s := ⟨xs⟩) (heq ▸ h)

end Keeps

section Alike
variable [BEq α] [LawfulBEq α] {a : Holder α} {c c' : Container α} {o o' : Operand α}

theorem OrderedSet.Refines.alike {s t : OrderedSet α} {zs : List α} (hs : s.Refines compare zs)
    (ht : t.Refines compare zs) (hv : s.version = t.version) : s.Alike t compare where
  exists_refines := ⟨zs, hs, ht⟩
  equal := by
    rw [OrderedSet.equal, hs.size_eq, ht.size_eq, if_pos rfl, hs.elements, ht.elements]
    exact congrArg Except.ok BEq.rfl
  size_eq := hs.size_eq.trans ht.size_eq.symm
  version_eq := hv

omit [LawfulBEq α] in
theorem Container.Keeps.exists_seen_alike (hc : c.Keeps (· = ·) ys) (hc' : c'.Keeps (· = ·) ys')
    (h : ∀ v, v ∈ ys ↔ v ∈ ys') :
    ∃ has, c.Seen (.of has ys) ∧ c'.Seen (.of has ys') ∧ ys.Perm ys' := by
  obtain ⟨has, hs, hhas⟩ := hc.exists_seen
  obtain ⟨has', hs', hhas'⟩ := hc'.exists_seen
  have hsame : has' = has := by
    funext key
    rw [Bool.eq_iff_iff, hhas, hhas']
    simp [Covers, h]
  exact ⟨has, hs, hsame ▸ hs', hc.distinct.perm eq_equivalence hc'.distinct h⟩

variable [Std.TransCmp a.inner.compare] [Std.LawfulEqCmp a.inner.compare]

theorem Holder.exists_combine_alike {hasA hasB : α → Bool}
    (ha : (Container.ordered a).Seen (.of hasA xs))
    (hs : (o.beside (.ordered a)).Seen (.of hasB ys))
    (hs' : (o'.beside (.ordered a)).Seen (.of hasB ys')) (hp : ys.Perm ys') (kind : Combination)
    (id id' : Nat) :
    ∃ r r' es es', a.combine kind id o = .done r es ∧ a.combine kind id' o' = .done r' es' ∧
      r.inner.Alike r'.inner a.inner.compare := by
  obtain ⟨r, es, e, -, hb, hr⟩ := ha.exists_combine hs kind id
  obtain ⟨r', es', e', -, hb', hr'⟩ := ha.exists_combine hs' kind id'
  rw [← Reference.insertMany_perm (Combination.inserted_perm hp) hr.ascending hr'.ascending] at hr'
  refine ⟨r, r', es, es', e, e', hr.alike hr' ?_⟩
  rw [hb.version_eq, hb'.version_eq, hr.size_eq, hr'.size_eq]
  rfl

/-- What comes of an ordered set and another operand does not depend on the kind of the operand, but
only on the values it holds: every combination lists the same values, has as many and was changed as
often, and every question is answered the same with the set on either side. The set itself may hold
whatever it likes, as long as its tree is one. -/
theorem Holder.alike_of_mem_iff (hs : a.IsSound) (hc : c.Keeps (· = ·) ys)
    (hc' : c'.Keeps (· = ·) ys') (h : ∀ v, v ∈ ys ↔ v ∈ ys') :
    (∀ kind id id', ∀ o o' : Operand α, o.beside (.ordered a) = c → o'.beside (.ordered a) = c' →
      ∃ r r' es es', a.combine kind id o = .done r es ∧ a.combine kind id' o' = .done r' es' ∧
        r.inner.Alike r'.inner a.inner.compare) ∧
      ∀ r, ∃ left right, (Container.ordered a).Tells r c left ∧
        (Container.ordered a).Tells r c' left ∧ c.Tells r (.ordered a) right ∧
          c'.Tells r (.ordered a) right := by
  obtain ⟨t, ht⟩ := hs
  have ha := Container.seen_ordered ht
  obtain ⟨has, hc, hc', hp⟩ := hc.exists_seen_alike hc' h
  refine ⟨fun kind id id' o o' ho ho' => ?_, fun r => ⟨_, _, (ha.tells_iff hc).2 r.holds_of,
    (ha.tells_iff hc').2 ?_, (hc.tells_iff ha).2 r.holds_of, (hc'.tells_iff ha).2 ?_⟩⟩
  · exact exists_combine_alike ha (ho ▸ hc) (ho' ▸ hc') hp kind id id'
  · rw [r.holds_of, r.verdict_perm (.refl _) hp]
  · rw [r.holds_of, r.verdict_perm hp (.refl _)]

end Alike

/-- Two numbers without an order, in descending order behind a poisoned lock, and in a plain
list. -/
theorem Holder.alike_of_mem_iff_reverse :
    ∃ a b : Holder Element, a.inner.Refines Ord.compare [.int 1, .int 2, .int 3] ∧
      b.inner.Refines Element.byReverse [.int 5, .int 3] ∧
        ∀ c ∈ [Container.ordered b, .sorted ⟨.natural Element, [.int 3, .int 5]⟩],
          ∃ r r' es es',
            a.combine .symmetricDifference 2 (.other (.unordered ⟨[.int 3, .int 5]⟩)) = .done r es ∧
              a.combine .symmetricDifference 3 (.other c) = .done r' es' ∧
                r.inner.Alike r'.inner a.inner.compare := by
  obtain ⟨s, ha⟩ := OrderedSet.exists_refines Ord.compare [Element.int 1, .int 2, .int 3]
  obtain ⟨t, hb⟩ := OrderedSet.exists_refines Element.byReverse [Element.int 3, .int 5]
  have hb' : (shared ⟨t, true⟩).inner.Refines Element.byReverse [.int 5, .int 3] := hb
  have : Std.TransCmp (plain s).inner.compare := ha.compare_eq ▸ inferInstance
  have : Std.LawfulEqCmp (plain s).inner.compare := ha.compare_eq ▸ inferInstance
  have hc : (Container.unordered ⟨[Element.int 3, .int 5]⟩).Keeps (· = ·) [.int 3, .int 5] :=
    Container.keeps_unordered (by decide)
  refine ⟨.plain s, .shared ⟨t, true⟩, ha, hb', fun c hmem => ?_⟩
  have halike {ys : List Element} (hc' : c.Keeps (· = ·) ys)
      (h : ∀ v, v ∈ [Element.int 3, .int 5] ↔ v ∈ ys) :=
    (alike_of_mem_iff (a := plain s) ha.isSound hc hc' h).1 .symmetricDifference 2 3 (.other _)
      (.other _) rfl rfl
  simp only [List.mem_cons, List.not_mem_nil, or_false] at hmem
  rcases hmem with rfl | rfl
  · exact halike (Container.keeps_ordered hb') fun v => List.Perm.mem_iff (by decide)
  · exact halike (Container.keeps_sorted (by simp only [Ascending]; decide)) fun v => Iff.rfl

end RedBlack
