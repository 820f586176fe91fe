import RedBlack.Proofs.Container
import RedBlack.Proofs.OrderedSet.Algebra
import RedBlack.Proofs.OrderedSet.Reference

/-!
What is seen of a container. A view comes to a list of values and a test of membership, and what is
answered about two containers, or inserted when they are combined, depends on nothing else.
Containers may keep an equality of their own.
-/

set_option autoImplicit false

namespace RedBlack

section View
variable {α : Type} {xs ys : List α} {a b : View α} {hasA hasB : α → Bool}

theorem allM_eq_all {p : α → Except Fault Bool} {q : α → Bool} (h : ∀ v, p v = .ok (q v))
    (vs : List α) : vs.allM p = .ok (vs.all q) := by
  induction vs with
  | nil => rfl
  | cons v vs ih =>
    rw [List.allM, h, ok_bind, List.all_cons]
    cases q v with
    | false => rfl
    | true => exact ih

def View.of (has : α → Bool) (xs : List α) : View α := ⟨xs.length, fun v => .ok (has v), xs⟩

namespace Relation
variable {xs' ys' : List α}

/-- The answer about operands that visit `xs` and `ys` and test membership with `hasA` and
`hasB`. -/
def verdict (r : Relation) (hasA hasB : α → Bool) (xs ys : List α) : Bool :=
  match r with
  | subset => xs.length ≤ ys.length && xs.all hasB
  | superset => ys.length ≤ xs.length && ys.all hasA
  | disjoint => if ys.length < xs.length then ys.all (!hasA ·) else xs.all (!hasB ·)

theorem holds_of (r : Relation) :
    r.holds (.of hasA xs) (.of hasB ys) = .ok (r.verdict hasA hasB xs ys) := by
  have hall (has : α → Bool) (vs : List α) :
      vs.allM (fun v => (.ok (has v) : Except Fault Bool)) = .ok (vs.all has) :=
    allM_eq_all (fun _ => rfl) vs
  cases r with
  | subset =>
    by_cases h : xs.length ≤ ys.length
    · simp [holds, View.isSubset, View.of, verdict, h, hall]
    · simp [holds, View.isSubset, View.of, verdict, h]
      rfl
  | superset =>
    by_cases h : ys.length ≤ xs.length
    · simp [holds, View.isSuperset, View.of, verdict, h, hall]
    · simp [holds, View.isSuperset, View.of, verdict, h]
      rfl
  | disjoint =>
    have hsize : (View.of hasB ys).size < (View.of hasA xs).size ↔ ys.length < xs.length := Iff.rfl
    simp only [holds, View.isDisjoint, View.smallerFirst, verdict, hsize]
    split
    · exact hall (!hasA ·) ys
    · exact hall (!hasB ·) xs

theorem verdict_perm (r : Relation) (hx : xs.Perm xs') (hy : ys.Perm ys') :
    r.verdict hasA hasB xs ys = r.verdict hasA hasB xs' ys' := by
  cases r <;> simp only [verdict, hx.length_eq, hy.length_eq, hx.all_eq, hy.all_eq]

end Relation

namespace Container
variable [BEq α] {c d : Container α} {o : Operand α} {r : Relation} {k k' : Bool}

/-- The view of a container, whatever the state of its lock. -/
def Seen (c : Container α) (v : View α) : Prop := ∃ es, c.view = .done v es

/-- What a container answers about another one, be it itself. -/
def Tells (c : Container α) (r : Relation) (d : Container α) (k : Bool) : Prop :=
  ∀ o : Operand α, o.beside c = d → ∃ a b es, c.views o = .done (a, b) es ∧ r.holds a b = .ok k

theorem Seen.exists_views (hc : c.Seen a) (hd : (o.beside c).Seen b) :
    ∃ es, c.views o = .done (a, b) es := by
  obtain ⟨es, e⟩ := hc
  obtain ⟨es', e'⟩ := hd
  cases o with
  | itself =>
    obtain ⟨rfl, -⟩ := Traced.done.inj (e.symm.trans e')
    exact ⟨_, Traced.bind_done e rfl⟩
  | other d => exact ⟨_, Traced.bind_done e (Traced.bind_done e' rfl)⟩

theorem Seen.tells_iff (hc : c.Seen a) (hd : d.Seen b) : c.Tells r d k ↔ r.holds a b = .ok k := by
  constructor
  · intro h
    obtain ⟨a', b', es, e, hk⟩ := h (.other d) rfl
    obtain ⟨es', e'⟩ := Seen.exists_views (o := .other d) hc hd
    rw [e] at e'
    cases e'
    exact hk
  · rintro hk o rfl
    obtain ⟨es, e⟩ := hc.exists_views hd
    exact ⟨a, b, es, e, hk⟩

theorem seen_ordered {h : Holder α} {t : Tree α} (ht : h.inner.Represents t) :
    (ordered h).Seen (.of (fun key => (t.find? (h.inner.compare key)).isSome) t.toList) := by
  obtain ⟨es, e⟩ := h.exists_acquire
  refine ⟨_, Traced.bind_done e (Traced.liftM_eq_done ?_)⟩
  rw [ht.view, View.of, ht.size_eq, funext ht.contains]

/-- What is seen of a set and an operand decides what their combination inserts. Nothing but the
comparator of the set has a say in what comes of it. -/
theorem Seen.exists_combine {h : Holder α} [Std.TransCmp h.inner.compare]
    (ha : (ordered h).Seen (.of hasA xs)) (hb : (o.beside (ordered h)).Seen (.of hasB ys))
    (kind : Combination) (id : Nat) :
    ∃ c es, h.combine kind id o = .done c es ∧ c = h.renew c.inner ∧
      (h.inner.emptyLike id).Becomes c.inner c.inner.size ∧
        c.inner.Refines h.inner.compare
          (Reference.insertMany h.inner.compare (kind.inserted hasA hasB xs ys) []).2 := by
  have hempty : (h.inner.emptyLike id).Refines h.inner.compare [] :=
    OrderedSet.refines_empty id h.inner.settings
  obtain ⟨es₁, e₁⟩ := h.exists_acquire
  obtain ⟨es₂, e₂⟩ := ha.exists_views hb
  obtain ⟨n, s', es₃, es₄, e₃, e₄⟩ := hempty.isSound.exists_insertCombination_eq
    (a := .of hasA xs) (b := .of hasB ys) kind (fun _ => rfl) (fun _ => rfl) rfl rfl
  obtain ⟨s₁, es₅, e₅, h₁, hn⟩ := hempty.exists_insertMany (kind.inserted hasA hasB xs ys)
  cases e₃.symm.trans e₅
  refine ⟨h.renew s', _, Traced.bind_done e₁ (Traced.bind_done e₂ (Traced.bind_done e₄ rfl)), ?_⟩
  rw [Holder.inner_renew, h₁.size_eq, Reference.length_insertMany, List.length_nil, Nat.zero_add]
  exact ⟨rfl, hn, h₁⟩

end Container
end View

variable {α : Type} {same same' : α → α → Prop} {xs ys : List α}

/-- The elements of a view are these distinct values, and it contains what is the same as one. -/
structure View.Lists (v : View α) (same : α → α → Prop) (xs : List α) : Prop where
  equivalence : Equivalence same
  distinct : Distinct same xs
  elements_eq : v.elements = xs
  size_eq : v.size = xs.length
  exists_has : ∃ has : α → Bool, (∀ key, v.contains key = .ok (has key)) ∧
    ∀ key, has key = true ↔ Covers same xs key

theorem View.Lists.exists_eq_of {a : View α} (h : a.Lists same xs) :
    ∃ has, a = .of has xs ∧ ∀ key, has key = true ↔ Covers same xs key := by
  obtain ⟨has, hask, hhas⟩ := h.exists_has
  obtain ⟨size, contains, elements⟩ := a
  obtain rfl : size = xs.length := h.size_eq
  obtain rfl : elements = xs := h.elements_eq
  obtain rfl : contains = fun v => .ok (has v) := funext hask
  exact ⟨has, rfl, hhas⟩

/-- A container that keeps these values, visited in this order, up to a lawful equality: that of its
comparator, or that of the values themselves. -/
inductive Container.Keeps [BEq α] : Container α → (α → α → Prop) → List α → Prop
  | ordered {h : Holder α} {compare : α → α → Ordering} {xs : List α} [Std.TransCmp compare] :
    h.inner.Refines compare xs → Keeps (.ordered h) (Tied compare) xs
  | sorted {s : SortedSet α} [Std.TransCmp s.comparator.compare] :
    Ascending s.comparator.compare s.values →
      Keeps (.sorted s) (Tied s.comparator.compare) s.values
  | unordered {s : UnorderedSet α} [EquivBEq α] :
    Distinct (fun x y => (x == y) = true) s.values →
      Keeps (.unordered s) (fun x y => (x == y) = true) s.values

section Reference
variable {compare : α → α → Ordering} {key : α}

theorem Reference.isSome_get?_iff :
    (Reference.get? compare key xs).isSome = true ↔ Covers (Tied compare) xs key := by
  simp [Reference.get?, Covers, Tied]

variable [Std.TransCmp compare]

theorem OrderedSet.Refines.exists_view {s : OrderedSet α} (h : s.Refines compare xs) :
    ∃ v, s.view = .ok v ∧ v.Lists (Tied compare) xs := by
  refine ⟨⟨s.size, s.contains, xs⟩, ?_, tied_equivalence, h.ascending.distinct, rfl, h.size_eq,
    fun key => (Reference.get? compare key xs).isSome, h.contains,
    fun key => Reference.isSome_get?_iff⟩
  rw [OrderedSet.view, h.elements]
  rfl

theorem Holder.exists_view_lists {h : Holder α} (hr : h.inner.Refines compare xs) :
    ∃ v es, h.view = .done v es ∧ v.Lists (Tied compare) xs := by
  obtain ⟨es, e⟩ := h.exists_acquire
  obtain ⟨v, hv, hl⟩ := hr.exists_view
  exact ⟨v, _, Traced.bind_done e (Traced.liftM_eq_done hv), hl⟩

end Reference

namespace Container
variable [BEq α] {c : Container α} {o : Operand α}

theorem Keeps.exists_view (h : c.Keeps same xs) :
    ∃ v es, c.view = .done v es ∧ v.Lists same xs := by
  cases h with
  | ordered h => exact Holder.exists_view_lists h
  | @sorted s _ h =>
    exact ⟨_, [], rfl, tied_equivalence, h.distinct, rfl, rfl, s.contains, fun _ => rfl,
      fun _ => Reference.isSome_get?_iff⟩
  | @unordered s _ h =>
    refine ⟨_, [], rfl, ⟨fun _ => BEq.rfl, BEq.symm, BEq.trans⟩, h, rfl, rfl, s.contains,
      fun _ => rfl, fun _ => ?_⟩
    simp [UnorderedSet.contains, Covers, List.contains_iff_exists_mem_beq]

theorem Keeps.exists_seen (h : c.Keeps same xs) :
    ∃ has, c.Seen (.of has xs) ∧ ∀ key, has key = true ↔ Covers same xs key := by
  obtain ⟨v, es, e, hl⟩ := h.exists_view
  obtain ⟨has, rfl, hhas⟩ := hl.exists_eq_of
  exact ⟨has, ⟨es, e⟩, hhas⟩

theorem Keeps.distinct (h : c.Keeps same xs) : Distinct same xs := by
  obtain ⟨v, es, -, hl⟩ := h.exists_view
  exact hl.distinct

theorem Keeps.exists_views (h : c.Keeps same xs) (ho : (o.beside c).Keeps same' ys) :
    ∃ a b es, c.views o = .done (a, b) es ∧ a.Lists same xs ∧ b.Lists same' ys := by
  obtain ⟨a, es, e, ha⟩ := h.exists_view
  obtain ⟨b, es', e', hb⟩ := ho.exists_view
  cases o with
  | itself =>
    obtain ⟨rfl, -⟩ := Traced.done.inj (e.symm.trans e')
    exact ⟨a, a, _, Traced.bind_done e rfl, ha, hb⟩
  | other d => exact ⟨a, b, _, Traced.bind_done e (Traced.bind_done e' rfl), ha, hb⟩

end Container

theorem Holder.exists_combine_eq [BEq α] {h : Holder α} {o : Operand α}
    {compare : α → α → Ordering} [Std.TransCmp compare] (hr : h.inner.Refines compare xs)
    (ho : (o.beside (.ordered h)).Keeps same ys) :
    ∃ hasA hasB : α → Bool, (∀ key, hasA key = true ↔ Covers (Tied compare) xs key) ∧
      (∀ key, hasB key = true ↔ Covers same ys key) ∧
      ∀ (kind : Combination) (id : Nat), ∃ c es, h.combine kind id o = .done c es ∧
        c = h.renew c.inner ∧ (h.inner.emptyLike id).Becomes c.inner c.inner.size ∧
          c.inner.Refines compare
            (Reference.insertMany compare (kind.inserted hasA hasB xs ys) []).2 := by
  obtain ⟨hasA, ha, hA⟩ := (Container.Keeps.ordered hr).exists_seen
  obtain ⟨hasB, hb, hB⟩ := ho.exists_seen
  obtain rfl := hr.compare_eq
  exact ⟨hasA, hasB, hA, hB, ha.exists_combine hb⟩

end RedBlack
