import Mathlib.Data.List.Pairwise
import RedBlack.Proofs.OrderedSet.Refinement
import RedBlack.Proofs.Tree.Order

set_option autoImplicit false

namespace RedBlack

section Classes
variable {α : Type} {same : α → α → Prop} {xs ys : List α}

def Covers (same : α → α → Prop) (xs : List α) (key : α) : Prop := ∃ x ∈ xs, same key x

def Distinct (same : α → α → Prop) (xs : List α) : Prop := xs.Pairwise fun x y => ¬ same x y

/-- The equality that a comparator decides. -/
def Tied (compare : α → α → Ordering) (x y : α) : Prop := compare x y = .eq

theorem covers_nil (key : α) : ¬ Covers same [] key := by simp [Covers]

theorem covers_cons {x key : α} : Covers same (x :: xs) key ↔ same key x ∨ Covers same xs key := by
  simp [Covers]

theorem covers_append {key : α} :
    Covers same (xs ++ ys) key ↔ Covers same xs key ∨ Covers same ys key := by
  simp [Covers, or_and_right, exists_or]

theorem Covers.mono {key : α} (h : Covers same xs key) (hs : xs ⊆ ys) : Covers same ys key :=
  h.imp fun _ hx => ⟨hs hx.1, hx.2⟩

theorem covers_congr (he : Equivalence same) {key key' : α} (h : same key key') :
    Covers same xs key ↔ Covers same xs key' :=
  ⟨fun ⟨x, hx, hk⟩ => ⟨x, hx, he.trans (he.symm h) hk⟩, fun ⟨x, hx, hk⟩ => ⟨x, hx, he.trans h hk⟩⟩

theorem Covers.trans (he : Equivalence same) {key : α} (h : Covers same xs key)
    (hs : ∀ x ∈ xs, Covers same ys x) : Covers same ys key := by
  obtain ⟨x, hx, hk⟩ := h
  exact (covers_congr he hk).2 (hs x hx)

theorem covers_filter {key : α} {p : α → Bool} (hp : ∀ x, same key x → p x = p key) :
    Covers same (xs.filter p) key ↔ Covers same xs key ∧ p key = true := by
  constructor
  · rintro ⟨x, hx, hk⟩
    obtain ⟨hmem, hpx⟩ := List.mem_filter.1 hx
    exact ⟨⟨x, hmem, hk⟩, hp x hk ▸ hpx⟩
  · rintro ⟨⟨x, hx, hk⟩, hpk⟩
    exact ⟨x, List.mem_filter.2 ⟨hx, (hp x hk).trans hpk⟩, hk⟩

theorem test_congr (he : Equivalence same) {has : α → Bool}
    (h : ∀ key, has key = true ↔ Covers same xs key) {key key' : α} (hs : same key key') :
    has key' = has key :=
  Bool.eq_iff_iff.2 ((h key').trans ((covers_congr he hs).symm.trans (h key).symm))

theorem Distinct.filter (h : Distinct same xs) (p : α → Bool) : Distinct same (xs.filter p) :=
  List.Pairwise.filter p h

/-- The first of the values that are the same as it. -/
def Leads (same : α → α → Prop) : List α → α → Prop
  | [], _ => False
  | x :: xs, z => z = x ∨ ¬ same z x ∧ Leads same xs z

theorem leads_append {z : α} :
    Leads same (xs ++ ys) z ↔ Leads same xs z ∨ ¬ Covers same xs z ∧ Leads same ys z := by
  induction xs with
  | nil => simp [Leads, covers_nil]
  | cons x xs ih =>
    simp only [List.cons_append, Leads, ih, covers_cons]
    grind

theorem Leads.mem {z : α} (h : Leads same xs z) : z ∈ xs := by
  induction xs with
  | nil => exact h.elim
  | cons x xs ih =>
    rcases h with rfl | ⟨-, h⟩
    · exact List.mem_cons_self ..
    · exact List.mem_cons_of_mem x (ih h)

theorem Distinct.leads_iff (he : Equivalence same) (h : Distinct same xs) {z : α} :
    Leads same xs z ↔ z ∈ xs := by
  refine ⟨Leads.mem, fun hz => ?_⟩
  induction xs with
  | nil => cases hz
  | cons x xs ih =>
    obtain ⟨hx, hxs⟩ := List.pairwise_cons.1 h
    rcases List.mem_cons.1 hz with rfl | hz
    · exact .inl rfl
    · exact .inr ⟨fun hs => hx z hz (he.symm hs), ih hxs hz⟩

theorem Distinct.eq_of_same (he : Equivalence same) (h : Distinct same xs) {x y : α} (hx : x ∈ xs)
    (hy : y ∈ xs) (hs : same x y) : x = y := by
  have hsymm : Std.Symm fun x y => same x y → x = y :=
    ⟨fun _ _ hxy hyx => (hxy (he.symm hyx)).symm⟩
  have hxs : xs.Pairwise fun x y => same x y → x = y :=
    List.Pairwise.imp (fun hn hs => absurd hs hn) h
  exact hxs.forall_of_forall (fun _ _ _ => rfl) hx hy hs

theorem Distinct.covers_filter_iff (he : Equivalence same) (h : Distinct same xs) {x : α}
    (hx : x ∈ xs) {p : α → Bool} : Covers same (xs.filter p) x ↔ p x = true := by
  constructor
  · rintro ⟨y, hy, hxy⟩
    obtain ⟨hmem, hp⟩ := List.mem_filter.1 hy
    exact h.eq_of_same he hx hmem hxy ▸ hp
  · exact fun hp => ⟨x, List.mem_filter.2 ⟨hx, hp⟩, he.refl x⟩

theorem Distinct.perm (he : Equivalence same) (hx : Distinct same xs) (hy : Distinct same ys)
    (h : ∀ z, z ∈ xs ↔ z ∈ ys) : xs.Perm ys := by
  have hn {zs : List α} (hz : Distinct same zs) : zs.Nodup := by
    refine List.Pairwise.imp (fun {x y} hne heq => ?_) hz
    exact hne (heq ▸ he.refl x)
  exact (List.perm_ext_iff_of_nodup (hn hx) (hn hy)).2 h

theorem covers_remove {as bs : List α} {x key : α} (h : Covers same (as ++ x :: bs) key)
    (hn : ¬ same key x) : Covers same (as ++ bs) key := by
  simp only [covers_append, covers_cons] at h ⊢
  exact h.imp_right fun h => h.resolve_left hn

/-- Each value takes one of those that cover it away from the others. -/
theorem Distinct.length_le (he : Equivalence same) (h : Distinct same xs)
    (hc : ∀ x ∈ xs, Covers same ys x) : xs.length ≤ ys.length := by
  induction xs generalizing ys with
  | nil => simp
  | cons x xs ih =>
    obtain ⟨hx, hxs⟩ := List.pairwise_cons.1 h
    obtain ⟨y, hy, hxy⟩ := hc x (List.mem_cons_self ..)
    obtain ⟨as, bs, rfl⟩ := List.append_of_mem hy
    -- No other value is the same as `y`, or it would be the same as `x`: the rest do without it.
    have hrest : ∀ w ∈ xs, Covers same (as ++ bs) w := fun w hw =>
      covers_remove (hc w (List.mem_cons_of_mem x hw)) fun hwy =>
        hx w hw (he.trans hxy (he.symm hwy))
    have hlen := ih hxs hrest
    simp only [List.length_append, List.length_cons] at hlen ⊢
    omega

theorem Distinct.covers_of_length_le (he : Equivalence same) (h : Distinct same ys)
    (hc : ∀ y ∈ ys, Covers same xs y) (hlen : xs.length ≤ ys.length) :
    ∀ x ∈ xs, Covers same ys x := by
  intro x hx
  by_contra hn
  obtain ⟨as, bs, rfl⟩ := List.append_of_mem hx
  have hle := h.length_le he fun y hy => covers_remove (hc y hy) fun hyx => hn ⟨y, hy, he.symm hyx⟩
  simp only [List.length_append, List.length_cons] at hlen hle
  omega

theorem Distinct.length_filter_eq (he : Equivalence same) (hx : Distinct same xs)
    (hy : Distinct same ys) {p q : α → Bool} (hp : ∀ k, p k = true ↔ Covers same ys k)
    (hq : ∀ k, q k = true ↔ Covers same xs k) : (xs.filter p).length = (ys.filter q).length := by
  have hle {xs ys : List α} {p q : α → Bool} (hx : Distinct same xs)
      (hp : ∀ k, p k = true ↔ Covers same ys k) (hq : ∀ k, q k = true ↔ Covers same xs k) :
      (xs.filter p).length ≤ (ys.filter q).length := by
    refine (hx.filter p).length_le he fun x hxp => ?_
    obtain ⟨hmem, hpx⟩ := List.mem_filter.1 hxp
    obtain ⟨y, hymem, hxy⟩ := (hp x).1 hpx
    exact ⟨y, List.mem_filter.2 ⟨hymem, (hq y).2 ⟨x, hmem, he.symm hxy⟩⟩, hxy⟩
  exact Nat.le_antisymm (hle hx hp hq) (hle hy hq hp)

section Comparator
variable {compare : α → α → Ordering}

theorem any_eq_true_iff {key : α} :
    xs.any (compare key · == .eq) = true ↔ Covers (Tied compare) xs key := by
  simp [Covers, Tied]

theorem any_eq_false_iff {key : α} :
    xs.any (compare key · == .eq) = false ↔ ¬ Covers (Tied compare) xs key := by
  rw [← any_eq_true_iff, Bool.not_eq_true]

theorem Ascending.distinct (h : Ascending compare xs) : Distinct (Tied compare) xs :=
  List.Pairwise.imp (fun hlt heq => by rw [Tied, hlt] at heq; cases heq) h

variable [Std.TransCmp compare]

theorem tied_equivalence : Equivalence (Tied compare) where
  refl _ := Std.ReflCmp.compare_self
  symm := Std.OrientedCmp.eq_symm
  trans := Std.TransCmp.eq_trans

theorem Ascending.eq_of_mem_iff (hx : Ascending compare xs) (hy : Ascending compare ys)
    (h : ∀ z, z ∈ xs ↔ z ∈ ys) : xs = ys := by
  have hp := hx.distinct.perm tied_equivalence hy.distinct h
  refine List.Perm.eq_of_pairwise (fun x y _ _ hxy hyx => ?_) hx hy hp
  exact absurd hyx (Std.OrientedCmp.not_lt_of_lt hxy)

end Comparator
end Classes

namespace Reference
variable {α : Type} {compare : α → α → Ordering} {xs vs : List α} {v z key : α}

theorem mem_insert :
    z ∈ (insert compare v xs).2 ↔ z ∈ xs ∨ z = v ∧ ¬ Covers (Tied compare) xs v := by
  unfold insert
  split
  · next h => simp [any_eq_true_iff.1 h]
  · next h =>
    have hm : z ∈ xs ↔ z ∈ xs.takeWhile (compare v · == .gt) ∨
        z ∈ xs.dropWhile (compare v · == .gt) := by
      rw [← List.mem_append, List.takeWhile_append_dropWhile]
    have hc := any_eq_false_iff.1 (Bool.not_eq_true _ ▸ h)
    simp only [List.mem_append, List.mem_cons, hm, hc, not_false_eq_true, and_true]
    exact or_left_comm.trans or_comm

theorem length_insert :
    (insert compare v xs).2.length = xs.length + (insert compare v xs).1.toNat := by
  unfold insert
  split
  · rfl
  · have h := congrArg List.length
      (List.takeWhile_append_dropWhile (p := (compare v · == .gt)) (l := xs))
    simp only [List.length_append, List.length_cons, Bool.toNat_true] at h ⊢
    omega

theorem length_insertMany :
    (insertMany compare vs xs).2.length = xs.length + (insertMany compare vs xs).1 := by
  induction vs generalizing xs with
  | nil => rfl
  | cons v vs ih =>
    simp only [insertMany, ih, length_insert]
    cases (insert compare v xs).1 <;> simp
    omega

section Lawful
variable [Std.TransCmp compare]

theorem covers_insert :
    Covers (Tied compare) (insert compare v xs).2 key ↔
      Covers (Tied compare) xs key ∨ Tied compare key v := by
  by_cases hv : Covers (Tied compare) xs v
  · have h : insert compare v xs = (false, xs) := by rw [insert, if_pos (any_eq_true_iff.2 hv)]
    rw [h]
    refine ⟨.inl, fun h => h.elim id fun hk => ?_⟩
    exact (covers_congr tied_equivalence hk).2 hv
  · simp only [Covers, mem_insert]
    constructor
    · rintro ⟨x, hx | ⟨rfl, -⟩, hk⟩
      · exact .inl ⟨x, hx, hk⟩
      · exact .inr hk
    · rintro (⟨x, hx, hk⟩ | hk)
      · exact ⟨x, .inl hx, hk⟩
      · exact ⟨v, .inr ⟨rfl, hv⟩, hk⟩

theorem mem_insertMany :
    z ∈ (insertMany compare vs xs).2 ↔
      z ∈ xs ∨ ¬ Covers (Tied compare) xs z ∧ Leads (Tied compare) vs z := by
  induction vs generalizing xs with
  | nil => simp [insertMany, Leads]
  | cons v vs ih =>
    simp only [insertMany, ih, mem_insert, covers_insert, Leads]
    grind

theorem covers_insertMany :
    Covers (Tied compare) (insertMany compare vs xs).2 key ↔
      Covers (Tied compare) xs key ∨ Covers (Tied compare) vs key := by
  induction vs generalizing xs with
  | nil => simp [insertMany, covers_nil]
  | cons v vs ih => simp only [insertMany, ih, covers_insert, covers_cons, or_assoc]

theorem isEmpty_insertMany : (insertMany compare vs []).2.isEmpty = vs.isEmpty := by
  cases vs with
  | nil => rfl
  | cons v vs =>
    have hv : v ∈ (insertMany compare (v :: vs) []).2 :=
      mem_insertMany.2 (.inr ⟨covers_nil v, .inl rfl⟩)
    rw [List.isEmpty_cons, List.isEmpty_eq_false_iff_exists_mem]
    exact ⟨v, hv⟩

end Lawful
end Reference

namespace OrderedSet
variable {α : Type} {s : OrderedSet α} {compare : α → α → Ordering} {xs : List α}

theorem refines_empty (id : Nat) (settings : Settings α) :
    (OrderedSet.empty id settings).Refines settings.comparator.compare [] :=
  ⟨rfl, ⟨.nil, represents_empty id settings, rfl⟩, List.Pairwise.nil⟩

theorem Refines.isSound (h : s.Refines compare xs) : s.IsSound :=
  h.represents.imp fun _ ht => ht.1

theorem Refines.exists_insertMany [Std.TransCmp compare] (h : s.Refines compare xs)
    (vs : List α) :
    ∃ s' es, s.insertMany vs = .done ((Reference.insertMany compare vs xs).1, s') es ∧
      s'.Refines compare (Reference.insertMany compare vs xs).2 ∧
      s.Becomes s' (Reference.insertMany compare vs xs).1 := by
  obtain ⟨s', es, e, hr⟩ := h.insertMany vs
  obtain ⟨n, s₁, es₁, e₁, hb, -⟩ := h.isSound.exists_insertMany vs
  rw [e] at e₁
  cases e₁
  exact ⟨s', es, e, hr, hb⟩

theorem exists_refines (compare : α → α → Ordering) [Std.TransCmp compare] (vs : List α) :
    ∃ s : OrderedSet α, s.Refines compare (Reference.insertMany compare vs []).2 := by
  have h : (OrderedSet.empty 0 ⟨⟨"Custom", .custom, compare⟩, none, false⟩).Refines compare [] :=
    refines_empty ..
  obtain ⟨s, -, -, hs, -⟩ := h.exists_insertMany vs
  exact ⟨s, hs⟩

end OrderedSet
end RedBlack
