import RedBlack.Element.Comparators
import RedBlack.Element.Condition
import RedBlack.Proofs.Operand
import RedBlack.Workspace.Session

set_option autoImplicit false

namespace RedBlack
variable {α : Type}

namespace Combination
variable {same : α → α → Prop} {xs ys : List α} {hasA hasB : α → Bool} {z : α}

/-- The values of a combination. In a union the left operand stands for what both have, in an
intersection the one that is scanned. -/
def Chooses (kind : Combination) (same : α → α → Prop) (xs ys : List α) (z : α) : Prop :=
  match kind with
  | .union => z ∈ xs ∨ z ∈ ys ∧ ¬ Covers same xs z
  | .intersection =>
    if ys.length < xs.length then z ∈ ys ∧ Covers same xs z else z ∈ xs ∧ Covers same ys z
  | .difference => z ∈ xs ∧ ¬ Covers same ys z
  | .symmetricDifference => z ∈ xs ∧ ¬ Covers same ys z ∨ z ∈ ys ∧ ¬ Covers same xs z

def Has (kind : Combination) (left right : Prop) : Prop :=
  match kind with
  | .union => left ∨ right
  | .intersection => left ∧ right
  | .difference => left ∧ ¬ right
  | .symmetricDifference => left ∧ ¬ right ∨ right ∧ ¬ left

section Operands
variable (he : Equivalence same) (hx : Distinct same xs) (hy : Distinct same ys)
  (hA : ∀ key, hasA key = true ↔ Covers same xs key)
  (hB : ∀ key, hasB key = true ↔ Covers same ys key)
include he hx hy hA hB

theorem leads_inserted (kind : Combination) :
    Leads same (kind.inserted hasA hasB xs ys) z ↔ kind.Chooses same xs ys z := by
  have hnA (k : α) : (!hasA k) = true ↔ ¬ Covers same xs k := by simp [← hA]
  have hnB (k : α) : (!hasB k) = true ↔ ¬ Covers same ys k := by simp [← hB]
  cases kind with
  | union =>
    simp only [inserted, Chooses, leads_append, hx.leads_iff he, hy.leads_iff he]
    exact or_congr_right and_comm
  | intersection =>
    simp only [inserted, Chooses]
    split
    · rw [(hy.filter hasA).leads_iff he, List.mem_filter, hA]
    · rw [(hx.filter hasB).leads_iff he, List.mem_filter, hB]
  | difference =>
    rw [inserted, Chooses, (hx.filter _).leads_iff he, List.mem_filter, hnB]
  | symmetricDifference =>
    rw [inserted, Chooses, leads_append, (hx.filter _).leads_iff he, (hy.filter _).leads_iff he,
      List.mem_filter, List.mem_filter, hnA, hnB]
    refine or_congr_right (and_iff_right_of_imp fun hz hc => hz.2 (hc.mono ?_))
    exact List.filter_sublist.subset

omit hx hy in
theorem covers_inserted (kind : Combination) (key : α) :
    Covers same (kind.inserted hasA hasB xs ys) key ↔
      kind.Has (Covers same xs key) (Covers same ys key) := by
  have hnA (x : α) (h : same key x) : (!hasA x) = !hasA key := by rw [test_congr he hA h]
  have hnB (x : α) (h : same key x) : (!hasB x) = !hasB key := by rw [test_congr he hB h]
  cases kind with
  | union => exact covers_append
  | intersection =>
    simp only [inserted, Has]
    split
    · rw [covers_filter fun _ => test_congr he hA, hA, and_comm]
    · rw [covers_filter fun _ => test_congr he hB, hB]
  | difference => simp [inserted, Has, covers_filter hnB, ← hB]
  | symmetricDifference =>
    simp [inserted, Has, covers_append, covers_filter hnA, covers_filter hnB, ← hA, ← hB]

theorem length_union_add_length_intersection {us is : List α} (hu : Distinct same us)
    (hi : Distinct same is) (hus : ∀ z, z ∈ us ↔ Chooses .union same xs ys z)
    (his : ∀ z, z ∈ is ↔ Chooses .intersection same xs ys z) :
    us.length + is.length = xs.length + ys.length := by
  have hul : us.length = (xs ++ ys.filter fun v => !hasA v).length := by
    refine (hu.perm he ?_ fun z => ?_).length_eq
    · refine List.pairwise_append.2 ⟨hx, hy.filter _, fun x hxm y hym hxy => ?_⟩
      have hcov : Covers same xs y := ⟨x, hxm, he.symm hxy⟩
      simp [(hA y).2 hcov] at hym
    · simp [hus, Chooses, ← hA]
  have hil : is.length = (ys.filter hasA).length := by
    by_cases hlt : ys.length < xs.length
    · refine (hi.perm he (hy.filter hasA) fun z => ?_).length_eq
      simp [his, Chooses, hlt, hA]
    · rw [← hx.length_filter_eq he hy hB hA]
      refine (hi.perm he (hx.filter hasB) fun z => ?_).length_eq
      simp [his, Chooses, hlt, hB]
  have hsplit := List.length_eq_length_filter_add (l := ys) hasA
  rw [List.length_append] at hul
  omega

end Operands
end Combination

/-- A combination of the ordered set in a holder, which lists `xs`, with another that lists `ys` up
to the same equality. It lists `zs`. -/
structure Holder.Combines (a : Holder α) (kind : Combination) (compare : α → α → Ordering)
    (xs ys : List α) (c : Holder α) (zs : List α) : Prop where
  holder_eq : c = a.renew c.inner
  settings_eq : c.inner.settings = a.inner.settings
  version_eq : c.inner.version = c.inner.size
  refines : c.inner.Refines compare zs
  mem_iff (z : α) : z ∈ zs ↔ kind.Chooses (Tied compare) xs ys z
  covers_iff (key : α) : Covers (Tied compare) zs key ↔
    kind.Has (Covers (Tied compare) xs key) (Covers (Tied compare) ys key)

section Combine
variable [BEq α] {a b : Holder α} {o : Operand α} {compare : α → α → Ordering}
  [Std.TransCmp compare] {xs ys : List α}

theorem Holder.exists_combines (ha : a.inner.Refines compare xs)
    (hb : (o.beside (.ordered a)).Keeps (Tied compare) ys) (kind : Combination) (id : Nat) :
    ∃ c es zs, a.combine kind id o = .done c es ∧ a.Combines kind compare xs ys c zs := by
  obtain ⟨hasA, hasB, hA, hB, hc⟩ := Holder.exists_combine_eq ha hb
  obtain ⟨c, es, e, hc', hn, hr⟩ := hc kind id
  have hmem (z : α) : z ∈ (Reference.insertMany compare (kind.inserted hasA hasB xs ys) []).2 ↔
      kind.Chooses (Tied compare) xs ys z := by
    rw [Reference.mem_insertMany, Combination.leads_inserted tied_equivalence ha.ascending.distinct
      hb.distinct hA hB]
    simp [covers_nil]
  refine ⟨c, es, _, e, hc', hn.settings_eq, ?_, hr, hmem, ?_⟩
  · rw [hn.version_eq]
    exact Nat.zero_add _
  · intro key
    rw [Reference.covers_insertMany, Combination.covers_inserted tied_equivalence hA hB]
    simp [covers_nil]

end Combine

theorem Workspace.exists_plain_of_alike {a b : Container α}
    (h : (Workspace.alike? a b).isSome = true) :
    ∃ s t, a = .ordered (.plain s) ∧ b = .ordered (.plain t) ∧
      s.settings.comparator.family = t.settings.comparator.family := by
  rcases a with (s | s) | _ | _ <;> rcases b with (t | t) | _ | _ <;>
    simp [Workspace.alike?, Container.plain?] at h ⊢
  exact h

theorem Workspace.withAlike_operate {π : Type} [BEq α] [Ord α] [Render α] [Predicate π α]
    {w : Workspace α π} {detail : Detail} {target : Option String} {kind : Combination}
    {s t u : OrderedSet α} {o : Operand α} (hs : s.IsSound) (ht : t.IsSound)
    (ho : o.beside (.ordered (.plain s)) = .ordered (.plain t))
    (hfamily : s.settings.comparator.family = t.settings.comparator.family) :
    w.withAlike (.ordered (.plain s)) (o.beside (.ordered (.plain s)))
        (fun s t => do w.collect detail target (.plain (← s.operate t kind w.nextId))) =
      w.combine detail (.plain s) target kind (.ordered (.plain u)) o := by
  simp [Workspace.withAlike, ho, Workspace.alike?, Container.plain?, hfamily, Workspace.combine,
    Container.isUnordered, Holder.combine_plain hs ht ho]

/-- Combinations of two ordered sets, which may be one and the same. Each is done, is of the kind
and the settings of the left operand, has been changed once for every value, and lists in the order
of the left operand's comparator the values that it should. The operators make the same sets, and to
ask for one is to ask for the combination. -/
theorem Holder.combine_chooses {π : Type} [BEq α] [Ord α] [Render α] [Predicate π α]
    {a b : Holder α} {o : Operand α} {compare compare' : α → α → Ordering}
    [Std.TransCmp compare] [Std.TransCmp compare'] {xs ys : List α}
    (ha : a.inner.Refines compare xs) (hb : b.inner.Refines compare' ys)
    (ho : o.beside (.ordered a) = .ordered b)
    (agree : ∀ x y, compare x y = .eq ↔ compare' x y = .eq) :
    (∀ kind id, ∃ c es zs, a.combine kind id o = .done c es ∧
        a.Combines kind compare xs ys c zs ∧
          (kind = .difference → zs = xs.filter fun x => !ys.any (compare x · == .eq))) ∧
      (∀ id id' u i es es', a.combine .union id o = .done u es →
        a.combine .intersection id' o = .done i es' →
          u.inner.size + i.inner.size = a.inner.size + b.inner.size) ∧
      (∀ s t id, a = .plain s → b = .plain t →
        a.combine .union id o = Holder.plain <$> (s ||| t) id ∧
          a.combine .intersection id o = Holder.plain <$> (s &&& t) id ∧
            a.combine .difference id o = Holder.plain <$> (s - t) id ∧
              a.combine .symmetricDifference id o = Holder.plain <$> (s ^^^ t) id) ∧
      ∀ (w : Workspace α π) (detail : Detail) (name other : String) (target : Option String)
        (kind : Combination), w.sets.get? other = some (.ordered b) →
          (Workspace.alike? (.ordered a) (.ordered b)).isSome = true →
            w.onSet detail name target (some other) (.ordered a) (.operator kind) =
              w.onSet detail name target (some other) (.ordered a) (.combine (some kind)) := by
  have htied : Tied compare' = Tied compare := by
    funext x y
    exact propext (agree x y).symm
  have hkeeps := Container.Keeps.ordered hb
  rw [← ho, htied] at hkeeps
  have hc := Holder.exists_combines ha hkeeps
  refine ⟨fun kind id => ?_, fun id id' u i es es' hu hi => ?_, ?_, ?_⟩
  · obtain ⟨c, es, zs, e, h⟩ := hc kind id
    refine ⟨c, es, zs, e, h, ?_⟩
    rintro rfl
    refine h.refines.ascending.eq_of_mem_iff (List.Pairwise.filter _ ha.ascending) fun z => ?_
    simp only [h.mem_iff, Combination.Chooses, List.mem_filter, ← any_eq_true_iff]
    simp
  · obtain ⟨c, _, us, e, h⟩ := hc .union id
    rw [hu] at e
    cases e
    obtain ⟨c, _, is, e, h'⟩ := hc .intersection id'
    rw [hi] at e
    cases e
    rw [h.refines.size_eq, h'.refines.size_eq, ha.size_eq, hb.size_eq]
    exact Combination.length_union_add_length_intersection tied_equivalence ha.ascending.distinct
      hkeeps.distinct (fun _ => any_eq_true_iff) (fun _ => any_eq_true_iff)
      h.refines.ascending.distinct h'.refines.ascending.distinct h.mem_iff h'.mem_iff
  · rintro s t id rfl rfl
    have he (kind : Combination) := Holder.combine_plain ha.isSound hb.isSound ho kind id
    exact ⟨he .union, he .intersection, he .difference, he .symmetricDifference⟩
  · intro w detail name other target kind hother halike
    obtain ⟨s, t, hs, ht, hfamily⟩ := Workspace.exists_plain_of_alike halike
    cases hs
    cases ht
    simp only [Workspace.onSet, Workspace.withOperand, Workspace.withSet, hother,
      Workspace.withHolder, Container.holder?, Workspace.withPart]
    split
    · exact Workspace.withAlike_operate ha.isSound ha.isSound rfl rfl
    · exact Workspace.withAlike_operate ha.isSound hb.isSound rfl hfamily

theorem Holder.combine_chooses_abs :
    ∃ (a b c : Holder Element) (es : List Event),
      a.inner.Refines Element.byAbs [.int (-1), .int 2, .int 3] ∧
        b.inner.Refines (fun x y => Element.byAbs y x) [.int (-3), .int 1] ∧
          a.combine .intersection 2 (.other (.ordered b)) = .done c es ∧
            c.inner.Refines Element.byAbs [.int 1, .int (-3)] := by
  obtain ⟨s, ha⟩ := OrderedSet.exists_refines Element.byAbs
    [.int 3, .int (-1), .int 2, .int 1]
  obtain ⟨t, hb⟩ := OrderedSet.exists_refines (fun x y => Element.byAbs y x) [.int 1, .int (-3)]
  obtain ⟨hc, -⟩ := Holder.combine_chooses (π := Condition) (a := .plain s)
    (b := .shared (.share t)) (o := .other (.ordered (.shared (.share t)))) ha hb rfl
    fun _ _ => Std.OrientedCmp.eq_comm
  obtain ⟨c, es, zs, e, h, -⟩ := hc .intersection 2
  refine ⟨.plain s, .shared (.share t), c, es, ha, hb, e, ?_⟩
  have hcov : ∀ z ∈ [Element.int (-3), .int 1],
      Covers (Tied Element.byAbs) [.int (-1), .int 2, .int 3] z := by
    simp only [Covers, Tied]
    decide
  have hzs : zs = [.int 1, .int (-3)] := by
    refine h.refines.ascending.eq_of_mem_iff (by simp only [Ascending]; decide) fun z => ?_
    refine (h.mem_iff z).trans ((and_iff_left_of_imp (hcov z)).trans ?_)
    exact List.Perm.mem_iff (by decide)
  exact hzs ▸ h.refines

end RedBlack
