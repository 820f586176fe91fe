import RedBlack.Proofs.Arena.Comparisons
import RedBlack.Proofs.Arena.Moments
import RedBlack.Proofs.OrderedSet.Reached
import RedBlack.Proofs.Tree.Rotations

/-!
How high the tree of a set can be, what follows for searches and walks, and how often single changes
rotate. Neither the size of the set nor its comparator has a part in the rotations: the colours
alone keep the tree balanced.
-/

set_option autoImplicit false

namespace RedBlack
variable {α : Type}

theorem lt_two_pow_bitLength (n : Nat) : n < 2 ^ bitLength n := by
  by_cases hn : n = 0
  · simp [bitLength, hn]
  · simpa [bitLength, hn] using Nat.lt_log2_self (n := n)

theorem log2_succ_le_bitLength (n : Nat) : (n + 1).log2 ≤ bitLength n := by
  have hpow : 2 ^ (n + 1).log2 ≤ 2 ^ bitLength n :=
    (Nat.log2_self_le (by omega)).trans (lt_two_pow_bitLength n)
  exact (Nat.pow_le_pow_iff_right (by omega)).1 hpow

namespace OrderedSet
variable {s : OrderedSet α}

/-- The tree of a set of `n` values is at most `2 * log2 (n + 1)` nodes high. No search compares
more often than that, and no walk has more nodes on its stack than there is room set aside for. -/
theorem Reached.height (hs : s.Reached) :
    ∃ h, s.tree.HasHeight h ∧ 2 ^ h ≤ (s.size + 1) ^ 2 ∧ h ≤ 2 * (s.size + 1).log2 ∧
      (∀ cut : α → Ordering,
        (∃ l k, (s.tree.lookupM (counted cut)).run 0 = .ok (l, k) ∧
          s.tree.lookup cut = .ok l ∧ k ≤ h) ∧
        ∃ r k, (s.tree.descendM (counted cut)).run 0 = .ok (r, k) ∧
          s.tree.descend cut = .ok r ∧ k ≤ h) ∧
      ∀ d, Walk.Within s.tree d s.tree.stackCapacity := by
  obtain ⟨t, ht⟩ := hs.isSound
  have hsize := ht.size_eq
  have hbalanced := ht.balanced
  obtain ⟨u, hu, rfl⟩ := ht.shows
  have hlog : u.height ≤ 2 * (s.size + 1).log2 := by
    have hle := (Tree.isRedBlack_of_map hbalanced).height_le
    rwa [hsize, Tree.toList_map, List.length_map, Tree.length_toList]
  refine ⟨u.height, hu.hasHeight, ?_, hlog, fun cut => ⟨hu.lookupM cut, hu.descendM cut⟩,
    fun d => ?_⟩
  · calc 2 ^ u.height ≤ 2 ^ (2 * (s.size + 1).log2) := Nat.pow_le_pow_right (by omega) hlog
      _ = (2 ^ (s.size + 1).log2) ^ 2 := by rw [Nat.mul_comm, Nat.pow_mul]
      _ ≤ (s.size + 1) ^ 2 := Nat.pow_le_pow_left (Nat.log2_self_le (by omega)) 2
  · have hw := hu.walk_within d
    refine ⟨hw.start, hw.step, fun stack l hm => ?_⟩
    have hbits := log2_succ_le_bitLength s.size
    have hle := hw.length_le stack l hm
    change stack.length ≤ 2 * bitLength s.size
    omega

/-- A tree of five values is at most four nodes high, and a walk through it needs room for six. -/
theorem Reached.height_lopsidedRun :
    ∃ s es h, lopsidedRun = .done s es ∧ s.tree.HasHeight h ∧ h ≤ 4 ∧
      Walk.Within s.tree .ascending 6 := by
  obtain ⟨s, es, e, hsize⟩ : ∃ s es, lopsidedRun = .done s es ∧ s.size = 5 := ⟨_, _, rfl, rfl⟩
  obtain ⟨h, hh, -, hlog, -, hwalk⟩ := Reached.height (reached_lopsidedRun e)
  have hlog₆ : Nat.log2 6 = 2 := by decide
  have hcapacity : s.tree.stackCapacity = 6 := by
    change 2 * bitLength s.size = 6
    rw [hsize]
    decide
  rw [hsize, hlog₆] at hlog
  exact ⟨s, es, h, e, hh, hlog, hcapacity ▸ hwalk .ascending⟩

end OrderedSet

/-- Events that are rotations, and so many at most. -/
def Rotations (n : Nat) (es : List Event) : Prop :=
  es.length ≤ n ∧ ∀ e ∈ es, e.isRotation = true

namespace Tells
variable {es : List Event} {ts : List (Rotation α)}

theorem bounded {n : Nat} (h : Tells es ts) (hn : ts.length ≤ n) : Rotations n es := by
  obtain ⟨us, rfl, rfl⟩ := h
  rw [List.length_map] at hn
  refine ⟨(List.length_map _).trans_le hn, fun e he => ?_⟩
  obtain ⟨t, -, rfl⟩ := List.mem_map.1 he
  rfl

theorem eq_nil (h : Tells es ts) (ht : ts = []) : es = [] := by
  obtain ⟨us, rfl, rfl⟩ := h
  rw [List.map_eq_nil_iff.1 ht, List.map_nil]

end Tells

namespace Arena
variable {a b : Arena α} {t : Tree α} {q : Path (Nat × α)} {u w : Layout α} {es : List Event}
  {ts : List (Rotation (Nat × α))}

theorem events_rotate {i : Nat} {side : Side} (h : a.rotate i side = .done b es) :
    ∃ n pivot, a.node i = .ok n ∧ n.child side.opposite = some pivot ∧
      es = [.rotated ⟨side, i, pivot⟩] := by
  obtain ⟨n, es₁, es₂, hn, h₁, rfl⟩ := Traced.bind_eq_done_iff.1 h
  obtain ⟨hnode, rfl⟩ := Traced.eq_of_liftM_eq_done hn
  split at h₁
  · cases h₁
  · rename_i pivot hc
    simp only [Traced.bind_eq_done_iff] at h₁
    obtain ⟨_, es₃, _, he, ⟨_, _, _, h₂, ⟨_, _, _, h₃, ⟨_, _, _, h₄, ⟨_, _, _, h₅, ⟨_, _, _, h₆,
      ⟨_, _, _, h₇, h₈, rfl⟩, rfl⟩, rfl⟩, rfl⟩, rfl⟩, rfl⟩, rfl⟩ := h₁
    cases he
    obtain ⟨-, rfl⟩ := Traced.eq_of_liftM_eq_done h₂
    obtain ⟨-, rfl⟩ := Traced.eq_of_liftM_eq_done h₃
    obtain ⟨-, rfl⟩ := Traced.eq_of_liftM_eq_done h₄
    obtain ⟨-, rfl⟩ := Traced.eq_of_liftM_eq_done h₅
    obtain ⟨-, rfl⟩ := Traced.eq_of_liftM_eq_done h₆
    obtain ⟨-, rfl⟩ := Traced.eq_of_liftM_eq_done h₇
    obtain ⟨-, rfl⟩ := Traced.eq_of_liftM_eq_done h₈
    exact ⟨n, pivot, hnode, hc, rfl⟩

/-- A black leaf about to leave is made up for by a repair that climbs from it. For any other node
nothing is reported. -/
theorem Lays.climbs_splice {s : Side} {c : Color} {y : Nat × α}
    (h : a.Lays q (.branch s c .nil y u)) (hw : Path.splice q c u = .done w ts) :
    ∃ n, a.node y.1 = .ok n ∧
      if n.color = .black ∧ n.left = none ∧ n.right = none then
        ∃ b k, Climbs deficitRound 1 k (a, y.1) b (ts.map Rotation.event)
      else ts.map Rotation.event = [] := by
  refine ⟨_, h.node_branch, ?_⟩
  have hleaf : (Node.join s y.2 c (Path.link q) none u.link).left = none ∧
      (Node.join s y.2 c (Path.link q) none u.link).right = none ↔ u.link = none := by
    cases s <;> simp [Node.join]
  simp only [Tree.link_nil, Node.color_join, hleaf]
  cases c with
  | red =>
    cases hw
    rw [if_neg (by simp)]
    rfl
  | black =>
    cases u with
    | node d l x r =>
      cases hw
      rw [if_neg (by simp)]
      rfl
    | nil =>
      obtain ⟨q', ts₁, ts₂, hq, he, rfl⟩ := Traced.bind_eq_done_iff.1 hw
      cases he
      obtain ⟨b, hb, -⟩ := h.climbs_deficitRound (Tree.link_branch ..) hq
      rw [if_pos ⟨rfl, rfl⟩, List.append_nil]
      exact ⟨b, _, hb⟩

theorem Shows.removeNode {i : Nat} (h : a.Shows t) (hb : t.IsRedBlack) (hi : i < a.size) :
    ∃ v a' es, a.removeNode i = .done (v, a') es ∧ Rotations 3 es ∧
      ∃ b j n, a.yield i = .ok (b, j) ∧ b.node j = .ok n ∧
        if n.color = .black ∧ n.left = none ∧ n.right = none then
          ∃ c k, Climbs deficitRound 1 k (b, j) c es
        else es = [] := by
  obtain ⟨u, hu, rfl⟩ := h
  obtain ⟨p, c, l, x, r, rfl, hx, rfl⟩ := hu.exists_at hi
  rw [← Path.map_fill] at hb
  obtain ⟨d, k, hp, ht⟩ := Path.exists_balanced hb
  obtain ⟨w, us, hw, -⟩ := Path.exists_erase hp ht
  obtain ⟨b, q, s, e, y, z, w', ts, a', hy, hz, hs, hts, ha, -⟩ := hx.exists_removal hw
  obtain ⟨n, hn, hc⟩ := hz.climbs_splice hs
  have htells : Tells (ts.map Rotation.event) us := ⟨ts, rfl, hts⟩
  exact ⟨x.2, a', _, ha, htells.bounded (Path.length_erase hw), b, y.1, n, hy, hn, hc⟩

end Arena

namespace OrderedSet
variable {s : OrderedSet α} {t : Tree α}

namespace Represents

theorem rotations_insert (h : s.Represents t) (v : α) :
    ∃ new s' es, s.insert v = .done (new, s') es ∧
      (new = false ∧ es = [] ∨ new = true ∧ Rotations 2 es ∧
        ∃ parent side a k, s.tree.descend (s.compare v) = .ok (some (parent, side)) ∧
          s.tree.attach v parent side = .ok a ∧
            Arena.Climbs Arena.redRound 2 k (a, s.size) s'.tree es) := by
  obtain ⟨r, ts, es, s', hr, ht, hi, -⟩ := h.insert v
  obtain ⟨hn, hnone⟩ := Tree.length_insert? hr
  refine ⟨r.isSome, s', es, hi, ?_⟩
  obtain ⟨u, r', us, hu, hr', rfl, rfl⟩ := h.shows.exists_insert? hr
  cases r' with
  | none => exact .inl ⟨rfl, ht.eq_nil (hnone rfl)⟩
  | some u' =>
    obtain ⟨parent, side, b, a', k, hd, hb, hc, ha, -⟩ := hu.insert_new hr'
    have hs : s' = { s with tree := a' }.touch ∧ es = us.map Rotation.event := by
      simp [OrderedSet.insert, OrderedSet.place, ha, Traced.done_bind, Traced.pure_eq] at hi
      exact ⟨hi.1.symm, hi.2.symm⟩
    obtain ⟨rfl, rfl⟩ := hs
    exact .inr ⟨rfl, ht.bounded hn, parent, side, b, k, hd, hb, hc⟩

theorem rotations_take (h : s.Represents t) (key : α) :
    ∃ found s' es, s.take key = .done (found, s') es ∧
      s.remove key = .done (found.isSome, s') es ∧ Rotations 3 es ∧ (found = none → es = []) := by
  obtain ⟨r, ts, es, s', hr, ht, hk, -⟩ := h.take key
  obtain ⟨hn, hnone⟩ := Tree.length_take? hr
  refine ⟨r.map Prod.fst, s', es, hk, ?_, ht.bounded hn,
    fun hf => ht.eq_nil (hnone (Option.map_eq_none_iff.1 hf))⟩
  simp [OrderedSet.remove, hk, Traced.done_bind, Traced.pure_eq]

theorem rotations_pop (h : s.Represents t) (side : Side) :
    ∃ found s' es, s.pop side = .done (found, s') es ∧ Rotations 3 es ∧
      (found = none → es = []) := by
  obtain ⟨r, ts, es, s', hr, ht, hp, -⟩ := h.pop side
  obtain ⟨hn, hnone⟩ := Tree.length_takeExtreme? hr
  exact ⟨r.map Prod.fst, s', es, hp, ht.bounded hn,
    fun hf => ht.eq_nil (hnone (Option.map_eq_none_iff.1 hf))⟩

end Represents

/-- An insertion rotates twice at most and a removal three times, and neither reports anything else;
one that changes nothing does not rotate. A rotation is reported by the two nodes it moves. The
repair of an insertion climbs two levels at a time from the new leaf, and that of a removal one
level at a time from the black leaf that is to leave. -/
theorem Reached.rotations (h : s.Reached) :
    (∀ (a b : Arena α) (i : Nat) (side : Side) (es : List Event),
      a.rotate i side = .done b es → ∃ n pivot, a.node i = .ok n ∧
        n.child side.opposite = some pivot ∧ es = [.rotated ⟨side, i, pivot⟩]) ∧
    (∀ v, ∃ new s' es, s.insert v = .done (new, s') es ∧
      (new = false ∧ es = [] ∨ new = true ∧ Rotations 2 es ∧
        ∃ parent side a k, s.tree.descend (s.compare v) = .ok (some (parent, side)) ∧
          s.tree.attach v parent side = .ok a ∧
            Arena.Climbs Arena.redRound 2 k (a, s.size) s'.tree es)) ∧
    (∀ key, ∃ found s' es, s.take key = .done (found, s') es ∧
      s.remove key = .done (found.isSome, s') es ∧ Rotations 3 es ∧ (found = none → es = [])) ∧
    (∀ side, ∃ found s' es, s.pop side = .done (found, s') es ∧ Rotations 3 es ∧
      (found = none → es = [])) ∧
    ∀ i < s.size, ∃ v s' es, s.removeAt i = .done (v, s') es ∧ Rotations 3 es ∧
      ∃ a j n, s.tree.yield i = .ok (a, j) ∧ a.node j = .ok n ∧
        if n.color = .black ∧ n.left = none ∧ n.right = none then
          ∃ b k, Arena.Climbs Arena.deficitRound 1 k (a, j) b es
        else es = [] := by
  obtain ⟨t, ht⟩ := h.isSound
  refine ⟨fun a b i side es => Arena.events_rotate, ht.rotations_insert, ht.rotations_take,
    ht.rotations_pop, fun i hi => ?_⟩
  obtain ⟨v, a, es, ha, hn, hc⟩ := ht.shows.removeNode ht.balanced hi
  refine ⟨v, { s with tree := a }.touch, es, ?_, hn, hc⟩
  simp [OrderedSet.removeAt, ha, Traced.done_bind, Traced.pure_eq]

/-- Numbers in a tree whose first one is a black leaf with a red sibling. -/
def steepRun : Traced Event (OrderedSet Element) :=
  filled ⟨.natural Element, none, false⟩ [.int 1, .int 2, .int 4, .int 6, .int 8, .int 3]

/-- The three rotations of a removal are one for the red sibling and two for a red nephew on the
inside. A number that is there already is not inserted, without a rotation. -/
theorem Reached.rotations_steepRun :
    ∃ s es s' es', steepRun = .done s es ∧ s.take (.int 1) = .done (some (.int 1), s') es' ∧
      es' = [.rotated ⟨.left, 1, 3⟩, .rotated ⟨.right, 2, 5⟩, .rotated ⟨.left, 1, 5⟩] ∧
        Rotations 3 es' ∧
        ∃ s'', s.insert (.int 4) = .done (false, s'') [] := by
  obtain ⟨s, es, s', e, ht⟩ : ∃ s es s', steepRun = .done s es ∧
      s.take (.int 1) = .done (some (.int 1), s')
        [.rotated ⟨.left, 1, 3⟩, .rotated ⟨.right, 2, 5⟩, .rotated ⟨.left, 1, 5⟩] :=
    ⟨_, _, _, rfl, rfl⟩
  obtain ⟨s₀, es₀, s₁, es₁, e₀, hi⟩ : ∃ s es s' es', steepRun = .done s es ∧
      s.insert (.int 4) = .done (false, s') es' := ⟨_, _, _, _, rfl, rfl⟩
  cases e.symm.trans e₀
  obtain ⟨-, hinsert, htake, -⟩ := Reached.rotations (reached_filled e)
  obtain ⟨_, _, _, ht', -, hthree, -⟩ := htake (.int 1)
  cases ht.symm.trans ht'
  obtain ⟨_, _, _, hi', hnone⟩ := hinsert (.int 4)
  cases hi.symm.trans hi'
  obtain ⟨-, rfl⟩ | ⟨⟨⟩, -⟩ := hnone
  exact ⟨s, es, s', _, e, ht, rfl, hthree, s₁, hi⟩

end OrderedSet
end RedBlack
