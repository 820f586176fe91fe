import RedBlack.Proofs.Arena.Walk
import RedBlack.Proofs.Tree.Height

set_option autoImplicit false

namespace RedBlack
variable {α : Type}

theorem Side.opposite_ne (s : Side) : s.opposite ≠ s := by
  cases s <;> nofun

/-- The indices of the nodes above a hole that have it on the given side. -/
def Path.pending (side : Side) : Path (Nat × α) → List Nat
  | [] => []
  | f :: p => if f.side = side then f.value.1 :: Path.pending side p else Path.pending side p

theorem Path.length_pending_le (side : Side) (p : Path (Nat × α)) :
    (Path.pending side p).length ≤ p.length := by
  induction p with
  | nil => exact Nat.le_refl 0
  | cons f p ih =>
    by_cases hf : f.side = side
    · simp [pending, hf, ih]
    · simp [pending, hf]
      omega

theorem Path.exists_of_pending {side : Side} {p : Path (Nat × α)} {i : Nat} {stack : List Nat}
    (h : Path.pending side p = i :: stack) (t : Layout α) :
    ∃ q c x near far, Path.fill p t = Path.fill q (.branch side c near x far) ∧ x.1 = i ∧
      Path.pending side q = stack := by
  induction p generalizing t with
  | nil => cases h
  | cons f p ih =>
    by_cases hf : f.side = side
    · subst hf
      simp only [pending, if_pos] at h
      obtain ⟨rfl, rfl⟩ := List.cons.inj h
      exact ⟨p, f.color, f.value, t, f.sibling, rfl, rfl, rfl⟩
    · simp only [pending, if_neg hf] at h
      exact ih h (f.plug t)

theorem Arena.Lays.exists_stacked {a : Arena α} {p : Path (Nat × α)} {t : Layout α}
    (h : a.Lays p t) (side : Side) : ∃ xs, a.Stacked side (Path.pending side p) xs := by
  induction p generalizing t with
  | nil => exact ⟨[], .nil⟩
  | cons f p ih =>
    have hf := lays_cons.1 h
    obtain ⟨xs, hs⟩ := ih hf
    by_cases hside : f.side = side
    · subst hside
      rw [Path.pending, if_pos rfl]
      exact ⟨_, .cons hf hs⟩
    · rw [Path.pending, if_neg hside]
      exact ⟨xs, hs⟩

/-- The moments of a walk: its stack, and the link down from which it goes on to push. A walk starts
at the root, and at the end of each spine it takes the next node off the stack and turns to its far
side. -/
inductive Walk.Moment (a : Arena α) (d : Direction) : List Nat × Link → Prop
  | start : Moment a d ([], a.root)
  | push {m m' : List Nat × Link} :
    Moment a d m → a.spineRound d.firstSide m = .ok (.again m') → Moment a d m'
  | pop {i : Nat} {stack : List Nat} {n : Node α} :
    Moment a d (i :: stack, none) → a.node i = .ok n →
      Moment a d (stack, n.child d.firstSide.opposite)

namespace Walk.Moment
variable {a : Arena α} {d : Direction} {m : List Nat × Link} {stack : List Nat} {l : Link}
  {u : Layout α}

/-- At every moment the pending nodes are on the stack, and the walk is at a place of the tree. -/
theorem exists_pending (hm : Moment a d m) (h : a.Lays [] u) :
    ∃ p t, Path.fill p t = u ∧ m = (Path.pending d.firstSide p, t.link) := by
  induction hm with
  | start =>
    have hr : a.root = u.link := Arena.Holds.root_eq h
    exact ⟨[], u, rfl, by rw [hr]; rfl⟩
  | push _ hround ih =>
    obtain ⟨p, t, hu, rfl⟩ := ih
    cases hl : t.link with
    | none =>
      rw [hl] at hround
      cases hround
    | some i =>
      obtain ⟨c, near, x, far, rfl⟩ := Tree.exists_branch d.firstSide hl
      rw [Tree.link_branch] at hround
      have hx := (Arena.lays_fill.1 (hu ▸ h)).node_branch
      simp only [Arena.spineRound, hx, ok_bind, Node.child_join_self] at hround
      cases hround
      exact ⟨⟨d.firstSide, c, x, far⟩ :: p, near, hu, by simp [Path.pending]⟩
  | @pop i stack n _ hn ih =>
    obtain ⟨p, t, hu, hm⟩ := ih
    obtain ⟨hstack, -⟩ := Prod.mk.inj hm
    obtain ⟨q, c, x, near, far, hfill, rfl, rfl⟩ := Path.exists_of_pending hstack.symm t
    have hx := (Arena.lays_fill.1 (hfill ▸ hu ▸ h)).node_branch
    cases hn.symm.trans hx
    refine ⟨⟨d.firstSide.opposite, c, x, near⟩ :: q, far, ?_, ?_⟩
    · rw [← hu, hfill]
      cases d.firstSide <;> rfl
    · rw [Node.child_join_opposite, Path.pending, if_neg (Side.opposite_ne _)]

theorem exists_node {i : Nat} (hm : Moment a d (i :: stack, l)) (h : a.Lays [] u) :
    ∃ n, a.node i = .ok n := by
  obtain ⟨p, t, rfl, hpt⟩ := hm.exists_pending h
  obtain ⟨hstack, -⟩ := Prod.mk.inj hpt
  obtain ⟨q, c, x, near, far, hfill, rfl, -⟩ := Path.exists_of_pending hstack.symm t
  exact ⟨_, (Arena.lays_fill.1 (hfill ▸ h)).node_branch⟩

theorem length_le (hm : Moment a d (stack, l)) (h : a.Lays [] u) : stack.length ≤ u.height := by
  obtain ⟨p, t, rfl, hm⟩ := hm.exists_pending h
  obtain ⟨rfl, -⟩ := Prod.mk.inj hm
  have hp := Path.length_pending_le d.firstSide p
  have hh := Path.length_add_height_le p t
  omega

theorem loop_spineRound {n : Nat} (hm : Moment a d m)
    (hl : loop (a.spineRound d.firstSide) n m = .ok stack) : Moment a d (stack, none) := by
  induction n generalizing m with
  | zero => cases hl
  | succ n ih =>
    obtain ⟨rest, l⟩ := m
    cases hround : a.spineRound d.firstSide (rest, l) with
    | error e =>
      simp only [loop, hround] at hl
      cases hl
    | ok r =>
      obtain m' | b := r
      · rw [loop_again n hround] at hl
        exact ih (hm.push hround) hl
      · rw [loop_over n hround] at hl
        cases hl
        cases l with
        | none =>
          cases hround
          exact hm
        | some i => cases hn : a.node i <;> simp [Arena.spineRound, hn] at hround

theorem exists_pushSpine (hm : Moment a d (stack, l)) (h : a.Lays [] u) :
    ∃ stack', a.pushSpine d.firstSide stack l = .ok stack' ∧ Moment a d (stack', none) := by
  obtain ⟨p, t, rfl, hpt⟩ := hm.exists_pending h
  obtain ⟨rfl, rfl⟩ := Prod.mk.inj hpt
  have ht : a.Lays p t := Arena.lays_fill.1 h
  obtain ⟨xs, hs⟩ := ht.exists_stacked d.firstSide
  obtain ⟨stack', hp, -⟩ := ht.pushSpine hs
  exact ⟨stack', hp, loop_spineRound hm hp⟩

end Walk.Moment

/-- Walks in this direction are never at a loss, and their stacks hold so many nodes at most. -/
structure Walk.Within (a : Arena α) (d : Direction) (n : Nat) : Prop where
  start : ∃ w, Walk.start a d = .ok w ∧ w.direction = d ∧ Moment a d (w.stack, none)
  step (w : Walk) : w.direction = d → Moment a d (w.stack, none) →
    ∃ r, w.step a = .ok r ∧ ∀ i w', r = some (i, w') →
      w'.direction = d ∧ Moment a d (w'.stack, none)
  length_le (stack : List Nat) (l : Link) : Moment a d (stack, l) → stack.length ≤ n

theorem Arena.Lays.walk_within {a : Arena α} {u : Layout α} (h : a.Lays [] u) (d : Direction) :
    Walk.Within a d u.height where
  start := by
    obtain ⟨stack, hp, hm⟩ := Walk.Moment.start.exists_pushSpine h (d := d)
    exact ⟨⟨d, stack⟩, by simp only [Walk.start, hp, ok_bind]; rfl, rfl, hm⟩
  step := by
    rintro ⟨d, stack⟩ rfl hm
    cases stack with
    | nil => exact ⟨none, rfl, by simp⟩
    | cons i rest =>
      obtain ⟨n, hn⟩ := hm.exists_node h
      obtain ⟨stack, hp, hm'⟩ := (hm.pop hn).exists_pushSpine h
      refine ⟨some (i, ⟨d, stack⟩), ?_, ?_⟩
      · simp only [Walk.step, hn, ok_bind, hp]
        rfl
      · rintro _ _ ⟨⟩
        exact ⟨rfl, hm'⟩
  length_le stack l hm := hm.length_le h

end RedBlack
