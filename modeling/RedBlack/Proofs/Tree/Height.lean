import Mathlib.Algebra.Group.Nat.Defs
import RedBlack.Tree.Balance

set_option autoImplicit false

namespace RedBlack
variable {α : Type}

namespace Tree

def comparisons (cut : α → Ordering) : Tree α → Nat
  | nil => 0
  | node _ l v r =>
    match cut v with
    | .lt => l.comparisons cut + 1
    | .gt => r.comparisons cut + 1
    | .eq => 1

theorem comparisons_le_height (cut : α → Ordering) (t : Tree α) : t.comparisons cut ≤ t.height := by
  induction t with
  | nil => exact Nat.le_refl 0
  | node c l v r hl hr =>
    simp only [comparisons, height]
    cases cut v with
    | lt => simp only; omega
    | gt => simp only; omega
    | eq => simp only; omega

namespace Balanced
variable {t : Tree α} {c : Color} {n : Nat}

theorem two_pow_le (h : t.Balanced c n) : 2 ^ n ≤ t.count + 1 := by
  induction h with
  | nil => simp [count]
  | red _ _ hl hr => simp only [count]; omega
  | black _ _ hl hr => simp only [count, Nat.pow_succ]; omega

theorem height_le (h : t.Balanced c n) :
    t.height ≤ 2 * n + match c with
      | .red => 1
      | .black => 0 := by
  induction h with
  | nil => simp [height]
  | red _ _ hl hr =>
    simp only [height] at hl hr ⊢
    omega
  | @black l r v c d n _ _ hl hr =>
    have hc : l.height ≤ 2 * n + 1 := by cases c <;> simp only at hl <;> omega
    have hd : r.height ≤ 2 * n + 1 := by cases d <;> simp only at hr <;> omega
    simp only [height]
    omega

end Balanced

theorem IsRedBlack.height_le {t : Tree α} (h : t.IsRedBlack) :
    t.height ≤ 2 * (t.count + 1).log2 := by
  obtain ⟨n, hn⟩ := h
  have hpow := hn.two_pow_le
  have hheight := hn.height_le
  have hlog : n ≤ (t.count + 1).log2 := (Nat.le_log2 (by omega)).2 hpow
  simp only at hheight
  omega

end Tree

theorem Frame.height_lt_plug (f : Frame α) (t : Tree α) : t.height < (f.plug t).height := by
  rw [Frame.plug, Tree.height_branch]
  omega

theorem Path.length_add_height_le (p : Path α) (t : Tree α) :
    p.length + t.height ≤ (Path.fill p t).height := by
  induction p generalizing t with
  | nil => simp
  | cons f p ih =>
    have hp := ih (f.plug t)
    have hf := f.height_lt_plug t
    simp only [List.length_cons, Path.fill_cons]
    omega

def Color.blackness : Color → Nat
  | .red => 0
  | .black => 1

/-- Every way down to an empty subtree crosses so many black nodes. -/
def Tree.HasBlackHeight : Tree α → Nat → Prop
  | .nil, m => m = 0
  | .node c l _ r, m => ∃ n, l.HasBlackHeight n ∧ r.HasBlackHeight n ∧ m = n + c.blackness

/-- The repair of a red pair in the hole comes to the root: every parent on the way there is red,
and every uncle lends its colour. -/
def Path.surfaces : Path α → Bool
  | [] => true
  | [_] => false
  | f :: g :: p => f.color = .red && g.sibling.isRed && surfaces p

variable {p : Path α} {t u : Tree α} {c : Color} {n m : Nat} {es : List (Rotation α)}

theorem Tree.hasBlackHeight_branch {s : Side} {v : α} :
    (Tree.branch s c t v u).HasBlackHeight m ↔
      ∃ n, t.HasBlackHeight n ∧ u.HasBlackHeight n ∧ m = n + c.blackness := by
  cases s
  · rfl
  · simp only [Tree.branch, Tree.HasBlackHeight, and_left_comm]

theorem Tree.HasBlackHeight.plug (h : t.HasBlackHeight n) {f : Frame α}
    (hf : f.sibling.HasBlackHeight n) : (f.plug t).HasBlackHeight (n + f.color.blackness) :=
  Tree.hasBlackHeight_branch.2 ⟨n, h, hf, rfl⟩

theorem Tree.Balanced.hasBlackHeight (h : t.Balanced c n) : t.HasBlackHeight n := by
  induction h with
  | nil => rfl
  | red _ _ hl hr => exact ⟨_, hl, hr, rfl⟩
  | black _ _ hl hr => exact ⟨_, hl, hr, rfl⟩

theorem Tree.HasBlackHeight.unique (h : t.HasBlackHeight n) (h' : t.HasBlackHeight m) : n = m := by
  induction t generalizing n m with
  | nil => exact Eq.trans h (Eq.symm h')
  | node c l v r hl _ =>
    obtain ⟨k, hk, -, rfl⟩ := h
    obtain ⟨k', hk', -, rfl⟩ := h'
    rw [hl hk hk']

theorem Path.exists_hasBlackHeight (h : (Path.fill p t).HasBlackHeight m) :
    ∃ n, t.HasBlackHeight n ∧ ∀ u, u.HasBlackHeight n → (Path.fill p u).HasBlackHeight m := by
  induction p generalizing t with
  | nil => exact ⟨m, h, fun u hu => hu⟩
  | cons f p ih =>
    obtain ⟨k, hk, hfill⟩ := ih h
    obtain ⟨n, hn, hs, rfl⟩ := Tree.hasBlackHeight_branch.1 hk
    exact ⟨n, hn, fun u hu => hfill _ (Tree.hasBlackHeight_branch.2 ⟨n, hu, hs, rfl⟩)⟩

theorem Path.hasBlackHeight_fill (h : (Path.fill p t).HasBlackHeight m) (ht : t.HasBlackHeight n)
    (hu : u.HasBlackHeight n) : (Path.fill p u).HasBlackHeight m := by
  obtain ⟨k, hk, hfill⟩ := Path.exists_hasBlackHeight h
  exact hfill u (ht.unique hk ▸ hu)

theorem Frame.isRed_of_relieve {f g : Frame α} {r : Relief α} (h : f.relieve g t = .done r es) :
    g.sibling.isRed = match r with
      | .settled _ => false
      | .raised _ => true := by
  unfold Frame.relieve at h
  split at h
  · rename_i hg
    cases h
    exact hg
  · rename_i hg
    obtain ⟨_, _, _, -, hw, -⟩ := Traced.bind_eq_done_iff.1 h
    obtain ⟨_, _, _, -, hr, -⟩ := Traced.bind_eq_done_iff.1 hw
    cases hr
    simpa using hg

/-- Whatever takes the place of a red pair and its grandparent has their black height, so that the
tree grows at the root alone, where a red node turns black. -/
theorem Path.hasBlackHeight_repairRed (hp : p.Balanced .black n) (ht : t.Balanced .red n)
    (hm : (Path.fill p t).HasBlackHeight m) (hr : Path.repairRed p t = .done u es) :
    u.HasBlackHeight (if p.surfaces then m + 1 else m) := by
  fun_induction Path.repairRed p t generalizing n u es with
  | case1 t =>
    cases hr
    obtain rfl := ht.hasBlackHeight.unique hm
    exact ht.paint_black.hasBlackHeight
  | case2 f t hf =>
    cases hr
    exact hm
  | case3 f t hf => cases hr
  | case4 f g rest t hf =>
    cases hr
    simpa [Path.surfaces, hf] using hm
  | case5 f g rest t hf ih =>
    cases hp with
    | black => cases hf
    | @red s v x _ _ hx hp =>
      cases hp with
      | @black s' w y _ _ d _ hy hp =>
        obtain ⟨r, es₁, es₂, hs, hu, rfl⟩ := Traced.bind_eq_done_iff.1 hr
        obtain ⟨r', es', hs', hb⟩ := Frame.exists_relieve hx hy ht
        cases hs.symm.trans hs'
        have huncle := Frame.isRed_of_relieve hs
        have hwhole : (Frame.plug ⟨s', .black, w, y⟩ (Frame.plug ⟨s, .red, v, x⟩ t)).HasBlackHeight
            (n + 1) := (ht.hasBlackHeight.plug hx.hasBlackHeight).plug hy.hasBlackHeight
        rw [Path.fill_cons, Path.fill_cons] at hm
        cases r with
        | settled z =>
          cases hu
          simpa [Path.surfaces, huncle] using Path.hasBlackHeight_fill hm hwhole hb.hasBlackHeight
        | raised z =>
          have hz := ih z hp hb (Path.hasBlackHeight_fill hm hwhole hb.hasBlackHeight) hu
          simpa [Path.surfaces, huncle] using hz

end RedBlack
