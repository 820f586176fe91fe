import RedBlack.Tree.Insertion
import RedBlack.Tree.Removal

set_option autoImplicit false

namespace RedBlack
variable {α : Type}

/-- A subtree with a root of the given colour, an empty one counting as black, and with the given
number of black nodes on every way down. -/
inductive Tree.Balanced : Tree α → Color → Nat → Prop
  | nil : Balanced .nil .black 0
  | red {l r : Tree α} {v : α} {n : Nat} :
    Balanced l .black n → Balanced r .black n → Balanced (.node .red l v r) .red n
  | black {l r : Tree α} {v : α} {c d : Color} {n : Nat} :
    Balanced l c n → Balanced r d n → Balanced (.node .black l v r) .black (n + 1)

/-- A path whose hole may be filled with a subtree of the given colour and number of black nodes. -/
inductive Path.Balanced : Path α → Color → Nat → Prop
  | root {n : Nat} : Balanced [] .black n
  | red {s : Side} {v : α} {u : Tree α} {p : Path α} {n : Nat} :
    u.Balanced .black n → Balanced p .red n → Balanced (⟨s, .red, v, u⟩ :: p) .black n
  | black {s : Side} {v : α} {u : Tree α} {p : Path α} {c d : Color} {n : Nat} :
    u.Balanced d n → Balanced p .black (n + 1) → Balanced (⟨s, .black, v, u⟩ :: p) c n

def Tree.IsRedBlack (t : Tree α) : Prop := ∃ n, t.Balanced .black n

theorem Tree.isRedBlack_nil : (Tree.nil : Tree α).IsRedBlack := ⟨0, .nil⟩

theorem Tree.Balanced.map {β : Type} {t : Tree α} {c : Color} {n : Nat} (h : t.Balanced c n)
    (f : α → β) : (t.map f).Balanced c n := by
  induction h with
  | nil => exact .nil
  | red _ _ hl hr => exact .red hl hr
  | black _ _ hl hr => exact .black hl hr

theorem Tree.Balanced.of_map {β : Type} {t : Tree α} {f : α → β} {c : Color} {n : Nat}
    (h : (t.map f).Balanced c n) : t.Balanced c n := by
  induction t generalizing c n with
  | nil => cases h; exact .nil
  | node d l v r hl hr =>
    cases h with
    | red h₁ h₂ => exact .red (hl h₁) (hr h₂)
    | black h₁ h₂ => exact .black (hl h₁) (hr h₂)

theorem Tree.isRedBlack_of_map {β : Type} {t : Tree α} {f : α → β} (h : (t.map f).IsRedBlack) :
    t.IsRedBlack := by
  obtain ⟨n, hn⟩ := h
  exact ⟨n, hn.of_map⟩

theorem Tree.IsRedBlack.map {β : Type} {t : Tree α} (h : t.IsRedBlack) (f : α → β) :
    (t.map f).IsRedBlack := by
  obtain ⟨n, hn⟩ := h
  exact ⟨n, hn.map f⟩

theorem Tree.Balanced.isRed {t : Tree α} {c : Color} {n : Nat} (h : t.Balanced c n) :
    t.isRed = true ↔ c = .red := by
  cases h <;> simp [Tree.isRed]

theorem Tree.Balanced.not_red {t : Tree α} {n : Nat} (h : t.Balanced .black n) :
    t.isRed = false := by
  cases h <;> rfl

theorem Tree.Balanced.paint_black {t : Tree α} {n : Nat} (h : t.Balanced .red n) :
    (t.paint .black).Balanced .black (n + 1) := by
  cases h with
  | red hl hr => exact .black hl hr

theorem Tree.Balanced.branch_red {s : Side} {t u : Tree α} {v : α} {n : Nat}
    (ht : t.Balanced .black n) (hu : u.Balanced .black n) :
    (Tree.branch s .red t v u).Balanced .red n := by
  cases s
  · exact .red ht hu
  · exact .red hu ht

theorem Tree.Balanced.branch_black {s : Side} {t u : Tree α} {v : α} {c d : Color} {n : Nat}
    (ht : t.Balanced c n) (hu : u.Balanced d n) :
    (Tree.branch s .black t v u).Balanced .black (n + 1) := by
  cases s
  · exact .black ht hu
  · exact .black hu ht

theorem Tree.Balanced.exists_branch_red {u : Tree α} {n : Nat} (h : u.Balanced .red n) (s : Side) :
    ∃ near w far, u = Tree.branch s .red near w far ∧ near.Balanced .black n ∧
      far.Balanced .black n := by
  cases h with
  | red hl hr =>
    cases s
    · exact ⟨_, _, _, rfl, hl, hr⟩
    · exact ⟨_, _, _, rfl, hr, hl⟩

theorem Tree.Balanced.exists_branch_black {u : Tree α} {n : Nat} (h : u.Balanced .black (n + 1))
    (s : Side) :
    ∃ near w far c d, u = Tree.branch s .black near w far ∧ near.Balanced c n ∧
      far.Balanced d n := by
  cases h with
  | black hl hr =>
    cases s
    · exact ⟨_, _, _, _, _, rfl, hl, hr⟩
    · exact ⟨_, _, _, _, _, rfl, hr, hl⟩

theorem Path.Balanced.fill {p : Path α} {t : Tree α} {c : Color} {n : Nat} (hp : p.Balanced c n)
    (ht : t.Balanced c n) : (Path.fill p t).IsRedBlack := by
  induction hp generalizing t with
  | root => exact ⟨_, ht⟩
  | red hu _ ih => exact ih (ht.branch_red hu)
  | black hu _ ih => exact ih (ht.branch_black hu)

theorem Path.Balanced.weaken {p : Path α} {n : Nat} (h : p.Balanced .red n) :
    p.Balanced .black n := by
  cases h with
  | black hu hp => exact .black hu hp

/-- A red pair below a black grandparent is repaired within the grandparent's subtree, unless that
turns red. -/
theorem Frame.exists_relieve {s s' : Side} {v w : α} {u x t : Tree α} {d : Color} {n : Nat}
    (hu : u.Balanced .black n) (hx : x.Balanced d n) (ht : t.Balanced .red n) :
    ∃ r es, Frame.relieve ⟨s, .red, v, u⟩ ⟨s', .black, w, x⟩ t = .done r es ∧
      match r with
      | .settled y => y.Balanced .black (n + 1)
      | .raised y => y.Balanced .red (n + 1) := by
  cases d with
  | red =>
    refine ⟨_, _, if_pos (hx.isRed.2 rfl), Tree.Balanced.branch_red ?_ hx.paint_black⟩
    cases s
    · exact .black ht hu
    · exact .black hu ht
  | black =>
    cases ht with
    | red hl hr =>
      cases s <;> cases s' <;> simp [Frame.relieve, hx.not_red, Frame.align, Frame.plug,
        Tree.branch, Tree.paint, Tree.rotate, Side.opposite, Traced.emit, Traced.done_bind,
        Traced.pure_eq]
      · exact .black (.red hl hr) (.red hu hx)
      · exact .black (.red hx hl) (.red hr hu)
      · exact .black (.red hu hl) (.red hr hx)
      · exact .black (.red hx hu) (.red hl hr)

theorem Path.exists_repairRed {p : Path α} {t : Tree α} {n : Nat} (hp : p.Balanced .black n)
    (ht : t.Balanced .red n) :
    ∃ u es, Path.repairRed p t = .done u es ∧ u.IsRedBlack := by
  fun_induction Path.repairRed p t generalizing n with
  | case1 t => exact ⟨_, _, rfl, _, ht.paint_black⟩
  | case2 f t hc =>
    refine ⟨_, _, rfl, ?_⟩
    cases hp with
    | red => cases hc
    | black hu hp => exact hp.fill (ht.branch_black hu)
  | case3 f t hc =>
    cases hp with
    | red _ hp => cases hp
    | black => cases hc
  | case4 f g rest t hc =>
    refine ⟨_, _, rfl, ?_⟩
    cases hp with
    | red => cases hc
    | black hu hp => exact hp.fill (ht.branch_black hu)
  | case5 f g rest t hc ih =>
    cases hp with
    | black => cases hc
    | red hu hp =>
      cases hp with
      | black hx hp =>
        obtain ⟨r, es, hr, h⟩ := Frame.exists_relieve hu hx ht
        rw [hr]
        cases r with
        | settled y => exact ⟨_, _, rfl, hp.fill h⟩
        | raised y =>
          obtain ⟨z, es', hz, hb⟩ := ih y hp h
          exact ⟨z, es ++ es', by rw [Traced.done_bind]; simp only [hz], hb⟩

theorem Path.Balanced.exchange {s : Side} {c d : Color} {v w : α} {u near far : Tree α} {n : Nat}
    {rest : Path α} (hn : near.Balanced d n) (hf : far.Balanced .black (n + 1))
    (h : Path.Balanced (⟨s, c, v, u⟩ :: rest) .black (n + 1)) :
    Path.Balanced (⟨s, .black, v, near⟩ :: ⟨s, c, w, far⟩ :: rest) .black n := by
  cases h with
  | red _ h => exact .black hn (.red hf h)
  | black _ h => exact .black hn (.black hf h)

theorem Frame.exists_borrow {s : Side} {c : Color} {v : α} {u : Tree α} {n : Nat}
    (hu : u.Balanced .black (n + 1)) :
    ∃ r es, Frame.borrow ⟨s, c, v, u⟩ = .done r es ∧
      match r with
      | none => (u.paint .red).Balanced .red n
      | some (a, b) => ∀ rest, Path.Balanced (⟨s, c, v, u⟩ :: rest) .black (n + 1) →
        Path.Balanced (a :: b :: rest) .black n := by
  obtain ⟨near, w, far, d, e, rfl, hn, hf⟩ := hu.exists_branch_black s
  cases e with
  | red =>
    exact ⟨_, _, Frame.borrow_far (hf.isRed.2 rfl), fun rest h => h.exchange hn hf.paint_black⟩
  | black =>
    cases d with
    | red =>
      obtain ⟨a, x, b, rfl, ha, hb⟩ := hn.exists_branch_red s
      exact ⟨_, _, Frame.borrow_near hf.not_red,
        fun rest h => h.exchange ha (hb.branch_black hf)⟩
    | black =>
      refine ⟨_, _, Frame.borrow_none hn.not_red hf.not_red, ?_⟩
      simpa using hn.branch_red hf

theorem Path.Balanced.cede {s : Side} {c : Color} {v : α} {u : Tree α} {n : Nat} {rest : Path α}
    (hu : (u.paint .red).Balanced .red n) (h : rest.Balanced .black (n + 1)) :
    Path.Balanced (Frame.cede ⟨s, c, v, u⟩ :: rest) .black n :=
  .black hu h

/-- A shortage in the hole of a frame is made up for, unless it becomes that of the frame. -/
theorem Frame.exists_refund {f : Frame α} {rest : Path α} {n : Nat}
    (h : Path.Balanced (f :: rest) .black (n + 1)) :
    ∃ r es, f.refund = .done r es ∧
      match r with
      | .settled frames => Path.Balanced (frames ++ rest) .black n
      | .raised frame => Path.Balanced rest .black (n + 2) ∧
        ∀ p, Path.Balanced p .black (n + 1) → Path.Balanced (frame :: p) .black n := by
  obtain ⟨s, c, v, u⟩ := f
  cases hr : u.isRed with
  | false =>
    have hu : u.Balanced .black (n + 1) := by
      cases h with
      | red hu _ => exact hu
      | @black _ _ _ _ _ d _ hu _ =>
        cases d with
        | black => exact hu
        | red => simp [hu.isRed.2 rfl] at hr
    obtain ⟨r, es, hb, hs⟩ := Frame.exists_borrow (s := s) (c := c) (v := v) hu
    simp only [Frame.refund, hr, hb]
    cases r with
    | some x => exact ⟨_, _, rfl, hs rest h⟩
    | none =>
      cases h with
      | red _ h => exact ⟨_, _, rfl, .cede hs h.weaken⟩
      | black _ h => exact ⟨_, _, rfl, h, fun p hp => .cede hs hp⟩
  | true =>
    cases h with
    | red hu _ => simp [hu.not_red] at hr
    | @black _ _ _ _ _ d _ hu h =>
      obtain rfl := hu.isRed.1 hr
      obtain ⟨near, w, far, rfl, hn, hf⟩ := hu.exists_branch_red s
      have hp : Path.Balanced (⟨s, .red, v, near⟩ :: ⟨s, .black, w, far⟩ :: rest) .black (n + 1) :=
        .red hn (.black hf h)
      obtain ⟨x, es, hb, hs⟩ := Frame.exists_borrow (s := s) (c := .red) (v := v) hn
      simp only [Frame.refund, hr, if_true, Tree.paint_branch, Frame.rotate_branch]
      rw [Traced.done_bind]
      simp only [hb]
      cases x with
      | some x => exact ⟨.settled [x.1, x.2, _], _, rfl, hs _ hp⟩
      | none => exact ⟨.settled [_, _], _, rfl, .cede hs (.black hf h)⟩

theorem Path.exists_repairDeficit {p : Path α} {n : Nat} (h : p.Balanced .black (n + 1)) :
    ∃ q es, Path.repairDeficit p = .done q es ∧ q.Balanced .black n := by
  induction p generalizing n with
  | nil => exact ⟨_, _, rfl, .root⟩
  | cons f rest ih =>
    obtain ⟨r, es, hr, hb⟩ := Frame.exists_refund h
    unfold Path.repairDeficit
    rw [hr]
    cases r with
    | settled frames => exact ⟨_, _, rfl, hb⟩
    | raised frame =>
      obtain ⟨q, es', hq, hb'⟩ := ih hb.1
      exact ⟨frame :: q, es ++ es', by simp [Traced.done_bind, hq, Traced.pure_eq], hb.2 q hb'⟩

theorem Path.exists_balanced {p : Path α} {t : Tree α} (h : (Path.fill p t).IsRedBlack) :
    ∃ c n, p.Balanced c n ∧ t.Balanced c n := by
  induction p generalizing t with
  | nil =>
    obtain ⟨n, h⟩ := h
    exact ⟨_, n, .root, h⟩
  | cons f p ih =>
    obtain ⟨c, n, hp, ht⟩ := ih h
    obtain ⟨s, d, v, u⟩ := f
    cases s with
    | left =>
      cases ht with
      | red hl hr => exact ⟨_, _, .red hr hp, hl⟩
      | black hl hr => exact ⟨_, _, .black hr hp, hl⟩
    | right =>
      cases ht with
      | red hl hr => exact ⟨_, _, .red hl hp, hr⟩
      | black hl hr => exact ⟨_, _, .black hl hp, hr⟩

theorem Path.exists_splice_red {p : Path α} {t : Tree α} (hp : p.Balanced .red 0)
    (ht : t.Balanced .black 0) :
    ∃ u es, Path.splice p .red t = .done u es ∧ u.IsRedBlack :=
  ⟨_, _, rfl, hp.weaken.fill ht⟩

theorem Path.exists_splice_black {p : Path α} {t : Tree α} {c : Color} (hp : p.Balanced .black 1)
    (ht : t.Balanced c 0) :
    ∃ u es, Path.splice p .black t = .done u es ∧ u.IsRedBlack := by
  cases ht with
  | nil =>
    obtain ⟨q, es, hq, hb⟩ := Path.exists_repairDeficit hp
    refine ⟨Path.fill q .nil, es, ?_, hb.fill .nil⟩
    simp [Path.splice, hq, Traced.done_bind, Traced.pure_eq]
  | red hl hr => exact ⟨_, _, rfl, hp.fill (.black hl hr)⟩

theorem Path.exists_splice {p : Path α} {c d : Color} {l r t : Tree α} {v : α} {n : Nat}
    (hp : p.Balanced d n) (hb : (Tree.node c l v r).Balanced d n)
    (ht : l = .nil ∧ t = r ∨ r = .nil ∧ t = l) :
    ∃ u es, Path.splice p c t = .done u es ∧ u.IsRedBlack := by
  rcases ht with ⟨rfl, rfl⟩ | ⟨rfl, rfl⟩
  · cases hb with
    | red hl hr => cases hl; exact Path.exists_splice_red hp hr
    | black hl hr => cases hl; exact Path.exists_splice_black hp hr
  · cases hb with
    | red hl hr => cases hr; exact Path.exists_splice_red hp hl
    | black hl hr => cases hr; exact Path.exists_splice_black hp hl

theorem Path.exists_erase {p : Path α} {c d : Color} {l r : Tree α} {v : α} {n : Nat}
    (hp : p.Balanced d n) (hb : (Tree.node c l v r).Balanced d n) :
    ∃ u es, Path.erase p c l r = .done u es ∧ u.IsRedBlack := by
  cases r with
  | nil => exact Path.exists_splice hp hb (Or.inr ⟨rfl, rfl⟩)
  | node d' l' w r' =>
    cases hl : l.extreme .right with
    | none =>
      simp only [Path.erase, hl]
      exact Path.exists_splice hp hb (Or.inl ⟨Tree.extreme_eq_none_iff.1 hl, rfl⟩)
    | some x =>
      obtain ⟨f, inner⟩ := x
      simp only [Path.erase, hl]
      obtain ⟨hs, hf⟩ := Tree.fill_extreme hl
      have hb' : (Tree.node c l f.value (.node d' l' w r')).Balanced d n := by
        cases hb with
        | red hl hr => exact .red hl hr
        | black hl hr => exact .black hl hr
      have hw : (Path.fill (inner ++ ⟨.left, c, f.value, .node d' l' w r'⟩ :: p)
          (f.plug .nil)).IsRedBlack := by
        rw [Path.fill_append, hf]
        exact hp.fill hb'
      obtain ⟨e, m, hq, ht⟩ := Path.exists_balanced hw
      obtain ⟨s, e', x, u⟩ := f
      obtain rfl : s = .right := hs
      exact Path.exists_splice hq ht (Or.inr ⟨rfl, rfl⟩)

theorem Tree.IsRedBlack.exists_zoom {t : Tree α} (h : t.IsRedBlack) (cut : α → Ordering) :
    ∃ c n, Path.Balanced (t.zoom cut []).1 c n ∧ (t.zoom cut []).2.Balanced c n :=
  Path.exists_balanced (by rw [Tree.fill_zoom]; exact h)

theorem Tree.IsRedBlack.exists_insert? {t : Tree α} (h : t.IsRedBlack)
    (compare : α → α → Ordering) (v : α) :
    ∃ u es, t.insert? compare v = .done u es ∧ ∀ w ∈ u, w.IsRedBlack := by
  obtain ⟨c, n, hp, ht⟩ := h.exists_zoom (compare v)
  unfold Tree.insert?
  split
  · rename_i p hz
    rw [hz] at hp ht
    cases ht with
    | nil =>
      obtain ⟨u, es, hu, hb⟩ := Path.exists_repairRed hp (.red (v := v) .nil .nil)
      refine ⟨some u, es, ?_, by simpa using hb⟩
      simp [hu, Traced.done_bind, Traced.pure_eq]
  · exact ⟨none, [], rfl, by simp⟩

theorem Tree.IsRedBlack.exists_take? {t : Tree α} (h : t.IsRedBlack) (cut : α → Ordering) :
    ∃ u es, t.take? cut = .done u es ∧ ∀ w ∈ u, w.2.IsRedBlack := by
  obtain ⟨c, n, hp, ht⟩ := h.exists_zoom cut
  unfold Tree.take?
  split
  · exact ⟨none, [], rfl, by simp⟩
  · rename_i p d l v r hz
    rw [hz] at hp ht
    obtain ⟨u, es, hu, hb⟩ := Path.exists_erase hp ht
    refine ⟨some (v, u), es, ?_, by simpa using hb⟩
    simp [hu, Traced.done_bind, Traced.pure_eq]

theorem Tree.IsRedBlack.exists_takeExtreme? {t : Tree α} (h : t.IsRedBlack) (side : Side) :
    ∃ u es, t.takeExtreme? side = .done u es ∧ ∀ w ∈ u, w.2.IsRedBlack := by
  unfold Tree.takeExtreme?
  split
  · exact ⟨none, [], rfl, by simp⟩
  · rename_i f p hf
    obtain ⟨hs, hw⟩ := Tree.fill_extreme hf
    obtain ⟨c, n, hp, ht⟩ := Path.exists_balanced (hw.symm ▸ h)
    obtain ⟨s, d, v, u⟩ := f
    have hu : ∃ x es, Path.splice p d u = .done x es ∧ x.IsRedBlack := by
      cases s
      · exact Path.exists_splice hp ht (Or.inl ⟨rfl, rfl⟩)
      · exact Path.exists_splice hp ht (Or.inr ⟨rfl, rfl⟩)
    obtain ⟨x, es, hx, hb⟩ := hu
    refine ⟨some (v, x), es, ?_, by simpa using hb⟩
    simp [hx, Traced.done_bind, Traced.pure_eq]

end RedBlack
