import RedBlack.Arena.Update
import RedBlack.Proofs.Arena.Links
import RedBlack.Proofs.Tree.Rotations

set_option autoImplicit false

namespace RedBlack
variable {α : Type}

theorem Tree.link_child_rotate {s : Side} {t u : Layout α} {ts : List (Rotation (Nat × α))}
    (h : t.rotate s = .done u ts) : (u.child s).link = t.link := by
  unfold Tree.rotate at h
  split at h
  · split at h
    · cases h; rfl
    · cases h; rfl
    · cases h
  · cases h

theorem Frame.exists_sibling_of_borrow {f : Frame (Nat × α)} {r : Option _}
    {ts : List (Rotation (Nat × α))}
    (h : f.borrow = .done r ts) : ∃ s, f.sibling.link = some s := by
  unfold Frame.borrow at h
  split at h
  · cases h
  · rename_i hs
    rw [hs]
    exact ⟨_, rfl⟩

namespace Arena
variable {a : Arena α} {p q : Path (Nat × α)} {f : Frame (Nat × α)} {t u : Layout α} {i j n : Nat}
  {ts : List (Rotation (Nat × α))}

theorem Lays.exists_child (h : a.Lays p t) (hi : t.link = some i) (s : Side) :
    ∃ n, a.node i = .ok n ∧ n.child s = (t.child s).link := by
  cases t with
  | nil => cases hi
  | node c l x r =>
    cases hi
    exact ⟨_, h.node, by cases s <;> rfl⟩

theorem Lays.paint_child {s : Side} (h : a.Lays p t) (hj : (t.child s).link = some j) (c : Color) :
    ∃ a', a.setColor j c = .ok a' ∧ a'.Lays p (t.paintChild s c) := by
  cases t with
  | nil => cases hj
  | node d l x r =>
    cases s with
    | left =>
      have hl : a.Lays (⟨.left, d, x, r⟩ :: p) l := lays_cons.2 h
      obtain ⟨a', ha, h'⟩ := hl.setColor hj c
      exact ⟨a', ha, lays_cons.1 h'⟩
    | right =>
      have hr : a.Lays (⟨.right, d, x, l⟩ :: p) r := lays_cons.2 h
      obtain ⟨a', ha, h'⟩ := hr.setColor hj c
      exact ⟨a', ha, lays_cons.1 h'⟩

theorem Lays.paint_nephew {k : Side} (h : a.Lays (f :: p) t)
    (hj : (f.sibling.child k).link = some j) (c : Color) :
    ∃ a', a.setColor j c = .ok a' ∧
      a'.Lays ({ f with sibling := f.sibling.paintChild k c } :: p) t := by
  obtain ⟨a', ha, h'⟩ := (lays_flip.1 h).paint_child hj c
  exact ⟨a', ha, lays_flip.2 h'⟩

theorem Lays.expose {s : Nat} {side : Side} (h : a.Lays (f :: p) t) (hf : f.side = side)
    (hs : f.sibling.link = some s) (he : f.sibling.expose side.opposite = .done u ts) :
    ∃ a' s' far w, a.expose s side = .done (a', s', far) (ts.map Rotation.event) ∧
      a'.Lays ({ f with sibling := w } :: p) t ∧ w.link = some s' ∧
      (w.child side.opposite).link = some far ∧
      ∀ c, (w.paint c).paintChild side.opposite .black =
        (u.paint c).paintChild side.opposite .black := by
  have hr := (lays_flip.1 h).redChild hs side.opposite
  unfold Tree.expose at he
  split at he
  · rename_i hred
    cases he
    obtain ⟨far, hfar⟩ := Tree.exists_link_of_isRed hred
    rw [if_pos hred, hfar] at hr
    refine ⟨a, s, far, f.sibling, ?_, h, hs, hfar, fun c => rfl⟩
    simp [Arena.expose, hr, Traced.pure_eq]
  · rename_i hred
    rw [if_neg hred] at hr
    obtain ⟨n, hn, hc⟩ := (lays_flip.1 h).exists_child hs side
    obtain ⟨a₁, e₁, h₁, hl⟩ := (lays_flip.1 h).rotate hs he
    rw [Side.opposite_opposite] at hl
    have hk := Tree.link_child_rotate he
    cases hnear : (f.sibling.child side).link with
    | none =>
      -- a rotation promotes this child, so that it cannot be missing
      rw [hnear] at hl
      cases u with
      | nil => rw [hs] at hk; cases side <;> cases hk
      | node c l x r => cases hl
    | some near =>
      rw [hnear] at hl hc
      obtain ⟨a₂, e₂, h₂⟩ := h₁.paint_child (hk.trans hs) .red
      have hn' : (u.paintChild side.opposite .red).link = some near := by
        rw [Tree.link_paintChild, hl]
      obtain ⟨a₃, e₃, h₃⟩ := h₂.setColor hn' .black
      refine ⟨a₃, near, s, (u.paintChild side.opposite .red).paint .black, ?_, lays_flip.2 h₃, ?_,
        ?_, fun c => by simp⟩
      · simp [Arena.expose, hr, hn, hc, e₁, e₂, e₃, Traced.done_bind, Traced.pure_eq]
      · rw [Tree.link_paint, hn']
      · simpa using hk.trans hs

theorem Lays.borrow {s : Nat} {x y : Frame (Nat × α)} (h : a.Lays (f :: p) t)
    (hs : f.sibling.link = some s) (hb : f.borrow = .done (some (x, y)) ts) :
    ∃ a', a.borrow f.value.1 s f.side = .done a' (ts.map Rotation.event) ∧
      a'.Lays (x :: y :: p) t := by
  unfold Frame.borrow at hb
  split at hb
  · cases hb
  · split at hb
    · obtain ⟨u, ts₁, ts₂, he, hu, rfl⟩ := Traced.bind_eq_done_iff.1 hb
      obtain ⟨z, ts₃, ts₄, hr, hz, rfl⟩ := Traced.bind_eq_done_iff.1 hu
      cases hz
      obtain ⟨a₁, s', far, w, e₁, h₁, hw, hfar, hp⟩ := h.expose rfl hs he
      have hn := h₁.node_frame
      obtain ⟨a₂, e₂, h₂⟩ := h₁.paint_sibling hw f.color
      obtain ⟨a₃, e₃, h₃⟩ := h₂.paint_frame .black
      obtain ⟨a₄, e₄, h₄⟩ := h₃.paint_nephew (k := f.side.opposite) (by simpa using hfar) .black
      dsimp only at h₄
      rw [hp f.color] at h₄
      obtain ⟨a₅, e₅, h₅⟩ := h₄.rotate_frame hr
      refine ⟨a₅, ?_, h₅⟩
      simp [Arena.borrow, e₁, hn, e₂, e₃, e₄, e₅, Traced.done_bind]
    · cases hb

theorem Lays.isSome_redChild (h : a.Lays p t) (hi : t.link = some i) (s : Side) :
    ∃ l, a.redChild i s = .ok l ∧ l.isSome = (t.child s).isRed := by
  refine ⟨_, h.redChild hi s, ?_⟩
  split
  · rename_i hr
    obtain ⟨j, hj⟩ := Tree.exists_link_of_isRed hr
    rw [hr, hj]
    rfl
  · rename_i hr
    simpa using hr

theorem Lays.nephews {s : Nat} (h : a.Lays (f :: p) t) (hs : f.sibling.link = some s) :
    ∃ l r, a.redChild s f.side = .ok l ∧ a.redChild s f.side.opposite = .ok r ∧
      (l.isSome = true ∨ r.isSome = true ↔ f.sibling.hasRedChild = true) := by
  obtain ⟨l, hl, hl'⟩ := (lays_flip.1 h).isSome_redChild hs f.side
  obtain ⟨r, hr, hr'⟩ := (lays_flip.1 h).isSome_redChild hs f.side.opposite
  exact ⟨l, r, hl, hr, by rw [← Bool.or_eq_true, hl', hr', ← Tree.hasRedChild_sides]⟩

theorem Lays.borrowOrCede_some {s : Nat} {x y : Frame (Nat × α)} (h : a.Lays (f :: p) t)
    (hs : f.sibling.link = some s) (hb : f.borrow = .done (some (x, y)) ts) :
    ∃ a', a.borrowOrCede f.value.1 s f.side = .done (.over a') (ts.map Rotation.event) ∧
      a'.Lays (x :: y :: p) t := by
  obtain ⟨l, r, hl, hr, hred⟩ := h.nephews hs
  have hc := hred.2 (Frame.hasRedChild_of_borrow hb)
  obtain ⟨a', ha, h'⟩ := h.borrow hs hb
  refine ⟨a', ?_, h'⟩
  simp [Arena.borrowOrCede, hl, hr, hc, ha, Traced.done_bind, Traced.pure_eq]

theorem Lays.borrowOrCede_none {s : Nat} (h : a.Lays (f :: p) t)
    (hs : f.sibling.link = some s) (hb : f.borrow = .done none ts) :
    ∃ a', a'.Lays (f.cede :: p) t ∧ a.borrowOrCede f.value.1 s f.side =
      .done (match f.color with
        | .red => .over a'
        | .black => .again (a', f.value.1)) (ts.map Rotation.event) := by
  obtain ⟨l, r, hl, hr, hred⟩ := h.nephews hs
  obtain ⟨rfl, hn⟩ := Frame.hasRedChild_of_borrow_none hb
  have hc : ¬(l.isSome = true ∨ r.isSome = true) := by rw [hred, hn]; exact Bool.false_ne_true
  obtain ⟨a₁, e₁, h₁⟩ := h.paint_sibling hs .red
  have hp := h₁.node_frame
  cases hf : f.color with
  | red =>
    obtain ⟨a₂, e₂, h₂⟩ := h₁.paint_frame .black
    refine ⟨a₂, h₂, ?_⟩
    simp [Arena.borrowOrCede, hl, hr, hc, e₁, hp, Node.isRed, hf, e₂, Traced.pure_eq]
  | black =>
    refine ⟨a₁, ?_, ?_⟩
    · rw [Frame.cede, ← hf]; exact h₁
    · simp [Arena.borrowOrCede, hl, hr, hc, e₁, hp, Node.isRed, hf, Traced.pure_eq]

theorem Lays.sibling {s : Nat} (h : a.Lays (f :: p) t) (hs : f.sibling.link = some s) :
    a.sibling f.value.1 f.side = .ok s := by
  simp only [Arena.sibling, h.node_frame, ok_bind, Node.child_join_opposite, hs]
  rfl

theorem Lays.blackSibling_black {s : Nat} (h : a.Lays (f :: p) t) (hs : f.sibling.link = some s)
    (hf : f.sibling.isRed = false) : a.blackSibling f.value.1 f.side = .done (a, s) [] := by
  obtain ⟨n, hn, -, hr⟩ := (lays_flip.1 h).exists_node hs
  simp [Arena.blackSibling, h.sibling hs, hn, hr, hf, Traced.pure_eq]

theorem Lays.blackSibling_red {inner outer : Frame (Nat × α)} {s : Nat} (h : a.Lays (f :: p) t)
    (hf : f.sibling.isRed = true)
    (hr : Frame.rotate { f with color := .red, sibling := f.sibling.paint .black } =
      .done (inner, outer) ts) (hs : inner.sibling.link = some s) :
    ∃ a', a.blackSibling f.value.1 f.side = .done (a', s) (ts.map Rotation.event) ∧
      a'.Lays (inner :: outer :: p) t := by
  obtain ⟨k, hk⟩ := Tree.exists_link_of_isRed hf
  obtain ⟨n, hn, -, hred⟩ := (lays_flip.1 h).exists_node hk
  obtain ⟨a₁, e₁, h₁⟩ := h.paint_frame .red
  obtain ⟨a₂, e₂, h₂⟩ := h₁.paint_sibling hk .black
  obtain ⟨a₃, e₃, h₃⟩ := h₂.rotate_frame hr
  obtain ⟨hside, hval, -⟩ := Frame.value_rotate hr
  have hp := h₃.sibling hs
  rw [hside, hval] at hp
  refine ⟨a₃, ?_, h₃⟩
  simp [Arena.blackSibling, h.sibling hk, hn, hred, hf, e₁, e₂, e₃, hp, Traced.done_bind,
    Traced.pure_eq]

section Round
variable (h : a.Lays (f :: p) t) (hi : t.link = some i)
include h hi

theorem Lays.deficitRound_eq :
    deficitRound (a, i) = (do
      let (a, s) ← a.blackSibling f.value.1 f.side
      a.borrowOrCede f.value.1 s f.side) := by
  obtain ⟨n, hn, hp, -⟩ := h.exists_node hi
  simp [deficitRound, hn, hp, h.sideOf hi]

theorem Lays.deficitRound_settled {fs : Path (Nat × α)}
    (hr : f.refund = .done (.settled fs) ts) :
    ∃ a', deficitRound (a, i) = .done (.over a') (ts.map Rotation.event) ∧
      a'.Lays (fs ++ p) t := by
  rw [h.deficitRound_eq hi]
  unfold Frame.refund at hr
  split at hr
  · rename_i hred
    obtain ⟨⟨inner, outer⟩, ts₁, ts₂, ho, hx, rfl⟩ := Traced.bind_eq_done_iff.1 hr
    obtain ⟨x, ts₃, ts₄, hb, hy, rfl⟩ := Traced.bind_eq_done_iff.1 hx
    obtain ⟨s, hs⟩ := Frame.exists_sibling_of_borrow hb
    obtain ⟨a₁, e₁, h₁⟩ := h.blackSibling_red hred ho hs
    obtain ⟨hside, hval, hcol⟩ := Frame.value_rotate ho
    cases x with
    | none =>
      cases hy
      obtain ⟨a₂, h₂, e₂⟩ := h₁.borrowOrCede_none hs hb
      rw [hside, hval, hcol] at e₂
      refine ⟨a₂, ?_, h₂⟩
      simp [e₁, Traced.done_bind, e₂]
    | some x =>
      obtain ⟨x, y⟩ := x
      cases hy
      obtain ⟨a₂, e₂, h₂⟩ := h₁.borrowOrCede_some hs hb
      rw [hside, hval] at e₂
      refine ⟨a₂, ?_, h₂⟩
      simp [e₁, Traced.done_bind, e₂]
  · rename_i hred
    obtain ⟨x, ts₁, ts₂, hb, hy, rfl⟩ := Traced.bind_eq_done_iff.1 hr
    obtain ⟨s, hs⟩ := Frame.exists_sibling_of_borrow hb
    have e₁ := h.blackSibling_black hs (by simpa using hred)
    cases x with
    | none =>
      obtain ⟨a₂, h₂, e₂⟩ := h.borrowOrCede_none hs hb
      cases hc : f.color with
      | red =>
        simp only [hc] at hy e₂
        cases hy
        refine ⟨a₂, ?_, h₂⟩
        simp [e₁, e₂]
      | black =>
        simp only [hc] at hy
        cases hy
    | some x =>
      obtain ⟨x, y⟩ := x
      cases hy
      obtain ⟨a₂, e₂, h₂⟩ := h.borrowOrCede_some hs hb
      refine ⟨a₂, ?_, h₂⟩
      simp [e₁, e₂]

theorem Lays.deficitRound_raised {g : Frame (Nat × α)} (hr : f.refund = .done (.raised g) ts) :
    ∃ a', deficitRound (a, i) = .done (.again (a', g.value.1)) (ts.map Rotation.event) ∧
      a'.Lays (g :: p) t := by
  rw [h.deficitRound_eq hi]
  unfold Frame.refund at hr
  split at hr
  · simp only [Traced.bind_eq_done_iff] at hr
    obtain ⟨_, _, _, -, ⟨x, _, _, -, hy, -⟩, -⟩ := hr
    cases x <;> cases hy
  · rename_i hred
    obtain ⟨x, ts₁, ts₂, hb, hy, rfl⟩ := Traced.bind_eq_done_iff.1 hr
    obtain ⟨s, hs⟩ := Frame.exists_sibling_of_borrow hb
    have e₁ := h.blackSibling_black hs (by simpa using hred)
    cases x with
    | none =>
      obtain ⟨a₂, h₂, e₂⟩ := h.borrowOrCede_none hs hb
      cases hc : f.color with
      | red =>
        simp only [hc] at hy
        cases hy
      | black =>
        simp only [hc] at hy e₂
        cases hy
        refine ⟨a₂, ?_, h₂⟩
        simp [e₁, e₂, Frame.cede]
    | some x => cases hy

end Round

theorem Lays.deficitRound_root (h : a.Lays [] t) (hi : t.link = some i) :
    deficitRound (a, i) = .done (.over a) [] := by
  obtain ⟨n, hn, hp, -⟩ := h.exists_node hi
  simp [deficitRound, hn, hp, Traced.pure_eq]

/-- The rounds of the repair, each of which takes one frame off the path. -/
theorem Lays.climbs_deficitRound (h : a.Lays p t) (hi : t.link = some i)
    (hr : Path.repairDeficit p = .done q ts) :
    ∃ a', Climbs deficitRound 1 p.length (a, i) a' (ts.map Rotation.event) ∧ a'.Lays q t := by
  induction p generalizing a i t q ts with
  | nil =>
    cases hr
    exact ⟨a, .ended (h.atDepth hi) (h.deficitRound_root hi), h⟩
  | cons f p ih =>
    obtain ⟨r, ts₁, ts₂, hs, hu, rfl⟩ := Traced.bind_eq_done_iff.1 hr
    have hd := h.atDepth hi
    cases r with
    | settled fs =>
      cases hu
      obtain ⟨a', ha, h'⟩ := h.deficitRound_settled hi hs
      exact ⟨a', by simpa using Climbs.ended hd ha, h'⟩
    | raised g =>
      obtain ⟨q', ts₃, ts₄, hq, he, rfl⟩ := Traced.bind_eq_done_iff.1 hu
      cases he
      obtain ⟨-, -, rfl, rfl⟩ := Frame.events_refund_raised hs
      obtain ⟨a₁, ha, h₁⟩ := h.deficitRound_raised hi hs
      -- the next round finds the shortage in the whole subtree of the frame
      obtain ⟨a₂, hc, h₂⟩ := ih (lays_cons.1 h₁) (Frame.link_plug ..) hq
      exact ⟨a₂, by simpa using Climbs.climbed hd (h.ancestor_succ hi) ha hc, lays_cons.2 h₂⟩

theorem Lays.repairDeficit (h : a.Lays p t) (hi : t.link = some i)
    (hr : Path.repairDeficit p = .done q ts) :
    ∃ a', a.repairDeficit i = .done a' (ts.map Rotation.event) ∧ a'.Lays q t := by
  have hn := h.length_add_count_le
  obtain ⟨a', hc, h'⟩ := h.climbs_deficitRound hi hr
  exact ⟨a', hc.loop_eq (by omega) (by omega), h'⟩

end Arena
end RedBlack
