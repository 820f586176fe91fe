import RedBlack.Arena.Update
import RedBlack.Proofs.Arena.Links
import RedBlack.Proofs.Tree.Mapping
import RedBlack.Proofs.Tree.Rotations

set_option autoImplicit false

namespace RedBlack
variable {α : Type}

theorem Side.opposite_eq_of_ne {s s' : Side} (h : s ≠ s') : s'.opposite = s := by
  cases s <;> cases s' <;> first | rfl | exact absurd rfl h

def Path.holeSide : Path α → Side
  | [] => .left
  | f :: _ => f.side

namespace Arena
variable {a : Arena α} {p : Path (Nat × α)} {f g : Frame (Nat × α)} {t u : Layout α} {i n : Nat}
  {ts : List (Rotation (Nat × α))}

theorem Lays.align {side : Side} (h : a.Lays (f :: p) t) (hi : t.link = some i)
    (hr : f.align side t = .done u ts) :
    ∃ a' j, a.align f.value.1 i side = .done (a', j) (ts.map Rotation.event) ∧ a'.Lays p u ∧
      u.link = some j := by
  have hs := h.sideOf hi
  unfold Frame.align at hr
  split at hr
  · rename_i e
    cases hr
    refine ⟨a, f.value.1, ?_, lays_cons.1 h, Frame.link_plug ..⟩
    simp [Arena.align, hs, e, Traced.pure_eq]
  · rename_i e
    obtain ⟨a', ha, h', hl⟩ := (lays_cons.1 h).rotate (Frame.link_plug ..) hr
    refine ⟨a', i, ?_, h', ?_⟩
    · simp [Arena.align, hs, e, ha, Traced.done_bind, Traced.pure_eq]
    · rw [hl, Side.opposite_eq_of_ne e, Frame.plug, Tree.child_branch_self, hi]

theorem Lays.relieve_settled (h : a.Lays (f :: g :: p) t) (hi : t.link = some i)
    (hr : f.relieve g t = .done (.settled u) ts) :
    ∃ a', a.relieve i f.value.1 g.value.1 = .done (.over a') (ts.map Rotation.event) ∧
      a'.Lays p u := by
  have hs := (lays_cons.1 h).sideOf (Frame.link_plug ..)
  have hu := (lays_cons.1 h).redChild_frame
  unfold Frame.relieve at hr
  split at hr
  · cases hr
  · rename_i hg
    rw [if_neg hg] at hu
    obtain ⟨upper, ts₁, ts₂, hal, hw, rfl⟩ := Traced.bind_eq_done_iff.1 hr
    obtain ⟨w, ts₃, ts₄, hro, he, rfl⟩ := Traced.bind_eq_done_iff.1 hw
    cases he
    obtain ⟨a₁, j, e₁, h₁, hj⟩ := h.align hi hal
    obtain ⟨a₂, e₂, h₂⟩ := h₁.setColor hj .black
    obtain ⟨a₃, e₃, h₃⟩ := h₂.paint_frame .red
    obtain ⟨a₄, e₄, h₄, -⟩ := (lays_cons.1 h₃).rotate (Frame.link_plug ..) hro
    refine ⟨a₄, ?_, h₄⟩
    simp [Arena.relieve, hs, hu, e₁, e₂, e₃, e₄, Traced.done_bind, Traced.pure_eq]

theorem Lays.relieve_raised (h : a.Lays (f :: g :: p) t)
    (hr : f.relieve g t = .done (.raised u) ts) :
    ∃ a', a.relieve i f.value.1 g.value.1 =
        .done (.again (a', g.value.1)) (ts.map Rotation.event) ∧
      a'.Lays p u ∧ u.link = some g.value.1 := by
  have hs := (lays_cons.1 h).sideOf (Frame.link_plug ..)
  have hu := (lays_cons.1 h).redChild_frame
  unfold Frame.relieve at hr
  split at hr
  · rename_i hg
    cases hr
    rw [if_pos hg] at hu
    obtain ⟨j, hj⟩ : ∃ j, g.sibling.link = some j := by
      cases hx : g.sibling with
      | nil => rw [hx] at hg; cases hg
      | node c l x r => exact ⟨x.1, rfl⟩
    obtain ⟨a₁, e₁, h₁⟩ := (lays_cons.1 h).setColor (Frame.link_plug ..) .black
    obtain ⟨a₂, e₂, h₂⟩ := h₁.paint_sibling hj .black
    obtain ⟨a₃, e₃, h₃⟩ := h₂.paint_frame .red
    refine ⟨a₃, ?_, lays_cons.1 h₃, Tree.link_branch ..⟩
    simp [Arena.relieve, hs, hu, hj, e₁, e₂, e₃, Traced.pure_eq]
  · simp only [Traced.bind_eq_done_iff] at hr
    obtain ⟨_, _, _, -, ⟨_, _, _, -, hr, -⟩, -⟩ := hr
    cases hr

theorem Lays.redRound_cons (h : a.Lays (f :: g :: p) t) (hi : t.link = some i)
    (hf : f.color = .red) : redRound (a, i) = a.relieve i f.value.1 g.value.1 := by
  obtain ⟨n, hn, hp, -⟩ := h.exists_node hi
  simp [redRound, hn, hp, h.node_frame, Node.isRed, hf]

theorem Lays.redRound_black (h : a.Lays (f :: p) t) (hi : t.link = some i)
    (hf : f.color = .black) : redRound (a, i) = .done (.over a) [] := by
  obtain ⟨n, hn, hp, -⟩ := h.exists_node hi
  simp [redRound, hn, hp, h.node_frame, Node.isRed, hf, Traced.pure_eq]

theorem Lays.redRound_root (h : a.Lays [] t) (hi : t.link = some i) :
    ∃ a', a.setColor i .black = .ok a' ∧ redRound (a, i) = .done (.over a') [] ∧
      a'.Lays [] (t.paint .black) := by
  obtain ⟨n, hn, hp, -⟩ := h.exists_node hi
  obtain ⟨a', ha, h'⟩ := h.setColor hi .black
  refine ⟨a', ha, ?_, h'⟩
  simp [redRound, hn, hp, ha, Traced.pure_eq]

/-- The rounds of the repair, each of which takes two frames off the path, end within the path. -/
theorem Lays.climbs_redRound (h : a.Lays p t) (hi : t.link = some i)
    (hr : Path.repairRed p t = .done u ts) :
    ∃ a', Climbs redRound 2 p.length (a, i) a' (ts.map Rotation.event) ∧ a'.Lays [] u := by
  fun_induction Path.repairRed p t generalizing a i u ts with
  | case1 t =>
    cases hr
    obtain ⟨a', -, ha, h'⟩ := h.redRound_root hi
    exact ⟨a', .ended (h.atDepth hi) ha, h'⟩
  | case2 f t hf =>
    cases hr
    exact ⟨a, .ended (h.atDepth hi) (h.redRound_black hi hf), lays_cons.1 h⟩
  | case3 f t hf => cases hr
  | case4 f g rest t hf =>
    cases hr
    exact ⟨a, .ended (h.atDepth hi) (h.redRound_black hi hf), lays_fill.2 h⟩
  | case5 f g rest t hf ih =>
    obtain ⟨r, ts₁, ts₂, hs, hu, rfl⟩ := Traced.bind_eq_done_iff.1 hr
    have hd := h.atDepth hi
    cases r with
    | settled w =>
      cases hu
      obtain ⟨a', ha, h'⟩ := h.relieve_settled hi hs
      rw [← h.redRound_cons hi hf] at ha
      exact ⟨a', by simpa using Climbs.ended hd ha, lays_fill.2 h'⟩
    | raised w =>
      obtain rfl := Frame.events_relieve_raised hs
      obtain ⟨a₁, ha, h₁, hw⟩ := h.relieve_raised (i := i) hs
      rw [← h.redRound_cons hi hf] at ha
      have hg : a.ancestor 2 i = some g.value.1 :=
        (h.ancestor_succ hi).trans ((lays_cons.1 h).ancestor_succ (Frame.link_plug ..))
      obtain ⟨a₂, hc, h₂⟩ := ih w h₁ hw hu
      exact ⟨a₂, .climbed hd hg ha hc, h₂⟩

theorem Lays.repairRed (h : a.Lays p t) (hi : t.link = some i)
    (hr : Path.repairRed p t = .done u ts) :
    ∃ a', Climbs redRound 2 p.length (a, i) a' (ts.map Rotation.event) ∧
      a.repairRed i = .done a' (ts.map Rotation.event) ∧ a'.Lays [] u := by
  have hn := h.length_add_count_le
  obtain ⟨a', hc, h'⟩ := h.climbs_redRound hi hr
  exact ⟨a', hc, hc.loop_eq (by omega) (by omega), h'⟩

theorem Lays.loop_descentRound (h : a.Lays p t) (cut : α → Ordering) {n : Nat} (hn : t.height < n) :
    RedBlack.loop (a.descentRound cut) n ⟨Path.link p, Path.holeSide p, t.link⟩ =
      .ok (match t.zoom (fun x => cut x.2) p with
        | (q, .nil) => some (Path.link q, Path.holeSide q)
        | (_, .node ..) => none) := by
  induction t generalizing p n with
  | nil =>
    obtain ⟨n, rfl⟩ : ∃ k, n = k + 1 := ⟨n - 1, by omega⟩
    exact loop_over n rfl
  | node c l x r hl hr =>
    obtain ⟨n, rfl⟩ : ∃ k, n = k + 1 := ⟨n - 1, by omega⟩
    have hx := h.node
    simp only [Tree.height] at hn
    simp only [Tree.zoom]
    cases hc : cut x.2 with
    | lt =>
      have h' : a.Lays (⟨.left, c, x, r⟩ :: p) l := lays_cons.2 h
      rw [loop_again n (t := ⟨some x.1, .left, l.link⟩)]
      · exact hl h' (by omega)
      · simp [descentRound, hx, hc]; rfl
    | gt =>
      have h' : a.Lays (⟨.right, c, x, l⟩ :: p) r := lays_cons.2 h
      rw [loop_again n (t := ⟨some x.1, .right, r.link⟩)]
      · exact hr h' (by omega)
      · simp [descentRound, hx, hc]; rfl
    | eq =>
      rw [loop_over n (b := none)]
      simp [descentRound, hx, hc]; rfl

theorem Lays.descend (h : a.Lays [] t) (cut : α → Ordering) :
    a.descend cut = .ok (match t.zoom (fun x => cut x.2) [] with
      | (q, .nil) => some (Path.link q, Path.holeSide q)
      | (_, .node ..) => none) := by
  have hh := t.height_le_count
  have hs := h.size_eq
  have hr : a.root = t.link := Holds.root_eq h
  rw [Arena.descend, Arena.loop, hr]
  exact h.loop_descentRound cut (by omega)

theorem Lays.attach {q : Path (Nat × α)} (h : a.Lays q .nil) (v : α) :
    ∃ a', a.attach v (Path.link q) (Path.holeSide q) = .ok a' ∧
      a'.Lays q (.node .red .nil (a.size, v) .nil) := by
  have hg := Holds.push h ⟨v, .red, Path.link q, none, none⟩
  cases q with
  | nil =>
    exact ⟨_, rfl, (hg.setRoot (some a.size)).congr (by simp [Path.cells, Tree.cells])⟩
  | cons f q =>
    obtain ⟨a', ha, h'⟩ := (hg.congr (k :=
      {(f.value.1, Node.join f.side f.value.2 f.color (Path.link q) none f.sibling.link)} +
        ({(a.size, ⟨v, .red, some f.value.1, none, none⟩)} +
          (f.sibling.cells (some f.value.1) + Path.cells q (some f.value.1))))
      (by simp only [Path.cells, Tree.cells, Tree.link_nil, Path.link_cons]; abel)).modify
        fun n => n.withChild f.side (some a.size)
    refine ⟨a', ha, h'.congr ?_⟩
    simp only [Path.cells, Tree.cells, Tree.link_node, Tree.link_nil, Path.link_cons,
      Node.withChild_join_self]
    abel

/-- What the insertion of a new value consists of: the search for its place, a red leaf there, and
the repair that climbs from it. -/
theorem Lays.insert_new {u u' : Layout α} {compare : α → α → Ordering} {v : α} (h : a.Lays [] u)
    (hr : u.insert? (fun x y => compare x.2 y.2) (a.size, v) = .done (some u') ts) :
    ∃ parent side b a' k, a.descend (compare v) = .ok (some (parent, side)) ∧
      a.attach v parent side = .ok b ∧ Climbs redRound 2 k (b, a.size) a' (ts.map Rotation.event) ∧
        a.insert compare v = .done (true, a') (ts.map Rotation.event) ∧ a'.Lays [] u' := by
  have hd := h.descend (compare v)
  have hz := Tree.fill_zoom (fun x => compare v x.2) u []
  simp only [Tree.insert?] at hr
  cases hq : u.zoom (fun x => compare v x.2) [] with
  | mk q t =>
    rw [hq] at hr hd hz
    cases t with
    | node c l x y => cases hr
    | nil =>
      obtain ⟨w, ts₁, ts₂, hw, he, rfl⟩ := Traced.bind_eq_done_iff.1 hr
      cases he
      have hl : a.Lays q .nil := by
        rw [← lays_fill]
        exact hz ▸ h
      obtain ⟨b, e₁, h₁⟩ := hl.attach v
      obtain ⟨a', hc, e₂, h'⟩ := h₁.repairRed rfl hw
      rw [List.append_nil]
      refine ⟨_, _, b, a', _, hd, e₁, hc, ?_, h'⟩
      simp [Arena.insert, hd, e₁, e₂, Traced.done_bind, Traced.pure_eq]

theorem Lays.insert_present {u : Layout α} {compare : α → α → Ordering} {v : α} (h : a.Lays [] u)
    (hr : u.insert? (fun x y => compare x.2 y.2) (a.size, v) = .done none ts) :
    a.insert compare v = .done (false, a) (ts.map Rotation.event) := by
  have hd := h.descend (compare v)
  simp only [Tree.insert?] at hr
  cases hq : u.zoom (fun x => compare v x.2) [] with
  | mk q t =>
    rw [hq] at hr hd
    cases t with
    | node c l x y =>
      cases hr
      simp [Arena.insert, hd, Traced.pure_eq]
    | nil =>
      obtain ⟨w, ts₁, ts₂, hw, he, rfl⟩ := Traced.bind_eq_done_iff.1 hr
      cases he

section Shows
variable {t : Tree α} {compare : α → α → Ordering} {v : α} {r : Option (Tree α)}
  {us : List (Rotation α)}

theorem Shows.exists_insert? (h : a.Shows t) (hr : t.insert? compare v = .done r us) :
    ∃ u r' ts, a.Lays [] u ∧
      u.insert? (fun x y => compare x.2 y.2) (a.size, v) = .done r' ts ∧
        r'.map (Tree.map Prod.snd) = r ∧ ts.map (Rotation.map Prod.snd) = us := by
  obtain ⟨u, hu, rfl⟩ := h
  have hm := Tree.map_insert? Prod.snd compare (a.size, v) u
  rw [hr] at hm
  obtain ⟨r', hr', rfl⟩ := Traced.map_eq_done_iff.1 hm.symm
  obtain ⟨ts, hts, rfl⟩ := Traced.relabel_eq_done_iff.1 hr'
  exact ⟨u, r', ts, hu, hts, rfl, rfl⟩

theorem Shows.insert (h : a.Shows t) (hr : t.insert? compare v = .done r us) :
    ∃ es, Tells es us ∧
      match r with
      | none => a.insert compare v = .done (false, a) es
      | some t' => ∃ a', a.insert compare v = .done (true, a') es ∧ a'.Shows t' := by
  obtain ⟨u, r', ts, hu, hr', rfl, rfl⟩ := h.exists_insert? hr
  refine ⟨ts.map Rotation.event, ⟨ts, rfl, rfl⟩, ?_⟩
  cases r' with
  | none => exact hu.insert_present hr'
  | some u' =>
    obtain ⟨-, -, -, a', -, -, -, -, ha, h'⟩ := hu.insert_new hr'
    exact ⟨a', ha, u', h', rfl⟩

end Shows
end Arena
end RedBlack
