import RedBlack.Arena.Basic
import RedBlack.Proofs.Arena.Layout
import RedBlack.Tree.Insertion

set_option autoImplicit false

namespace RedBlack

/-- A rotation in a layout, as an event in the arena. -/
def Rotation.event {α : Type} (t : Rotation (Nat × α)) : Event := .rotated (t.map Prod.fst)

/-- Events that tell these rotations one by one, of the same nodes by their indices. -/
def Tells {α : Type} (es : List Event) (ts : List (Rotation α)) : Prop :=
  ∃ us : List (Rotation (Nat × α)), us.map Rotation.event = es ∧ us.map (Rotation.map Prod.snd) = ts

theorem Tells.nil {α : Type} : Tells [] ([] : List (Rotation α)) := ⟨[], rfl, rfl⟩

namespace Arena
variable {α : Type} {a : Arena α} {root : Link} {m : Multiset (Cell α)}

theorem Holds.adopt {t : Layout α} {up : Link} (h : a.Holds root (t.cells up + m)) (l : Link) :
    ∃ a', a.adopt t.link l = .ok a' ∧ a'.Holds root (t.cells l + m) := by
  cases t with
  | nil => exact ⟨a, rfl, h⟩
  | node c x v y =>
    simp only [Tree.cells, add_assoc] at h ⊢
    exact h.modify fun n => { n with parent := l }

theorem Holds.sideOf {s : Side} {v : α} {c : Color} {up outer : Link} {i j : Nat}
    (h : a.Holds root m) (hj : (j, Node.join s v c up (some i) outer) ∈ m)
    (ho : outer ≠ some i) : a.sideOf j i = .ok s := by
  cases s with
  | left => simp [Arena.sideOf, h.node hj, Node.join, pure, Except.pure]
  | right => simp [Arena.sideOf, h.node hj, Node.join, ho, pure, Except.pure]

theorem Holds.replaceChild {p : Path (Nat × α)} {i : Nat}
    (h : a.Holds (Path.top (some i) p) (Path.cells p (some i) + m))
    (hp : ∀ f ∈ p.head?, f.sibling.link ≠ some i) (l : Link) :
    ∃ a', a.replaceChild (Path.link p) i l = .ok a' ∧
      a'.Holds (Path.top l p) (Path.cells p l + m) := by
  cases p with
  | nil => exact ⟨⟨a.nodes, l⟩, rfl, rfl, h.nodup, h.size_eq, h.get⟩
  | cons f p =>
    have hs : a.sideOf f.value.1 i = .ok f.side :=
      h.sideOf (by simp [Path.cells]; exact Or.inl rfl) (hp f rfl)
    simp only [Path.cells, add_assoc] at h ⊢
    obtain ⟨a', ha, h'⟩ := h.modify fun n => n.withChild f.side l
    rw [Node.withChild_join_self] at h'
    refine ⟨a', ?_, h'⟩
    simp only [Arena.replaceChild, Path.link_cons, hs, ok_bind]
    exact ha

theorem Holds.sibling_ne {p : Path (Nat × α)} {l : Link} {i : Nat}
    (h : a.Holds root (Path.cells p l + m)) (hi : i ∈ m.map Prod.fst) :
    ∀ f ∈ p.head?, f.sibling.link ≠ some i := by
  intro f hf hs
  cases p with
  | nil => cases hf
  | cons f p =>
    cases hf
    refine h.ne ?_ hi rfl
    have hc := Tree.mem_cells_of_link hs (some f.value.1)
    simp only [Path.cells, Multiset.map_add, Multiset.mem_add]
    exact Or.inl (Or.inr hc)

section Focus
variable {p : Path (Nat × α)} {t : Layout α} {i : Nat}

theorem Lays.node_branch {s : Side} {c : Color} {x : Nat × α} {u : Layout α}
    (h : a.Lays p (.branch s c t x u)) :
    a.node x.1 = .ok (Node.join s x.2 c (Path.link p) t.link u.link) :=
  h.node (by rw [Tree.cells_branch]; simp)

theorem Lays.node {c : Color} {l r : Layout α} {x : Nat × α} (h : a.Lays p (.node c l x r)) :
    a.node x.1 = .ok ⟨x.2, c, Path.link p, l.link, r.link⟩ :=
  Lays.node_branch (s := .left) h

theorem Lays.exists_node (h : a.Lays p t) (hi : t.link = some i) :
    ∃ n, a.node i = .ok n ∧ n.parent = Path.link p ∧ n.isRed = t.isRed := by
  cases t with
  | nil => cases hi
  | node c l x r =>
    cases hi
    exact ⟨_, h.node, rfl, by cases c <;> rfl⟩

theorem Lays.modify {c d : Color} {l r : Layout α} {x : Nat × α} {v : α} {f : Node α → Node α}
    (h : a.Lays p (.node c l x r)) (hf : ∀ up i j, f ⟨x.2, c, up, i, j⟩ = ⟨v, d, up, i, j⟩) :
    ∃ a', a.modify x.1 f = .ok a' ∧ a'.Lays p (.node d l (x.1, v) r) := by
  have e : Path.cells p (some x.1) + (Tree.node c l x r).cells (Path.link p) =
      {(x.1, ⟨x.2, c, Path.link p, l.link, r.link⟩)} +
        (Path.cells p (some x.1) + (l.cells (some x.1) + r.cells (some x.1))) := by
    simp only [Tree.cells]
    abel
  obtain ⟨a', ha, h'⟩ := (Holds.congr h e).modify f
  refine ⟨a', ha, h'.congr ?_⟩
  simp only [hf, Tree.link_node, Tree.cells]
  abel

theorem Lays.setColor (h : a.Lays p t) (hi : t.link = some i) (c : Color) :
    ∃ a', a.setColor i c = .ok a' ∧ a'.Lays p (t.paint c) := by
  cases t with
  | nil => cases hi
  | node d l x r =>
    cases hi
    exact h.modify fun up i j => rfl

theorem Lays.setValue {s : Side} {c : Color} {x : Nat × α} {u : Layout α}
    (h : a.Lays p (.branch s c t x u)) (v : α) :
    ∃ a', a.setValue x.1 v = .ok a' ∧ a'.Lays p (.branch s c t (x.1, v) u) := by
  cases s <;> exact Lays.modify h fun up i j => rfl

theorem Lays.sideOf {f : Frame (Nat × α)} (h : a.Lays (f :: p) t) (hi : t.link = some i) :
    a.sideOf f.value.1 i = .ok f.side := by
  have hs := Holds.sibling_ne h (Tree.mem_cells_of_link hi _) f rfl
  have hf : (f.value.1, Node.join f.side f.value.2 f.color (Path.link p) (some i) f.sibling.link) ∈
      Path.cells (f :: p) t.link + t.cells (Path.link (f :: p)) := by
    simp [Path.cells, hi]
  exact Holds.sideOf h hf hs

end Focus

theorem Lays.rotate_branch {p : Path (Nat × α)} {s : Side} {c d : Color} {x y : Nat × α}
    {near inner outer : Layout α}
    (h : a.Lays p (.branch s c near x (.branch s d inner y outer))) :
    ∃ a', a.rotate x.1 s = .done a' [.rotated ⟨s, x.1, y.1⟩] ∧
      a'.Lays p (.branch s d (.branch s c near x inner) y outer) := by
  have hx := h.node_branch
  have hy : a.node y.1 = .ok (Node.join s y.2 d (some x.1) inner.link outer.link) :=
    Holds.node h (by simp [Tree.cells_branch])
  simp only [Tree.link_branch] at hx
  have hne := Holds.sibling_ne (i := x.1) h (by simp [Tree.cells_branch])
  -- all the cells but those of the path, of the two nodes and of the subtree between them
  let rest := near.cells (some x.1) + outer.cells (some y.1)
  have h₀ : a.Holds (Path.top (some x.1) p)
      ({(x.1, Node.join s x.2 c (Path.link p) near.link (some y.1))} +
        (Path.cells p (some x.1) + ({(y.1, Node.join s y.2 d (some x.1) inner.link outer.link)} +
          (inner.cells (some y.1) + rest)))) := by
    unfold Lays at h
    rw [Tree.link_branch] at h
    refine h.congr ?_
    simp only [Tree.cells_branch, Tree.link_branch, rest]
    abel
  obtain ⟨a₁, e₁, h₁⟩ := h₀.modify fun n => n.withChild s.opposite inner.link
  obtain ⟨a₂, e₂, h₂⟩ := (h₁.congr (k := inner.cells (some y.1) +
    ({(x.1, Node.join s x.2 c (Path.link p) near.link inner.link)} +
      (Path.cells p (some x.1) + ({(y.1, Node.join s y.2 d (some x.1) inner.link outer.link)} +
        rest)))) (by rw [Node.withChild_join_opposite]; abel)).adopt (some x.1)
  obtain ⟨a₃, e₃, h₃⟩ := (h₂.congr (k :=
    {(y.1, Node.join s y.2 d (some x.1) inner.link outer.link)} + (inner.cells (some x.1) +
      ({(x.1, Node.join s x.2 c (Path.link p) near.link inner.link)} +
        (Path.cells p (some x.1) + rest)))) (by abel)).modify
      fun n => { n with parent := Path.link p }
  obtain ⟨a₄, e₄, h₄⟩ := (h₃.congr (k := Path.cells p (some x.1) +
    ({(y.1, Node.join s y.2 d (Path.link p) inner.link outer.link)} + (inner.cells (some x.1) +
      ({(x.1, Node.join s x.2 c (Path.link p) near.link inner.link)} + rest))))
    (by rw [Node.withParent_join]; abel)).replaceChild hne (some y.1)
  obtain ⟨a₅, e₅, h₅⟩ := (h₄.congr (k :=
    {(y.1, Node.join s y.2 d (Path.link p) inner.link outer.link)} + (Path.cells p (some y.1) +
      (inner.cells (some x.1) +
        ({(x.1, Node.join s x.2 c (Path.link p) near.link inner.link)} + rest))))
    (by abel)).modify fun n => n.withChild s (some x.1)
  obtain ⟨a₆, e₆, h₆⟩ := (h₅.congr (k :=
    {(x.1, Node.join s x.2 c (Path.link p) near.link inner.link)} + (Path.cells p (some y.1) +
      (inner.cells (some x.1) +
        ({(y.1, Node.join s y.2 d (Path.link p) (some x.1) outer.link)} + rest))))
    (by rw [Node.withChild_join_self]; abel)).modify fun n => { n with parent := some y.1 }
  refine ⟨a₆, ?_, ?_⟩
  · simp [Arena.rotate, hx, hy, Arena.setChild, Arena.setParent, e₁, e₂, e₃, e₄, e₅, e₆,
      Traced.emit, Traced.done_bind, Traced.pure_eq]
  · unfold Lays
    rw [Tree.link_branch]
    refine h₆.congr ?_
    simp only [Tree.cells_branch, Tree.link_branch, Node.withParent_join, rest]
    abel

theorem Lays.rotate {p : Path (Nat × α)} {t u : Layout α} {i : Nat} {s : Side}
    {ts : List (Rotation (Nat × α))} (h : a.Lays p t) (hi : t.link = some i)
    (hr : t.rotate s = .done u ts) :
    ∃ a', a.rotate i s = .done a' (ts.map Rotation.event) ∧ a'.Lays p u ∧
      u.link = (t.child s.opposite).link := by
  unfold Tree.rotate at hr
  split at hr
  · rename_i c l x r
    cases hi
    split at hr
    · cases hr
      obtain ⟨a', ha, h'⟩ := Lays.rotate_branch (s := .left) h
      exact ⟨a', ha, h', rfl⟩
    · cases hr
      obtain ⟨a', ha, h'⟩ := Lays.rotate_branch (s := .right) h
      exact ⟨a', ha, h', rfl⟩
    · cases hr
  · cases hr

theorem Lays.rotate_frame {p : Path (Nat × α)} {t : Layout α} {f inner outer : Frame (Nat × α)}
    {ts : List (Rotation (Nat × α))} (h : a.Lays (f :: p) t)
    (hr : f.rotate = .done (inner, outer) ts) :
    ∃ a', a.rotate f.value.1 f.side = .done a' (ts.map Rotation.event) ∧
      a'.Lays (inner :: outer :: p) t := by
  obtain ⟨s, c, x, u⟩ := f
  have hf : (Frame.plug ⟨s, c, x, u⟩ t).rotate s = .done (outer.plug (inner.plug t)) ts := by
    cases u with
    | nil => cases hr
    | node d l y r => cases s <;> cases hr <;> rfl
  obtain ⟨a', ha, h', -⟩ := (lays_cons.1 h).rotate (Frame.link_plug ..) hf
  exact ⟨a', ha, lays_cons.2 (lays_cons.2 h')⟩

section Frame
variable {p : Path (Nat × α)} {t : Layout α} {f : Frame (Nat × α)}

theorem Lays.paint_frame (h : a.Lays (f :: p) t) (c : Color) :
    ∃ a', a.setColor f.value.1 c = .ok a' ∧ a'.Lays ({ f with color := c } :: p) t := by
  obtain ⟨a', ha, h'⟩ := (lays_cons.1 h).setColor (Frame.link_plug ..) c
  rw [Frame.plug, Tree.paint_branch] at h'
  exact ⟨a', ha, lays_cons.2 h'⟩

theorem lays_flip :
    a.Lays (f :: p) t ↔ a.Lays (⟨f.side.opposite, f.color, f.value, t⟩ :: p) f.sibling := by
  rw [lays_cons, lays_cons]
  obtain ⟨s, c, x, u⟩ := f
  cases s <;> rfl

theorem Lays.paint_sibling {j : Nat} (h : a.Lays (f :: p) t) (hj : f.sibling.link = some j)
    (c : Color) :
    ∃ a', a.setColor j c = .ok a' ∧ a'.Lays ({ f with sibling := f.sibling.paint c } :: p) t := by
  obtain ⟨a', ha, h'⟩ := (lays_flip.1 h).setColor hj c
  exact ⟨a', ha, lays_flip.2 h'⟩

theorem Lays.node_frame (h : a.Lays (f :: p) t) :
    a.node f.value.1 =
      .ok (Node.join f.side f.value.2 f.color (Path.link p) t.link f.sibling.link) :=
  (lays_cons.1 h).node_branch

end Frame

theorem Lays.redChild {p : Path (Nat × α)} {t : Layout α} {i : Nat} (h : a.Lays p t)
    (hi : t.link = some i) (s : Side) :
    a.redChild i s = .ok (if (t.child s).isRed then (t.child s).link else none) := by
  obtain ⟨c, near, x, far, rfl⟩ := Tree.exists_branch s hi
  rw [Tree.link_branch] at hi
  cases hi
  simp only [Arena.redChild, h.node_branch, ok_bind, Node.child_join_self, Tree.child_branch_self]
  cases hl : near.link with
  | none =>
    rw [Tree.eq_nil_of_link hl]
    rfl
  | some j =>
    have h' : a.Lays (⟨s, c, x, far⟩ :: p) near := lays_cons.2 h
    obtain ⟨n, hn, -, hr⟩ := h'.exists_node hl
    simp only [hn, ok_bind, hr]
    rfl

theorem Lays.redChild_frame {p : Path (Nat × α)} {f : Frame (Nat × α)} {t : Layout α}
    (h : a.Lays (f :: p) t) :
    a.redChild f.value.1 f.side.opposite =
      .ok (if f.sibling.isRed then f.sibling.link else none) := by
  have hr := (lays_cons.1 h).redChild (Frame.link_plug ..) f.side.opposite
  rwa [Frame.plug, Tree.child_branch_opposite] at hr

end Arena
end RedBlack
