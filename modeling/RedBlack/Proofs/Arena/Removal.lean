import RedBlack.Proofs.Arena.Deficit
import RedBlack.Proofs.Arena.Search

set_option autoImplicit false

namespace RedBlack.Arena
variable {α : Type} {a : Arena α} {p q : Path (Nat × α)} {f : Frame (Nat × α)} {t u : Layout α}
  {i j : Nat} {ts : List (Rotation (Nat × α))}

theorem Lays.bypass {s : Side} {c : Color} {x : Nat × α}
    (h : a.Lays p (.branch s c .nil x u)) :
    ∃ a' n, a.bypass x.1 u.link = .ok a' ∧ n.value = x.2 ∧
      a'.Holds (Path.fill p u).link ({(x.1, n)} + (Path.fill p u).cells none) := by
  have hne := Holds.sibling_ne (i := x.1) h (by simp [Tree.cells_branch])
  let n : Node α := Node.join s x.2 c (Path.link p) none u.link
  have h₀ : a.Holds (Path.top (some x.1) p)
      (u.cells (some x.1) + (Path.cells p (some x.1) + {(x.1, n)})) := by
    unfold Lays at h
    rw [Tree.link_branch] at h
    refine h.congr ?_
    simp only [Tree.cells_branch, Tree.cells, Tree.link_nil, n]
    abel
  obtain ⟨a₁, e₁, h₁⟩ := h₀.adopt (Path.link p)
  obtain ⟨a₂, e₂, h₂⟩ := (h₁.congr (k := Path.cells p (some x.1) +
    (u.cells (Path.link p) + {(x.1, n)})) (by abel)).replaceChild hne u.link
  refine ⟨a₂, n, ?_, Node.value_join .., ?_⟩
  · simp only [Arena.bypass, h.node_branch, ok_bind, Node.parent_join, e₁, e₂]
  · rw [Path.link_fill, Path.cells_fill]
    refine h₂.congr ?_
    abel

theorem Lays.node_alone {s : Side} {c : Color} {x : Nat × α}
    (h : a.Lays p (.branch s c .nil x u)) :
    ∃ n, a.node x.1 = .ok n ∧ n.color = c ∧ n.left.or n.right = u.link := by
  refine ⟨_, h.node_branch, Node.color_join .., ?_⟩
  cases s
  · rfl
  · cases u <;> rfl

theorem Lays.splice {s : Side} {c : Color} {x : Nat × α} {w : Layout α}
    (h : a.Lays p (.branch s c .nil x u)) (hr : Path.splice p c u = .done w ts) :
    ∃ a' n, a.splice x.1 = .done a' (ts.map Rotation.event) ∧ n.value = x.2 ∧
      a'.Holds w.link ({(x.1, n)} + w.cells none) := by
  obtain ⟨n, hn, hc, hchild⟩ := h.node_alone
  unfold Path.splice at hr
  split at hr
  · cases hr
    obtain ⟨a₁, m, e₁, hv, h₁⟩ := h.bypass
    refine ⟨a₁, m, ?_, hv, h₁⟩
    simp [Arena.splice, hn, Node.isRed, hc, hchild, e₁, Traced.pure_eq]
  · obtain ⟨q, ts₁, ts₂, hq, hw, rfl⟩ := Traced.bind_eq_done_iff.1 hr
    cases hw
    obtain ⟨a₁, e₁, h₁⟩ := h.repairDeficit (Tree.link_branch ..) hq
    obtain ⟨a₂, m, e₂, hv, h₂⟩ := h₁.bypass
    refine ⟨a₂, m, ?_, hv, h₂⟩
    rw [Tree.link_nil] at hchild e₂
    simp [Arena.splice, hn, Node.isRed, hc, hchild, e₁, e₂, Traced.done_bind, Traced.pure_eq]
  · cases hr
    rename_i hu
    obtain ⟨j, hj⟩ : ∃ j, u.link = some j := by
      cases u with
      | nil => exact (hu rfl).elim
      | node d l y r => exact ⟨y.1, rfl⟩
    obtain ⟨a₁, e₁, h₁⟩ := h.paint_child (s := s.opposite) (by simpa using hj) .black
    rw [Tree.paintChild_branch_opposite] at h₁
    obtain ⟨a₂, m, e₂, hv, h₂⟩ := h₁.bypass
    refine ⟨a₂, m, ?_, hv, h₂⟩
    rw [Tree.link_paint, hj] at e₂
    rw [hj] at hchild
    simp [Arena.splice, hn, Node.isRed, hc, hchild, e₁, e₂, Traced.pure_eq]

theorem Holds.release_moved {x : Node α} {c : Color} {l r : Layout α} {y : Nat × α}
    (h : a.Holds (Path.fill p (.node c l y r)).link
      ({(i, x)} + (Path.fill p (.node c l y r)).cells none)) (hy : y.1 + 1 = a.size) :
    ∃ a', a.release i = .ok (x.value, a') ∧ a'.Lays p (.node c l (i, y.2) r) := by
  rw [Path.link_fill, Path.cells_fill, Tree.link_node, Tree.cells] at h
  let moved : Node α := ⟨y.2, c, Path.link p, l.link, r.link⟩
  have hx : a.node i = .ok x := h.node (by simp)
  have hm : a.node y.1 = .ok moved := h.node (by simp [moved])
  have hi : i ≠ y.1 := h.ne (by simp) (by simp)
  have hne : ∀ f ∈ p.head?, f.sibling.link ≠ some y.1 :=
    Holds.sibling_ne (m := {(y.1, moved)} + (l.cells (some y.1) + r.cells (some y.1)) + {(i, x)})
      (h.congr (by simp only [moved]; abel)) (by simp)
  have hs := (h.congr (k := {(i, x)} + ({(y.1, moved)} + (Path.cells p (some y.1) +
    (l.cells (some y.1) + r.cells (some y.1))))) (by simp only [moved]; abel)).set moved
  have hp := (hs.congr (k := {(y.1, moved)} + (Path.cells p (some y.1) + ({(i, moved)} +
    (l.cells (some y.1) + r.cells (some y.1))))) (by abel)).pop (by simpa [Arena.size] using hy)
  obtain ⟨a₁, e₁, h₁⟩ := hp.replaceChild hne (some i)
  obtain ⟨a₂, e₂, h₂⟩ := (h₁.congr (k := l.cells (some y.1) + (Path.cells p (some i) +
    ({(i, moved)} + r.cells (some y.1)))) (by abel)).adopt (some i)
  obtain ⟨a₃, e₃, h₃⟩ := (h₂.congr (k := r.cells (some y.1) + (Path.cells p (some i) +
    ({(i, moved)} + l.cells (some i)))) (by abel)).adopt (some i)
  refine ⟨a₃, ?_, h₃.congr ?_⟩
  · have hlast : a.size - 1 = y.1 := by omega
    simp only [Arena.release, hx, ok_bind, hlast, hm, if_neg hi, moved, e₁, e₂, e₃]
    rfl
  · simp only [Tree.link_node, Tree.cells, moved]
    abel

/-- The released slot is filled with the last node, and that only moves. -/
theorem Holds.release {x : Node α} (h : a.Holds t.link ({(i, x)} + t.cells none)) :
    ∃ a' t', a.release i = .ok (x.value, a') ∧ a'.Lays [] t' ∧
      t'.map Prod.snd = t.map Prod.snd := by
  have hx : a.node i = .ok x := h.node (by simp)
  have hi : i < a.size := h.lt_size (by simp)
  have hlast := h.mem (i := a.size - 1) (by omega)
  rw [Multiset.map_add, Multiset.map_singleton, Multiset.mem_add, Multiset.mem_singleton] at hlast
  rcases hlast with hl | hl
  · refine ⟨⟨(a.nodes.setIfInBounds i x).pop, a.root⟩, t, ?_, ?_, rfl⟩
    · dsimp only at hl
      simp only [Arena.release, hx, ok_bind, hl, if_pos]
      rfl
    · refine lays_nil.2 ((h.set x).pop ?_)
      simp only [Arena.size, Array.size_setIfInBounds] at hi hl ⊢
      omega
  · obtain ⟨p, c, l, y, r, hy, rfl⟩ := Tree.exists_fill hl
    obtain ⟨a', ha, h'⟩ := h.release_moved (by omega)
    refine ⟨a', _, ha, lays_fill.2 h', ?_⟩
    rw [← Path.map_fill, ← Path.map_fill]
    rfl

theorem Lays.swapValues {c d : Color} {r : Layout α} {x y : Nat × α} {s k : Side}
    (h : a.Lays (q ++ ⟨s, c, x, r⟩ :: p) (.branch k d t y u)) :
    ∃ a', a.swapValues x.1 y.1 = .ok a' ∧
      a'.Lays (q ++ ⟨s, c, (x.1, y.2), r⟩ :: p) (.branch k d t (y.1, x.2) u) := by
  have hy := h.node_branch
  have h₀ := lays_append.1 h
  have hx := h₀.node_branch
  have hne : x.1 ≠ y.1 := by
    have hc : a.Holds (Path.top (some x.1) p) ({(x.1, Node.join s x.2 c (Path.link p)
        (Path.fill q (.branch k d t y u)).link r.link)} +
          ((Path.fill q (.branch k d t y u)).cells (some x.1) + (r.cells (some x.1) +
            Path.cells p (some x.1)))) := by
      unfold Lays at h₀
      rw [Frame.link_plug] at h₀
      refine h₀.congr ?_
      simp only [Frame.plug, Tree.cells_branch]
      abel
    refine hc.ne (by simp) ?_
    rw [Multiset.map_add]
    refine Multiset.mem_add.2 (Or.inl (Tree.mem_cells_fill (fun up => ?_) q _))
    exact Tree.mem_cells_of_link (Tree.link_branch ..) up
  obtain ⟨a₁, e₁, h₁⟩ := h₀.setValue y.2
  have h₁' : a₁.Lays (q ++ ⟨s, c, (x.1, y.2), r⟩ :: p) (.branch k d t y u) := lays_append.2 h₁
  obtain ⟨a₂, e₂, h₂⟩ := h₁'.setValue x.2
  refine ⟨a₂, ?_, h₂⟩
  dsimp only at hx e₁
  simp [Arena.swapValues, if_neg hne, Arena.value, hx, hy, e₁, e₂]

theorem Lays.remove_alone {s : Side} {c : Color} {x : Nat × α} {w : Layout α}
    (h : a.Lays p (.branch s c .nil x u)) (hr : Path.splice p c u = .done w ts) :
    ∃ a₁ a₂, a.splice x.1 = .done a₁ (ts.map Rotation.event) ∧ a₁.release x.1 = .ok (x.2, a₂) ∧
      a₂.Shows (w.map Prod.snd) := by
  obtain ⟨a₁, n, e₁, hv, h₁⟩ := h.splice hr
  obtain ⟨a₂, t', e₂, h₂, ht⟩ := h₁.release
  exact ⟨a₁, a₂, e₁, hv ▸ e₂, t', h₂, ht⟩

/-- The node of a value in the middle passes it on to the node before, which leaves instead. -/
theorem Lays.yield_inner {c e : Color} {l r w : Layout α} {x y : Nat × α} {s : Side}
    (h : a.Lays p (.node c l x r)) (hl : l.extreme .right = some (⟨s, e, y, w⟩, q))
    (hr : r.link = some j) :
    ∃ a', a.yield x.1 = .ok (a', y.1) ∧
      a'.Lays (q ++ ⟨.left, c, (x.1, y.2), r⟩ :: p) (.branch s e .nil (y.1, x.2) w) := by
  obtain ⟨k, hk⟩ : ∃ k, l.link = some k := by
    cases l with
    | nil => cases hl
    | node d l' z r' => exact ⟨z.1, rfl⟩
  have hw := (Tree.fill_extreme hl).2
  have h₀ : a.Lays (⟨.left, c, x, r⟩ :: p) l := lays_cons.2 h
  have he := h₀.extremeFrom hk hl
  have h₁ : a.Lays (q ++ ⟨.left, c, x, r⟩ :: p) (.branch s e .nil y w) := by
    rw [lays_append]
    exact hw ▸ h
  obtain ⟨a', ha, h'⟩ := h₁.swapValues
  refine ⟨a', ?_, h'⟩
  simp only [Arena.yield, h.node, ok_bind, hk, hr, he, ha]
  rfl

/-- The node to leave for a value has one child at most, and its removal from the tree is that of
the value. -/
theorem Lays.exists_yield {c : Color} {l r : Layout α} {x : Nat × α}
    (h : a.Lays p (.node c l x r)) :
    ∃ b q s e y u, a.yield x.1 = .ok (b, y.1) ∧ b.Lays q (.branch s e .nil y u) ∧ y.2 = x.2 ∧
      Path.erase (Path.map Prod.snd p) c (l.map Prod.snd) (r.map Prod.snd) =
        Path.splice (Path.map Prod.snd q) e (u.map Prod.snd) := by
  have hx := h.node
  cases hr : r.link with
  | none =>
    obtain rfl := Tree.eq_nil_of_link hr
    exact ⟨a, p, .right, c, x, l, by simp [Arena.yield, hx]; rfl, h, rfl, rfl⟩
  | some j =>
    cases hl : l.extreme .right with
    | none =>
      obtain rfl := Tree.extreme_eq_none_iff.1 hl
      exact ⟨a, p, .left, c, x, r, by simp [Arena.yield, hx]; rfl, h, rfl,
        Path.erase_nil_left ..⟩
    | some g =>
      obtain ⟨⟨s, e, y, u⟩, q⟩ := g
      have hm := Tree.map_extreme Prod.snd .right l
      rw [hl] at hm
      obtain ⟨b, hb, h'⟩ := h.yield_inner hl hr
      refine ⟨b, _, s, e, (y.1, x.2), u, hb, h', rfl, ?_⟩
      rw [Path.erase_inner hm (by cases r <;> simp at hr ⊢)]
      simp [Frame.map]

theorem Lays.exists_removal {c : Color} {l r : Layout α} {x : Nat × α} {w : Tree α}
    {us : List (Rotation α)} (h : a.Lays p (.node c l x r))
    (hw : Path.erase (Path.map Prod.snd p) c (l.map Prod.snd) (r.map Prod.snd) = .done w us) :
    ∃ b q s e y u w' ts a', a.yield x.1 = .ok (b, y.1) ∧ b.Lays q (.branch s e .nil y u) ∧
      Path.splice q e u = .done w' ts ∧ ts.map (Rotation.map Prod.snd) = us ∧
        a.removeNode x.1 = .done (x.2, a') (ts.map Rotation.event) ∧ a'.Shows w := by
  obtain ⟨b, q, s, e, y, u, hb, hy, hv, he⟩ := h.exists_yield
  rw [he] at hw
  obtain ⟨w', ts, hs, rfl, ht⟩ := Path.exists_splice_of_map hw
  obtain ⟨a₁, a₂, e₁, e₂, h₂⟩ := hy.remove_alone hs
  refine ⟨b, q, s, e, y, u, w', ts, a₂, hb, hy, hs, ht, ?_, h₂⟩
  simp [Arena.removeNode, hb, e₁, e₂, hv, Traced.done_bind, Traced.pure_eq]

theorem Lays.removeNode {c : Color} {l r : Layout α} {x : Nat × α} {w : Tree α}
    {us : List (Rotation α)} (h : a.Lays p (.node c l x r))
    (hw : Path.erase (Path.map Prod.snd p) c (l.map Prod.snd) (r.map Prod.snd) = .done w us) :
    ∃ a' es, a.removeNode x.1 = .done (x.2, a') es ∧ Tells es us ∧ a'.Shows w := by
  obtain ⟨-, -, -, -, -, -, -, ts, a', -, -, -, ht, ha, hs⟩ := h.exists_removal hw
  exact ⟨a', ts.map Rotation.event, ha, ⟨ts, rfl, ht⟩, hs⟩

section Shows
variable {t : Tree α} {us : List (Rotation α)}

theorem Shows.take {cut : α → Ordering} {r : Option (α × Tree α)} (h : a.Shows t)
    (hr : t.take? cut = .done r us) :
    match r with
    | none => a.lookup cut = .ok none ∧ us = []
    | some (v, w) => ∃ i a' es, a.lookup cut = .ok (some i) ∧
        a.removeNode i = .done (v, a') es ∧ Tells es us ∧ a'.Shows w := by
  obtain ⟨u, hu, rfl⟩ := h
  have hl := hu.lookup cut
  have hf := Tree.fill_zoom (fun x => cut x.2) u []
  have hz := Tree.map_zoom Prod.snd cut u []
  rw [Path.map_nil] at hz
  simp only [Tree.take?, hz] at hr
  cases hq : u.zoom (fun x => cut x.2) [] with
  | mk q w =>
    rw [hq] at hl hf hr
    cases w with
    | nil =>
      cases hr
      exact ⟨hl, rfl⟩
    | node c l x y =>
      obtain ⟨w, us₁, us₂, hw, he, rfl⟩ := Traced.bind_eq_done_iff.1 hr
      cases he
      have h' : a.Lays q (.node c l x y) := lays_fill.1 (hf ▸ hu)
      obtain ⟨a', es, ha, ht, hs⟩ := h'.removeNode hw
      exact ⟨x.1, a', es, hl, ha, by simpa using ht, hs⟩

theorem Shows.takeExtreme {side : Side} {r : Option (α × Tree α)} (h : a.Shows t)
    (hr : t.takeExtreme? side = .done r us) :
    match r with
    | none => a.extreme side = .ok none ∧ us = []
    | some (v, w) => ∃ i a' es, a.extreme side = .ok (some i) ∧
        a.removeNode i = .done (v, a') es ∧ Tells es us ∧ a'.Shows w := by
  obtain ⟨u, hu, rfl⟩ := h
  have he := hu.extreme side
  simp only [Tree.takeExtreme?, Tree.map_extreme] at hr
  cases hx : u.extreme side with
  | none =>
    rw [hx] at he hr
    cases hr
    exact ⟨he, rfl⟩
  | some x =>
    obtain ⟨⟨s, c, y, w⟩, q⟩ := x
    rw [hx] at he hr
    obtain ⟨v, us₁, us₂, hv, hv', rfl⟩ := Traced.bind_eq_done_iff.1 hr
    cases hv'
    obtain ⟨-, hf⟩ := Tree.fill_extreme hx
    have h' : a.Lays q (Frame.plug ⟨s, c, y, w⟩ .nil) := lays_fill.1 (hf.symm ▸ hu)
    cases s with
    | left =>
      have hw : Path.erase (Path.map Prod.snd q) c .nil (w.map Prod.snd) = .done v us₁ := by
        rw [Path.erase_nil_left]
        exact hv
      obtain ⟨a', es, ha, ht, hs⟩ := Lays.removeNode h' hw
      exact ⟨y.1, a', es, he, ha, by simpa using ht, hs⟩
    | right =>
      obtain ⟨a', es, ha, ht, hs⟩ := Lays.removeNode h' hv
      exact ⟨y.1, a', es, he, ha, by simpa using ht, hs⟩

end Shows
end RedBlack.Arena
