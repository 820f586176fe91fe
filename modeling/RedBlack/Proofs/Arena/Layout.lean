import Mathlib.Algebra.Order.Group.Multiset
import Mathlib.Data.Finset.Card
import Mathlib.Tactic.Abel
import RedBlack.Arena.Basic
import RedBlack.Tree.Path

/-!
What an arena holds. A layout is a tree whose values carry the indices of their nodes; its cells are
the nodes with the links that its shape demands. An arena lays out a path and a subtree if it holds
their cells and nothing else, and the path can be taken up and down without touching the arena.
-/

set_option autoImplicit false

namespace RedBlack
variable {α : Type}

abbrev Layout (α : Type) := Tree (Nat × α)

abbrev Cell (α : Type) := Nat × Node α

def Node.join (side : Side) (v : α) (c : Color) (up inner outer : Link) : Node α :=
  match side with
  | .left => ⟨v, c, up, inner, outer⟩
  | .right => ⟨v, c, up, outer, inner⟩

section Join
variable (s : Side) (v : α) (c : Color) (up inner outer : Link)

@[simp] theorem Node.value_join : (Node.join s v c up inner outer).value = v := by cases s <;> rfl

@[simp] theorem Node.color_join : (Node.join s v c up inner outer).color = c := by cases s <;> rfl

@[simp] theorem Node.parent_join : (Node.join s v c up inner outer).parent = up := by
  cases s <;> rfl

@[simp] theorem Node.child_join_self : (Node.join s v c up inner outer).child s = inner := by
  cases s <;> rfl

@[simp] theorem Node.child_join_opposite :
    (Node.join s v c up inner outer).child s.opposite = outer := by
  cases s <;> rfl

@[simp] theorem Node.withChild_join_self (l : Link) :
    (Node.join s v c up inner outer).withChild s l = Node.join s v c up l outer := by
  cases s <;> rfl

@[simp] theorem Node.withChild_join_opposite (l : Link) :
    (Node.join s v c up inner outer).withChild s.opposite l = Node.join s v c up inner l := by
  cases s <;> rfl

@[simp] theorem Node.withParent_join (l : Link) :
    { Node.join s v c up inner outer with parent := l } = Node.join s v c l inner outer := by
  cases s <;> rfl

end Join

def Tree.link : Layout α → Link
  | .nil => none
  | .node _ _ x _ => some x.1

@[simp] theorem Tree.link_nil : (Tree.nil : Layout α).link = none := rfl

@[simp] theorem Tree.link_node (c : Color) (l : Layout α) (x : Nat × α) (r : Layout α) :
    (Tree.node c l x r).link = some x.1 := rfl

@[simp] theorem Tree.link_branch (s : Side) (c : Color) (t : Layout α) (x : Nat × α)
    (u : Layout α) : (Tree.branch s c t x u).link = some x.1 := by
  cases s <;> rfl

@[simp] theorem Frame.link_plug (f : Frame (Nat × α)) (t : Layout α) :
    (f.plug t).link = some f.value.1 := Tree.link_branch ..

@[simp] theorem Tree.link_paint (c : Color) (t : Layout α) : (t.paint c).link = t.link := by
  cases t <;> rfl

@[simp] theorem Tree.link_paintChild (s : Side) (c : Color) (t : Layout α) :
    (t.paintChild s c).link = t.link := by
  cases t <;> cases s <;> rfl

theorem Tree.eq_nil_of_link {t : Layout α} (h : t.link = none) : t = .nil := by
  cases t with
  | nil => rfl
  | node c l x r => cases h

theorem Tree.exists_link_of_isRed {t : Layout α} (h : t.isRed = true) : ∃ i, t.link = some i := by
  cases t with
  | nil => cases h
  | node c l x r => exact ⟨x.1, rfl⟩

theorem Tree.exists_branch {t : Layout α} {i : Nat} (s : Side) (h : t.link = some i) :
    ∃ c near x far, t = Tree.branch s c near x far := by
  cases t with
  | nil => cases h
  | node c l x r =>
    cases s
    · exact ⟨c, l, x, r, rfl⟩
    · exact ⟨c, r, x, l, rfl⟩

def Tree.cells : Layout α → Link → Multiset (Cell α)
  | .nil, _ => 0
  | .node c l x r, up =>
    {(x.1, ⟨x.2, c, up, l.link, r.link⟩)} + (l.cells (some x.1) + r.cells (some x.1))

theorem Tree.cells_branch (s : Side) (c : Color) (t : Layout α) (x : Nat × α) (u : Layout α)
    (up : Link) :
    (Tree.branch s c t x u).cells up =
      {(x.1, Node.join s x.2 c up t.link u.link)} + (t.cells (some x.1) + u.cells (some x.1)) := by
  cases s with
  | left => rfl
  | right =>
    simp only [Tree.branch, Tree.cells, Node.join]
    abel

theorem Tree.mem_cells_of_link {t : Layout α} {i : Nat} (h : t.link = some i) (up : Link) :
    i ∈ (t.cells up).map Prod.fst := by
  cases t with
  | nil => cases h
  | node c l x r =>
    cases h
    simp [Tree.cells]

section Indices
variable {c : Color} {l r : Layout α} {x : Nat × α} {up : Link} {i : Nat}

theorem Tree.mem_cells_node : i ∈ ((Tree.node c l x r).cells up).map Prod.fst ↔
    i = x.1 ∨ i ∈ (l.cells (some x.1)).map Prod.fst ∨ i ∈ (r.cells (some x.1)).map Prod.fst := by
  simp only [Tree.cells, Multiset.map_add, Multiset.map_singleton, Multiset.mem_add,
    Multiset.mem_singleton]

theorem Tree.nodup_cells_node : (((Tree.node c l x r).cells up).map Prod.fst).Nodup ↔
    (((l.cells (some x.1)).map Prod.fst).Nodup ∧ ((r.cells (some x.1)).map Prod.fst).Nodup) ∧
      (∀ i ∈ (l.cells (some x.1)).map Prod.fst, i ∉ (r.cells (some x.1)).map Prod.fst) ∧
        x.1 ∉ (l.cells (some x.1)).map Prod.fst ∧ x.1 ∉ (r.cells (some x.1)).map Prod.fst := by
  simp only [Tree.cells, Multiset.map_add, Multiset.map_singleton, Multiset.nodup_add,
    Multiset.nodup_singleton, true_and, Multiset.disjoint_left, Multiset.mem_add,
    Multiset.mem_singleton, forall_eq, not_or, and_assoc]

end Indices

theorem Tree.card_cells (t : Layout α) (up : Link) : (t.cells up).card = t.count := by
  induction t generalizing up with
  | nil => rfl
  | node c l x r hl hr =>
    simp only [Tree.cells, Multiset.card_add, Multiset.card_singleton, hl, hr, Tree.count]
    omega

theorem Tree.exists_fill {t : Layout α} {up : Link} {i : Nat} (h : i ∈ (t.cells up).map Prod.fst) :
    ∃ p c l x r, x.1 = i ∧ Path.fill p (.node c l x r) = t := by
  induction t generalizing up with
  | nil => simp [Tree.cells] at h
  | node c l x r hl hr =>
    rcases Tree.mem_cells_node.1 h with h | h | h
    · exact ⟨[], c, l, x, r, h.symm, rfl⟩
    · obtain ⟨p, c', l', x', r', hx, hf⟩ := hl h
      exact ⟨p ++ [⟨.left, c, x, r⟩], c', l', x', r', hx, by rw [Path.fill_append, hf]; rfl⟩
    · obtain ⟨p, c', l', x', r', hx, hf⟩ := hr h
      exact ⟨p ++ [⟨.right, c, x, l⟩], c', l', x', r', hx, by rw [Path.fill_append, hf]; rfl⟩

theorem Tree.mem_cells_fill {t : Layout α} {i : Nat} (h : ∀ up, i ∈ (t.cells up).map Prod.fst)
    (q : Path (Nat × α)) (up : Link) : i ∈ ((Path.fill q t).cells up).map Prod.fst := by
  induction q generalizing t with
  | nil => exact h up
  | cons f q ih =>
    refine ih fun up => ?_
    rw [Frame.plug, Tree.cells_branch, Multiset.map_add, Multiset.map_add]
    exact Multiset.mem_add.2 (Or.inr (Multiset.mem_add.2 (Or.inl (h _))))

namespace Path

def link : Path (Nat × α) → Link
  | [] => none
  | f :: _ => some f.value.1

def top (l : Link) : Path (Nat × α) → Link
  | [] => l
  | f :: p => top (some f.value.1) p

/-- The nodes of a path whose hole is filled, those of its siblings included. -/
def cells : Path (Nat × α) → Link → Multiset (Cell α)
  | [], _ => 0
  | f :: p, hole =>
    {(f.value.1, Node.join f.side f.value.2 f.color (link p) hole f.sibling.link)} +
      f.sibling.cells (some f.value.1) + cells p (some f.value.1)

@[simp] theorem link_nil : link ([] : Path (Nat × α)) = none := rfl

@[simp] theorem link_cons (f : Frame (Nat × α)) (p : Path (Nat × α)) :
    link (f :: p) = some f.value.1 := rfl

theorem link_fill (p : Path (Nat × α)) (t : Layout α) : (fill p t).link = top t.link p := by
  induction p generalizing t with
  | nil => rfl
  | cons f p ih => rw [fill_cons, ih, Frame.link_plug, top]

theorem cells_fill (p : Path (Nat × α)) (t : Layout α) :
    (fill p t).cells none = cells p t.link + t.cells (link p) := by
  induction p generalizing t with
  | nil => simp [cells]
  | cons f p ih =>
    rw [fill_cons, ih, Frame.link_plug]
    simp only [cells, link_cons, Frame.plug, Tree.cells_branch]
    abel

end Path

namespace Arena
variable {a : Arena α} {root : Link} {m : Multiset (Cell α)}

/-- An arena holds some cells, each at its index, and nothing else. -/
structure Holds (a : Arena α) (root : Link) (m : Multiset (Cell α)) : Prop where
  root_eq : a.root = root
  nodup : (m.map Prod.fst).Nodup
  size_eq : a.size = m.card
  get : ∀ x ∈ m, a.nodes[x.1]? = some x.2

theorem Holds.congr {k : Multiset (Cell α)} (h : a.Holds root m) (e : m = k) :
    a.Holds root k := e ▸ h

theorem Holds.node (h : a.Holds root m) {i : Nat} {n : Node α} (hm : (i, n) ∈ m) :
    a.node i = .ok n := by
  have hg := h.get (i, n) hm
  simp only [Arena.node]
  rw [hg]

theorem Holds.lt_size (h : a.Holds root m) {i : Nat} (hi : i ∈ m.map Prod.fst) : i < a.size := by
  obtain ⟨x, hx, rfl⟩ := Multiset.mem_map.1 hi
  have hg := h.get x hx
  exact (Array.getElem?_eq_some_iff.1 hg).1

theorem Holds.ne {m' : Multiset (Cell α)} (h : a.Holds root (m + m')) {i j : Nat}
    (hi : i ∈ m.map Prod.fst) (hj : j ∈ m'.map Prod.fst) : i ≠ j := by
  have hn := h.nodup
  rw [Multiset.map_add, Multiset.nodup_add] at hn
  intro e
  exact Multiset.disjoint_left.1 hn.2.2 hi (e ▸ hj)

theorem Holds.modify {i : Nat} {n : Node α} (h : a.Holds root ({(i, n)} + m))
    (f : Node α → Node α) :
    ∃ a', a.modify i f = .ok a' ∧ a'.Holds root ({(i, f n)} + m) := by
  have hi : i < a.nodes.size := h.lt_size (by simp)
  refine ⟨⟨a.nodes.modify i f, a.root⟩, by simp [Arena.modify, hi], h.root_eq, ?_, ?_, ?_⟩
  · simpa using h.nodup
  · simpa [Arena.size] using h.size_eq
  · intro x hx
    rw [Array.getElem?_modify]
    rcases Multiset.mem_add.1 hx with hx | hx
    · obtain rfl := Multiset.mem_singleton.1 hx
      have hg := h.get (i, n) (by simp)
      simp [hg]
    · have hne : i ≠ x.1 := h.ne (by simp) (Multiset.mem_map_of_mem _ hx)
      rw [if_neg hne]
      exact h.get x (Multiset.mem_add.2 (Or.inr hx))

theorem Holds.mem {i : Nat} (h : a.Holds root m) (hi : i < a.size) :
    i ∈ m.map Prod.fst := by
  let indices : Finset Nat := ⟨m.map Prod.fst, h.nodup⟩
  have hsub : indices ⊆ Finset.range a.size := fun k hk => Finset.mem_range.2 (h.lt_size hk)
  have hcard : (Finset.range a.size).card ≤ indices.card := by
    rw [Finset.card_range, h.size_eq]
    exact (Multiset.card_map ..).ge
  have he := Finset.eq_of_subset_of_card_le hsub hcard
  have hm : i ∈ indices := he ▸ Finset.mem_range.2 hi
  exact hm

theorem Holds.set {i : Nat} {x : Node α}
    (h : a.Holds root ({(i, x)} + m)) (y : Node α) :
    Arena.Holds ⟨a.nodes.setIfInBounds i y, a.root⟩ root ({(i, y)} + m) := by
  have hi : i < a.nodes.size := h.lt_size (by simp)
  refine ⟨h.root_eq, ?_, ?_, ?_⟩
  · simpa using h.nodup
  · simpa [Arena.size] using h.size_eq
  · intro z hz
    rcases Multiset.mem_add.1 hz with hz | hz
    · obtain rfl := Multiset.mem_singleton.1 hz
      exact Array.getElem?_setIfInBounds_self_of_lt hi
    · have hne : i ≠ z.1 := h.ne (by simp) (Multiset.mem_map_of_mem _ hz)
      rw [Array.getElem?_setIfInBounds_ne hne]
      exact h.get z (Multiset.mem_add.2 (Or.inr hz))

theorem Holds.pop {i : Nat} {x : Node α}
    (h : a.Holds root ({(i, x)} + m)) (hi : i + 1 = a.size) :
    Arena.Holds ⟨a.nodes.pop, a.root⟩ root m := by
  refine ⟨h.root_eq, ?_, ?_, ?_⟩
  · have hn := h.nodup
    rw [Multiset.map_add, Multiset.nodup_add] at hn
    exact hn.2.1
  · have hs := h.size_eq
    simp [Arena.size] at hs ⊢
    omega
  · intro z hz
    have hne : i ≠ z.1 := h.ne (by simp) (Multiset.mem_map_of_mem _ hz)
    have hlt : z.1 < a.size := h.lt_size (Multiset.mem_map_of_mem _ (Multiset.mem_add.2 (.inr hz)))
    have hg := h.get z (Multiset.mem_add.2 (Or.inr hz))
    simp only [Arena.size] at hi hlt
    rw [Array.getElem?_pop, if_pos (by omega), hg]

theorem Holds.setRoot (h : a.Holds root m) (l : Link) :
    Arena.Holds { a with root := l } l m :=
  ⟨rfl, h.nodup, h.size_eq, h.get⟩

theorem Holds.push (h : a.Holds root m) (n : Node α) :
    Arena.Holds { a with nodes := a.nodes.push n } root ({(a.size, n)} + m) := by
  refine ⟨h.root_eq, ?_, ?_, ?_⟩
  · rw [Multiset.map_add, Multiset.nodup_add]
    refine ⟨by simp, h.nodup, ?_⟩
    rw [Multiset.disjoint_left]
    intro i hi hm
    have hlt := h.lt_size hm
    simp at hi
    omega
  · have hs := h.size_eq
    simp [Arena.size] at hs ⊢
    omega
  · intro x hx
    rcases Multiset.mem_add.1 hx with hx | hx
    · obtain rfl := Multiset.mem_singleton.1 hx
      simp [Arena.size]
    · have hlt := h.lt_size (Multiset.mem_map_of_mem _ hx)
      rw [Array.getElem?_push_lt hlt, ← Array.getElem?_eq_getElem hlt]
      exact h.get x hx

/-- The layout of a whole tree, as the subtree that fills the hole of a path. -/
def Lays (a : Arena α) (p : Path (Nat × α)) (t : Layout α) : Prop :=
  a.Holds (Path.top t.link p) (Path.cells p t.link + t.cells (Path.link p))

theorem lays_nil {t : Layout α} : a.Lays [] t ↔ a.Holds t.link (t.cells none) := by
  simp [Lays, Path.top, Path.cells]

theorem lays_fill {p : Path (Nat × α)} {t : Layout α} : a.Lays [] (Path.fill p t) ↔ a.Lays p t := by
  rw [lays_nil, Path.link_fill, Path.cells_fill]
  rfl

theorem lays_cons {f : Frame (Nat × α)} {p : Path (Nat × α)} {t : Layout α} :
    a.Lays (f :: p) t ↔ a.Lays p (f.plug t) := by
  rw [← lays_fill, Path.fill_cons, lays_fill]

theorem lays_append {p q : Path (Nat × α)} {f : Frame (Nat × α)} {t : Layout α} :
    a.Lays (q ++ f :: p) t ↔ a.Lays p (f.plug (Path.fill q t)) := by
  rw [← lays_fill, Path.fill_append, lays_fill, lays_cons]

section Count
variable {p : Path (Nat × α)} {t : Layout α}

theorem Lays.size_eq (h : a.Lays [] t) : a.size = t.count := by
  have hs := Holds.size_eq h
  simpa [Path.cells, Tree.card_cells] using hs

theorem Lays.length_add_count_le (h : a.Lays p t) : p.length + t.count ≤ a.size := by
  rw [(lays_fill.2 h).size_eq]
  exact Path.length_add_count_le p t

end Count

/-- The tree that an arena shows: that of its layout, without the indices. -/
def Shows (a : Arena α) (t : Tree α) : Prop := ∃ u : Layout α, a.Lays [] u ∧ u.map Prod.snd = t

end Arena
end RedBlack
