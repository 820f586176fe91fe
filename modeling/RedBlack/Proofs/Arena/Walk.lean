import RedBlack.Arena.Traversal
import RedBlack.Proofs.Arena.Relinking
import RedBlack.Proofs.Tree.Mapping

set_option autoImplicit false

namespace RedBlack
variable {α β : Type}

/-- The values of a tree, those on the given side first. -/
def Tree.listFrom (t : Tree α) : Side → List α
  | .left => t.toList
  | .right => t.toList.reverse

@[simp] theorem Tree.listFrom_nil (s : Side) : (Tree.nil : Tree α).listFrom s = [] := by
  cases s <;> rfl

theorem Tree.listFrom_branch (s : Side) (c : Color) (t : Tree α) (v : α) (u : Tree α) :
    (Tree.branch s c t v u).listFrom s = t.listFrom s ++ v :: u.listFrom s := by
  cases s <;> simp [Tree.branch, Tree.listFrom]

theorem Tree.length_listFrom (t : Tree α) (s : Side) : (t.listFrom s).length = t.count := by
  cases s <;> simp [Tree.listFrom, Tree.length_toList]

theorem Tree.listFrom_map (f : α → β) (t : Tree α) (s : Side) :
    (t.map f).listFrom s = (t.listFrom s).map f := by
  cases s <;> simp [Tree.listFrom]

namespace Arena
variable {a : Arena α} {s : Side} {p : Path (Nat × α)} {t : Layout α} {stack : List Nat}
  {xs : List (Nat × α)} {n : Nat}

/-- A stack of nodes, and what a walk from a side meets from its top on. -/
inductive Stacked (a : Arena α) (s : Side) : List Nat → List (Nat × α) → Prop
  | nil : Stacked a s [] []
  | cons {p : Path (Nat × α)} {c : Color} {near far : Layout α} {x : Nat × α} {stack : List Nat}
      {xs : List (Nat × α)} :
    a.Lays p (.branch s c near x far) → Stacked a s stack xs →
      Stacked a s (x.1 :: stack) (x :: (far.listFrom s ++ xs))

theorem Lays.loop_spineRound (h : a.Lays p t) (hs : a.Stacked s stack xs) (hn : t.height < n) :
    ∃ stack', RedBlack.loop (a.spineRound s) n (stack, t.link) = .ok stack' ∧
      a.Stacked s stack' (t.listFrom s ++ xs) := by
  induction n generalizing p t stack xs with
  | zero => omega
  | succ n ih =>
    cases hi : t.link with
    | none =>
      obtain rfl := Tree.eq_nil_of_link hi
      exact ⟨stack, loop_over n rfl, by simpa using hs⟩
    | some i =>
      obtain ⟨c, near, x, far, rfl⟩ := Tree.exists_branch s hi
      rw [Tree.link_branch] at hi
      cases hi
      rw [Tree.height_branch] at hn
      have hx := h.node_branch
      have h' : a.Lays (⟨s, c, x, far⟩ :: p) near := lays_cons.2 h
      obtain ⟨stack', hl, hs'⟩ := ih h' (.cons h hs) (by omega)
      refine ⟨stack', ?_, ?_⟩
      · rw [loop_again n (t := (x.1 :: stack, near.link)) (by simp [spineRound, hx]), hl]
      · rw [Tree.listFrom_branch]
        simpa using hs'

theorem Lays.pushSpine (h : a.Lays p t) (hs : a.Stacked s stack xs) :
    ∃ stack', a.pushSpine s stack t.link = .ok stack' ∧
      a.Stacked s stack' (t.listFrom s ++ xs) := by
  have hh := t.height_le_count
  have hl := h.length_add_count_le
  exact h.loop_spineRound hs (by omega)

end Arena

section Visits

def Walk.Visits (w : Walk) (a : Arena α) (xs : List (Nat × α)) : Prop :=
  a.Stacked w.direction.firstSide w.stack xs

variable {a : Arena α} {t : Layout α} {w : Walk} {x : Nat × α} {xs : List (Nat × α)}

theorem Arena.Lays.start (h : a.Lays [] t) (d : Direction) :
    ∃ w, Walk.start a d = .ok w ∧ w.direction = d ∧ w.Visits a (t.listFrom d.firstSide) := by
  have hr : a.root = t.link := Arena.Holds.root_eq h
  obtain ⟨stack, hp, hs⟩ := h.pushSpine (s := d.firstSide) .nil
  rw [List.append_nil] at hs
  refine ⟨⟨d, stack⟩, ?_, rfl, hs⟩
  simp only [Walk.start, hr, hp, ok_bind]
  rfl

namespace Walk

theorem visits_ended (d : Direction) (a : Arena α) : (Walk.ended d).Visits a [] := .nil

theorem Visits.step_nil (h : w.Visits a []) : w.step a = .ok none := by
  obtain ⟨d, stack⟩ := w
  cases h
  rfl

/-- One step of a walk meets the first of what is to come, and leaves the rest. -/
theorem Visits.step_cons (h : w.Visits a (x :: xs)) :
    ∃ w', w.step a = .ok (some (x.1, w')) ∧ a.value x.1 = .ok x.2 ∧
      w'.direction = w.direction ∧ w'.Visits a xs := by
  obtain ⟨d, stack⟩ := w
  unfold Visits at h
  generalize hs : d.firstSide = s at h
  cases h with
  | @cons p c near far x stack xs hl hr =>
    have hx := hl.node_branch
    have hf : a.Lays (⟨s.opposite, c, x, near⟩ :: p) far := by
      rw [Arena.lays_cons]
      cases s <;> exact hl
    obtain ⟨stack', hp, hs'⟩ := hf.pushSpine hr
    refine ⟨⟨d, stack'⟩, ?_, ?_, rfl, ?_⟩
    · simp only [Walk.step, hs, hx, ok_bind, Node.child_join_opposite, hp]
      rfl
    · simp only [Arena.value, hx, ok_bind, Node.value_join]
      rfl
    · exact hs.symm ▸ hs'

end Walk
end Visits

theorem Tree.indices_cells (t : Layout α) (up : Link) :
    (t.cells up).map Prod.fst = (t.toList.map Prod.fst : List Nat) := by
  induction t generalizing up with
  | nil => rfl
  | node c l x r hl hr =>
    simp only [Tree.cells, Multiset.map_add, Multiset.map_singleton, hl, hr, Tree.toList_node,
      List.map_append, List.map_cons, ← Multiset.coe_add, ← Multiset.cons_coe,
      ← Multiset.singleton_add]
    abel

theorem Tree.exists_cell {t : Layout α} {x : Nat × α} (hx : x ∈ t.toList) (up : Link) :
    ∃ n, (x.1, n) ∈ t.cells up ∧ n.value = x.2 := by
  induction t generalizing up with
  | nil => cases hx
  | node c l y r hl hr =>
    simp only [Tree.toList_node, List.mem_append, List.mem_cons] at hx
    rcases hx with hx | rfl | hx
    · obtain ⟨n, hn, hv⟩ := hl hx (some y.1)
      exact ⟨n, by simp [Tree.cells, hn], hv⟩
    · exact ⟨_, by simp only [Tree.cells]; exact Multiset.mem_add.2 (.inl (by simp; rfl)), rfl⟩
    · obtain ⟨n, hn, hv⟩ := hr hx (some y.1)
      exact ⟨n, by simp [Tree.cells, hn], hv⟩

theorem Tree.cells_map (f : α → β) (t : Layout α) (up : Link) :
    (t.map (Prod.map id f)).cells up = (t.cells up).map (Prod.map id (Node.map f)) := by
  have hlink (u : Layout α) : (u.map (Prod.map id f)).link = u.link := by cases u <;> rfl
  induction t generalizing up with
  | nil => rfl
  | node c l x r hl hr =>
    simp only [Tree.map, Tree.cells, Multiset.map_add, Multiset.map_singleton, Prod.map_fst, id,
      hl, hr, hlink]
    rfl

theorem Walk.Visits.loop_indexRound {a : Arena α} {w : Walk} {xs : List (Nat × α)} {n : Nat}
    (h : w.Visits a xs) (hn : xs.length < n) (met : List Nat) :
    loop a.indexRound n (w, met) = .ok (met.reverse ++ xs.map Prod.fst) := by
  induction xs generalizing w n met with
  | nil =>
    obtain ⟨n, rfl⟩ : ∃ k, n = k + 1 := ⟨n - 1, by simp at hn; omega⟩
    rw [loop_over n (b := met.reverse) (by simp only [Arena.indexRound, h.step_nil]; rfl)]
    simp
  | cons x xs ih =>
    simp only [List.length_cons] at hn
    obtain ⟨n, rfl⟩ : ∃ k, n = k + 1 := ⟨n - 1, by omega⟩
    obtain ⟨w', hw, -, -, h'⟩ := h.step_cons
    rw [loop_again n (t := (w', x.1 :: met)) (by simp only [Arena.indexRound, hw]; rfl),
      ih h' (by omega)]
    simp

namespace Arena
variable {a : Arena α} {p : Path (Nat × α)} {t : Tree α} {u : Layout α}

theorem Lays.indices (h : a.Lays [] u) : a.indices = .ok (u.toList.map Prod.fst) := by
  obtain ⟨w, hw, -, hv⟩ := h.start .ascending
  have hn : (u.listFrom Direction.ascending.firstSide).length < a.size + 1 := by
    rw [Tree.length_listFrom, h.size_eq]
    omega
  have hl := hv.loop_indexRound hn []
  simp only [Arena.indices, hw, ok_bind]
  exact hl

theorem takeSlots_map {slots : Array (Option α)} {xs : List (Nat × α)}
    (hs : ∀ x ∈ xs, slots[x.1]? = some (some x.2)) (hn : (xs.map Prod.fst).Nodup) :
    takeSlots slots (xs.map Prod.fst) = .ok (xs.map Prod.snd) := by
  induction xs generalizing slots with
  | nil => rfl
  | cons x xs ih =>
    rw [List.map_cons, List.nodup_cons] at hn
    have hx := hs x (List.mem_cons_self ..)
    have hr := @ih (slots.setIfInBounds x.1 none) (fun y hy => ?_) hn.2
    · simp only [List.map_cons, takeSlots, hx, hr, ok_bind]
      rfl
    · have hne : x.1 ≠ y.1 := fun e => hn.1 (e ▸ List.mem_map_of_mem hy)
      rw [Array.getElem?_setIfInBounds_ne hne]
      exact hs y (List.mem_cons_of_mem _ hy)

theorem Shows.takeSorted (h : a.Shows t) : a.takeSorted = .ok t.toList := by
  obtain ⟨u, hu, rfl⟩ := h
  have hh := lays_nil.1 hu
  simp only [Arena.takeSorted, hu.indices, ok_bind]
  rw [Tree.toList_map]
  refine takeSlots_map (fun x hx => ?_) ?_
  · obtain ⟨n, hn, hv⟩ := Tree.exists_cell hx none
    have hg := hh.get _ hn
    simp only at hg
    rw [Array.getElem?_map, hg, Option.map_some, hv]
  · have hn := hh.nodup
    rw [Tree.indices_cells] at hn
    exact Multiset.coe_nodup.1 hn

theorem Shows.map (h : a.Shows t) (f : α → β) : (a.map f).Shows (t.map f) := by
  obtain ⟨u, hu, rfl⟩ := h
  have hh := lays_nil.1 hu
  have hm (x : Multiset (Cell α)) :
      (x.map (Prod.map id (Node.map f))).map Prod.fst = x.map Prod.fst := by
    rw [Multiset.map_map]
    rfl
  refine ⟨u.map (Prod.map id f), lays_nil.2 ⟨?_, ?_, ?_, ?_⟩, ?_⟩
  · have hr := hh.root_eq
    cases u <;> exact hr
  · rw [Tree.cells_map, hm]
    exact hh.nodup
  · rw [Tree.cells_map, Multiset.card_map, ← hh.size_eq]
    simp [Arena.size, Arena.map]
  · intro x hx
    rw [Tree.cells_map] at hx
    obtain ⟨y, hy, rfl⟩ := Multiset.mem_map.1 hx
    have hg := hh.get y hy
    simp only [Arena.map, Prod.map_fst, Prod.map_snd, id]
    rw [Array.getElem?_map, hg, Option.map_some]
  · rw [Tree.map_map, Tree.map_map]
    rfl

theorem Shows.forall_mem_toList (h : a.Shows t) {P : α → Prop} (hn : ∀ n ∈ a.nodes, P n.value) :
    ∀ v ∈ t.toList, P v := by
  obtain ⟨u, hu, rfl⟩ := h
  intro v hv
  rw [Tree.toList_map] at hv
  obtain ⟨x, hx, rfl⟩ := List.mem_map.1 hv
  obtain ⟨n, hm, hv⟩ := Tree.exists_cell hx none
  exact hv ▸ hn n (Array.mem_of_getElem? ((lays_nil.1 hu).get _ hm))

theorem Lays.drawWithin {text : α → String} {depth : Nat} (h : a.Lays p u)
    (hd : u.height ≤ depth) :
    a.drawWithin text depth u.link = .ok ((u.map Prod.snd).draw text) := by
  induction u generalizing p depth with
  | nil => cases depth <;> rfl
  | node c l x r hl hr =>
    simp only [Tree.height] at hd
    obtain ⟨depth, rfl⟩ : ∃ k, depth = k + 1 := ⟨depth - 1, by omega⟩
    have h₁ : a.Lays (⟨.left, c, x, r⟩ :: p) l := lays_cons.2 h
    have h₂ : a.Lays (⟨.right, c, x, l⟩ :: p) r := lays_cons.2 h
    have hd₁ : a.drawWithin text depth l.link = _ := hl h₁ (by omega)
    have hd₂ : a.drawWithin text depth r.link = _ := hr h₂ (by omega)
    simp only [Tree.link_node, Arena.drawWithin, h.node, ok_bind, hd₁, hd₂]
    rfl

theorem Shows.draw (h : a.Shows t) (text : α → String) : a.draw text = .ok (t.draw text) := by
  obtain ⟨u, hu, rfl⟩ := h
  have hr : a.root = u.link := Holds.root_eq hu
  have hh := u.height_le_count
  rw [Arena.draw, hr]
  exact hu.drawWithin (hu.size_eq ▸ hh)

end Arena
end RedBlack
