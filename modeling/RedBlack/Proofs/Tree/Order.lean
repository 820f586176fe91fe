import RedBlack.Tree.Insertion
import RedBlack.Tree.Removal

set_option autoImplicit false

namespace RedBlack
variable {α : Type}

/-- After a value that is met or lies beyond the place, everything lies beyond it. -/
def Cuts (cut : α → Ordering) (xs : List α) : Prop :=
  xs.Pairwise fun x y => cut x ≠ .gt → cut y = .lt

/-- Every value comes before all that follow it. -/
def Ascending (compare : α → α → Ordering) (xs : List α) : Prop :=
  xs.Pairwise fun x y => compare x y = .lt

theorem Ascending.cuts {compare : α → α → Ordering} [Std.TransCmp compare] {xs : List α}
    (h : Ascending compare xs) (v : α) : Cuts (compare v) xs := by
  refine List.Pairwise.imp (fun {x y} hxy hv => ?_) h
  have hle : (compare v x).isLE := by
    cases hc : compare v x with
    | gt => exact absurd hc hv
    | lt => rfl
    | eq => rfl
  exact Std.TransCmp.lt_of_isLE_of_lt hle hxy

theorem Ascending.lt_of_append {compare : α → α → Ordering} {xs ys : List α} {v : α}
    (h : Ascending compare (xs ++ v :: ys)) : ∀ x ∈ xs, compare x v = .lt := by
  intro x hx
  exact (List.pairwise_append.1 h).2.2 x hx v (List.mem_cons_self ..)

theorem Ascending.unique {compare : α → α → Ordering} [Std.TransCmp compare] {xs : List α}
    (h : Ascending compare xs) {key v w : α} (hv : v ∈ xs) (hw : w ∈ xs)
    (hkv : compare key v = .eq) (hkw : compare key w = .eq) : v = w := by
  have he : compare v w = .eq := Std.TransCmp.eq_trans (Std.OrientedCmp.eq_symm hkv) hkw
  induction xs with
  | nil => cases hv
  | cons x xs ih =>
    obtain ⟨hx, hxs⟩ := List.pairwise_cons.1 h
    rcases List.mem_cons.1 hv with rfl | hv'
    · rcases List.mem_cons.1 hw with rfl | hw'
      · rfl
      · cases he.symm.trans (hx w hw')
    · rcases List.mem_cons.1 hw with rfl | hw'
      · cases (Std.OrientedCmp.eq_symm he).symm.trans (hx v hv')
      · exact ih hxs hv' hw'

section Cuts
variable {cut : α → Ordering} {xs ys : List α} {v : α}

theorem Cuts.left (h : Cuts cut (xs ++ v :: ys)) (hv : cut v ≠ .lt) :
    ∀ x ∈ xs, cut x = .gt := by
  intro x hx
  refine Decidable.byContradiction fun hg => ?_
  have hp := (List.pairwise_append.1 h).2.2 x hx v (List.mem_cons_self ..)
  exact hv (hp hg)

theorem Cuts.right (h : Cuts cut (xs ++ v :: ys)) (hv : cut v ≠ .gt) :
    ∀ y ∈ ys, cut y = .lt := by
  intro y hy
  have hp := (List.pairwise_append.1 h).2.1
  exact (List.pairwise_cons.1 hp).1 y hy hv

/-- The values on the left of the hole that a search leaves lie before the place searched for, and
those on the right beyond it. -/
theorem Tree.zoom_cuts (t : Tree α) {p : Path α} (h : Cuts cut t.toList)
    (hb : ∀ x ∈ Path.before p, cut x = .gt) (ha : ∀ x ∈ Path.after p, cut x = .lt) :
    (∀ x ∈ Path.before (t.zoom cut p).1, cut x = .gt) ∧
      ∀ x ∈ Path.after (t.zoom cut p).1, cut x = .lt := by
  induction t generalizing p with
  | nil => exact ⟨hb, ha⟩
  | node c l v r hl hr =>
    rw [Tree.toList_node] at h
    have hp := List.pairwise_append.1 h
    simp only [Tree.zoom]
    cases hc : cut v with
    | lt =>
      refine hl hp.1 (by simpa [Path.before, Frame.before] using hb) fun x hx => ?_
      simp only [Path.after, Frame.after, List.mem_append, List.mem_cons] at hx
      rcases hx with (rfl | hx) | hx
      · exact hc
      · exact h.right (by simp [hc]) x hx
      · exact ha x hx
    | gt =>
      refine hr (List.pairwise_cons.1 hp.2.1).2 (fun x hx => ?_)
        (by simpa [Path.after, Frame.after] using ha)
      simp only [Path.before, Frame.before, List.mem_append, List.mem_singleton] at hx
      rcases hx with hx | hx | rfl
      · exact hb x hx
      · exact h.left (by simp [hc]) x hx
      · exact hc
    | eq => exact ⟨hb, ha⟩

theorem Tree.exists_split (t : Tree α) (h : Cuts cut t.toList) :
    ∃ xs ys, (∀ x ∈ xs, cut x = .gt) ∧ (∀ y ∈ ys, cut y = .lt) ∧
      ((∃ p, t.zoom cut [] = (p, .nil) ∧ Path.before p = xs ∧ Path.after p = ys ∧
          t.toList = xs ++ ys) ∨
        ∃ p c l v r, t.zoom cut [] = (p, .node c l v r) ∧ cut v = .eq ∧
          Path.before p ++ l.toList = xs ∧ r.toList ++ Path.after p = ys ∧
            t.toList = xs ++ v :: ys) := by
  have hl := Tree.toList_zoom cut t
  have hv := Tree.cut_zoom cut t []
  obtain ⟨hb, ha⟩ := t.zoom_cuts (p := []) h (by simp [Path.before]) (by simp [Path.after])
  cases hz : t.zoom cut [] with
  | mk p u =>
    rw [hz] at hl hv hb ha
    cases u with
    | nil => exact ⟨_, _, hb, ha, .inl ⟨p, rfl, rfl, rfl, by simpa using hl⟩⟩
    | node c l v r =>
      have he : cut v = .eq := hv c l v r rfl
      have e : t.toList = (Path.before p ++ l.toList) ++ v :: (r.toList ++ Path.after p) := by
        simpa using hl
      rw [e] at h
      exact ⟨_, _, h.left (by simp [he]), h.right (by simp [he]),
        .inr ⟨p, c, l, v, r, rfl, he, rfl, rfl, e⟩⟩

end Cuts

/-! What a search does to the list of values, said by the list alone. -/

variable {cut : α → Ordering} {xs ys : List α} {v : α}

section Split
variable (hx : ∀ x ∈ xs, cut x = .gt) (hy : ∀ y ∈ ys, cut y = .lt)
include hx hy

theorem any_split : (xs ++ ys).any (cut · == .eq) = false := by
  rw [List.any_eq_false]
  intro z hz
  rcases List.mem_append.1 hz with hz | hz
  · simp [hx z hz]
  · simp [hy z hz]

theorem find?_split : (xs ++ ys).find? (cut · == .eq) = none := by
  rw [List.find?_eq_none]
  intro z hz
  rcases List.mem_append.1 hz with hz | hz
  · simp [hx z hz]
  · simp [hy z hz]

theorem place_split (v : α) :
    (xs ++ ys).takeWhile (cut · == .gt) ++ v :: (xs ++ ys).dropWhile (cut · == .gt) =
      xs ++ v :: ys := by
  have hg : ∀ x ∈ xs, (cut x == .gt) = true := fun x h => by simp [hx x h]
  rw [List.takeWhile_append_of_pos hg, List.dropWhile_append_of_pos hg]
  cases ys with
  | nil => simp
  | cons y ys =>
    have hl := hy y (List.mem_cons_self ..)
    simp [hl]

end Split

theorem find?_split_cons (hx : ∀ x ∈ xs, cut x = .gt) (hv : cut v = .eq) :
    (xs ++ v :: ys).find? (cut · == .eq) = some v := by
  rw [List.find?_append]
  have hn : xs.find? (cut · == .eq) = none := by
    rw [List.find?_eq_none]
    intro z hz
    simp [hx z hz]
  simp [hn, hv]

theorem eraseP_split_cons (hx : ∀ x ∈ xs, cut x = .gt) (hv : cut v = .eq) :
    (xs ++ v :: ys).eraseP (cut · == .eq) = xs ++ ys := by
  rw [List.eraseP_append_right]
  · simp [hv]
  · intro z hz
    simp [hx z hz]

section Lawful
variable {compare : α → α → Ordering} [Std.TransCmp compare] {t : Tree α} {es : List (Rotation α)}

theorem Tree.insert?_eq (h : Ascending compare t.toList) {r : Option (Tree α)}
    (hr : t.insert? compare v = .done r es) :
    r.map Tree.toList = if t.toList.any (compare v · == .eq) then none else
      some (t.toList.takeWhile (compare v · == .gt) ++
        v :: t.toList.dropWhile (compare v · == .gt)) := by
  obtain ⟨xs, ys, hx, hy, ⟨p, hz, hb, ha, hl⟩ | ⟨p, c, l, w, r', hz, hw, -, -, hl⟩⟩ :=
    t.exists_split (h.cuts v)
  · rw [hl, any_split hx hy, place_split hx hy]
    cases r with
    | none =>
      simp only [Tree.insert?, hz] at hr
      obtain ⟨_, _, _, -, he, -⟩ := Traced.bind_eq_done_iff.1 hr
      cases he
    | some u =>
      have hu := (Tree.toList_insert? hr).2
      rw [hz] at hu
      rw [Option.map_some, hu, hb, ha]
      rfl
  · simp only [Tree.insert?, hz] at hr
    cases hr
    rw [hl]
    simp [hw]

theorem Tree.ascending_insert? (h : Ascending compare t.toList) {u : Tree α}
    (hr : t.insert? compare v = .done (some u) es) : Ascending compare u.toList := by
  obtain ⟨hl, hu⟩ := Tree.toList_insert? hr
  obtain ⟨hb, ha⟩ := t.zoom_cuts (p := []) (h.cuts v) (by simp [Path.before])
    (by simp [Path.after])
  rw [hl] at h
  rw [hu]
  obtain ⟨h₁, h₂, h₃⟩ := List.pairwise_append.1 h
  refine List.pairwise_append.2 ⟨h₁, List.pairwise_cons.2 ⟨ha, h₂⟩, fun x hx y hy => ?_⟩
  rcases List.mem_cons.1 hy with rfl | hy
  · exact Std.OrientedCmp.lt_of_gt (hb x hx)
  · exact h₃ x hx y hy

theorem Tree.find?_eq (h : Ascending compare t.toList) (key : α) :
    t.find? (compare key) = t.toList.find? (compare key · == .eq) := by
  rw [Tree.find?_eq_zoom (compare key) t []]
  obtain ⟨xs, ys, hx, hy, ⟨p, hz, -, -, hl⟩ | ⟨p, c, l, w, r, hz, hw, -, -, hl⟩⟩ :=
    t.exists_split (h.cuts key)
  · rw [hz, hl, find?_split hx hy]
  · rw [hz, hl, find?_split_cons hx hw]

theorem Tree.take?_eq (h : Ascending compare t.toList) {key : α} {r : Option (α × Tree α)}
    (hr : t.take? (compare key) = .done r es) :
    r.map Prod.fst = t.toList.find? (compare key · == .eq) ∧
      ((r.map Prod.snd).getD t).toList = t.toList.eraseP (compare key · == .eq) := by
  obtain ⟨xs, ys, hx, hy, ⟨p, hz, -, -, hl⟩ | ⟨p, c, l, w, r', hz, hw, hb, ha, hl⟩⟩ :=
    t.exists_split (h.cuts key)
  · simp only [Tree.take?, hz] at hr
    cases hr
    have hf := find?_split hx hy
    rw [← hl] at hf
    rw [hf, List.eraseP_of_forall_not (by simpa [List.find?_eq_none] using hf)]
    exact ⟨rfl, rfl⟩
  · simp only [Tree.take?, hz] at hr
    obtain ⟨u, _, _, hu, he, -⟩ := Traced.bind_eq_done_iff.1 hr
    cases he
    rw [hl, find?_split_cons hx hw, eraseP_split_cons hx hw]
    refine ⟨rfl, ?_⟩
    simp [Path.toList_erase hu, ← hb, ← ha]

end Lawful
end RedBlack
