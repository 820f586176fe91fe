import RedBlack.Arena.Basic
import RedBlack.Proofs.Arena.Relinking
import RedBlack.Proofs.Tree.Mapping

set_option autoImplicit false

namespace RedBlack.Arena
variable {α : Type} {a : Arena α} {p q : Path (Nat × α)} {t : Layout α} {i n : Nat}

theorem Lays.loop_searchRound (h : a.Lays p t) (cut : α → Ordering) (hn : t.height < n) :
    RedBlack.loop (a.searchRound cut) n t.link = .ok (t.zoom (fun x => cut x.2) p).2.link := by
  induction t generalizing p n with
  | nil =>
    obtain ⟨n, rfl⟩ : ∃ k, n = k + 1 := ⟨n - 1, by omega⟩
    exact loop_over n rfl
  | node c l x r hl hr =>
    obtain ⟨n, rfl⟩ : ∃ k, n = k + 1 := ⟨n - 1, by omega⟩
    have hx := h.node
    simp only [Tree.height] at hn
    simp only [Tree.zoom]
    cases hc : cut x.2 with
    | lt =>
      have h' : a.Lays (⟨.left, c, x, r⟩ :: p) l := lays_cons.2 h
      rw [loop_again n (t := l.link)]
      · exact hl h' (by omega)
      · simp [searchRound, hx, hc]; rfl
    | gt =>
      have h' : a.Lays (⟨.right, c, x, l⟩ :: p) r := lays_cons.2 h
      rw [loop_again n (t := r.link)]
      · exact hr h' (by omega)
      · simp [searchRound, hx, hc]; rfl
    | eq =>
      rw [loop_over n (b := some x.1)]
      · rfl
      · simp [searchRound, hx, hc]; rfl

theorem Lays.lookup (h : a.Lays [] t) (cut : α → Ordering) :
    a.lookup cut = .ok (t.zoom (fun x => cut x.2) []).2.link := by
  have hh := t.height_le_count
  have hs := h.size_eq
  have hr : a.root = t.link := Holds.root_eq h
  rw [Arena.lookup, Arena.loop, hr]
  exact h.loop_searchRound cut (by omega)

theorem Lays.loop_extremeRound (h : a.Lays p t) (side : Side) (hi : t.link = some i)
    (hn : t.height ≤ n) :
    ∃ j, RedBlack.loop (a.extremeRound side) n i = .ok j ∧
      Path.link (t.zoom (fun _ => side.ordering) p).1 = some j := by
  induction n generalizing p t i with
  | zero =>
    cases t with
    | nil => cases hi
    | node c l x r => simp [Tree.height] at hn
  | succ n ih =>
    obtain ⟨c, near, x, far, rfl⟩ := Tree.exists_branch side hi
    rw [Tree.link_branch] at hi
    cases hi
    have hx := h.node_branch
    have hh := Tree.height_branch side c near x far
    rw [Tree.zoom_branch]
    cases hk : near.link with
    | none =>
      obtain rfl := Tree.eq_nil_of_link hk
      exact ⟨x.1, loop_over n (by simp [extremeRound, hx]; rfl), rfl⟩
    | some k =>
      have h' : a.Lays (⟨side, c, x, far⟩ :: p) near := lays_cons.2 h
      obtain ⟨j, hj, hz⟩ := ih h' hk (by omega)
      refine ⟨j, ?_, hz⟩
      rw [loop_again n (t := k) (by simp [extremeRound, hx, hk]; rfl), hj]

theorem Lays.extremeFrom {side : Side} {g : Frame (Nat × α)} (h : a.Lays p t)
    (hi : t.link = some i) (hg : t.extreme side = some (g, q)) :
    a.extremeFrom side i = .ok g.value.1 := by
  have hh := t.height_le_count
  have hs := h.length_add_count_le
  obtain ⟨j, hj, hz⟩ := h.loop_extremeRound side hi (n := a.size + 1) (by omega)
  have hp := Tree.zoom_append (fun _ => side.ordering) t p
  rw [hp, Tree.zoom_of_extreme hg] at hz
  cases hz
  exact hj

theorem Lays.extreme (h : a.Lays [] t) (side : Side) :
    a.extreme side = .ok ((t.extreme side).map fun x => x.1.value.1) := by
  have hr : a.root = t.link := Holds.root_eq h
  cases hk : t.link with
  | none =>
    obtain rfl := Tree.eq_nil_of_link hk
    simp only [Arena.extreme, hr, hk]
    rfl
  | some i =>
    cases he : t.extreme side with
    | none =>
      rw [Tree.extreme_eq_none_iff.1 he] at hk
      cases hk
    | some x =>
      simp only [Arena.extreme, hr, hk, h.extremeFrom hk he, ok_bind]
      rfl

section Shows
variable {t : Tree α}

theorem Lays.value {c : Color} {l r : Layout α} {x : Nat × α} (h : a.Lays p (.node c l x r)) :
    a.value x.1 = .ok x.2 := by
  simp only [Arena.value, h.node, ok_bind]
  rfl

theorem Shows.lookup (h : a.Shows t) (cut : α → Ordering) :
    match t.find? cut with
    | none => a.lookup cut = .ok none
    | some v => ∃ i, a.lookup cut = .ok (some i) ∧ a.value i = .ok v := by
  obtain ⟨u, hu, rfl⟩ := h
  have hl := hu.lookup cut
  have hf := Tree.fill_zoom (fun x => cut x.2) u []
  have hz := congrArg Prod.snd (Tree.map_zoom Prod.snd cut u [])
  rw [Tree.find?_eq_zoom cut _ []]
  rw [Path.map_nil] at hz
  rw [hz]
  cases hq : u.zoom (fun x => cut x.2) [] with
  | mk q w =>
    rw [hq] at hl hf
    cases w with
    | nil => exact hl
    | node c l x r =>
      have h' : a.Lays q (.node c l x r) := lays_fill.1 (hf ▸ hu)
      exact ⟨x.1, hl, h'.value⟩

theorem Shows.extreme (h : a.Shows t) (side : Side) :
    match t.extreme side with
    | none => a.extreme side = .ok none
    | some (f, _) => ∃ i, a.extreme side = .ok (some i) ∧ a.value i = .ok f.value := by
  obtain ⟨u, hu, rfl⟩ := h
  have he := hu.extreme side
  rw [Tree.map_extreme]
  cases hx : u.extreme side with
  | none => rw [hx] at he; exact he
  | some x =>
    obtain ⟨⟨s, c, y, w⟩, q⟩ := x
    rw [hx] at he
    obtain ⟨rfl, hf⟩ := Tree.fill_extreme hx
    have h' : a.Lays q (Frame.plug ⟨s, c, y, w⟩ .nil) := lays_fill.1 (hf.symm ▸ hu)
    refine ⟨y.1, he, ?_⟩
    cases s <;> exact Lays.value h'

end Shows
end RedBlack.Arena
