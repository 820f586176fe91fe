import RedBlack.Tree.Basic

/-!
A tree with a hole: the frames from the hole to the root, innermost first. A search takes a tree
apart into a path and the subtree below it, and `fill_zoom` says that the two make it whole again. A
path has values before its hole and values after it, and `toList_fill` puts a subtree's between.
-/

set_option autoImplicit false

namespace RedBlack

/-- A node whose subtree on `side` is missing; `sibling` is the other one. -/
structure Frame (α : Type) where
  side : Side
  color : Color
  value : α
  sibling : Tree α

variable {α : Type}

def Frame.plug (f : Frame α) (t : Tree α) : Tree α := .branch f.side f.color t f.value f.sibling

abbrev Path (α : Type) := List (Frame α)

def Path.fill : Path α → Tree α → Tree α
  | [], t => t
  | f :: p, t => Path.fill p (f.plug t)

/-- Follows `cut` down to the value it meets, or to the empty subtree where one would be. -/
def Tree.zoom (cut : α → Ordering) : Tree α → Path α → Path α × Tree α
  | .nil, p => (p, .nil)
  | .node c l v r, p =>
    match cut v with
    | .lt => l.zoom cut (⟨.left, c, v, r⟩ :: p)
    | .gt => r.zoom cut (⟨.right, c, v, l⟩ :: p)
    | .eq => (p, .node c l v r)

/-- The outermost node of a tree on one side, as the frame with nothing beyond it, and the path
above it. -/
def Tree.extreme (side : Side) (t : Tree α) : Option (Frame α × Path α) :=
  match (t.zoom (fun _ => side.ordering) []).1 with
  | [] => none
  | f :: p => some (f, p)

def Frame.before (f : Frame α) : List α :=
  match f.side with
  | .left => []
  | .right => f.sibling.toList ++ [f.value]

def Frame.after (f : Frame α) : List α :=
  match f.side with
  | .left => f.value :: f.sibling.toList
  | .right => []

def Path.before : Path α → List α
  | [] => []
  | f :: p => Path.before p ++ f.before

def Path.after : Path α → List α
  | [] => []
  | f :: p => f.after ++ Path.after p

@[simp] theorem Path.fill_nil (t : Tree α) : Path.fill [] t = t := rfl

@[simp] theorem Path.fill_cons (f : Frame α) (p : Path α) (t : Tree α) :
    Path.fill (f :: p) t = Path.fill p (f.plug t) := rfl

theorem Path.fill_append (p q : Path α) (t : Tree α) :
    Path.fill (p ++ q) t = Path.fill q (Path.fill p t) := by
  induction p generalizing t with
  | nil => rfl
  | cons f p ih => simp [ih]

theorem Frame.count_plug (f : Frame α) (t : Tree α) :
    (f.plug t).count = t.count + 1 + f.sibling.count := by
  obtain ⟨s, c, v, u⟩ := f
  cases s <;> simp only [Frame.plug, Tree.branch, Tree.count]
  omega

theorem Path.length_add_count_le (p : Path α) (t : Tree α) :
    p.length + t.count ≤ (Path.fill p t).count := by
  induction p generalizing t with
  | nil => simp
  | cons f p ih =>
    have h := ih (f.plug t)
    rw [Frame.count_plug] at h
    simp only [List.length_cons, Path.fill_cons]
    omega

theorem Frame.toList_plug (f : Frame α) (t : Tree α) :
    (f.plug t).toList = f.before ++ t.toList ++ f.after := by
  obtain ⟨s, c, v, u⟩ := f
  cases s <;> simp [Frame.plug, Tree.branch, Frame.before, Frame.after]

@[simp] theorem Path.before_append (p q : Path α) :
    Path.before (p ++ q) = Path.before q ++ Path.before p := by
  induction p with
  | nil => simp [Path.before]
  | cons f p ih => simp [Path.before, ih]

@[simp] theorem Path.after_append (p q : Path α) :
    Path.after (p ++ q) = Path.after p ++ Path.after q := by
  induction p with
  | nil => rfl
  | cons f p ih => simp [Path.after, ih]

theorem Path.toList_fill (p : Path α) (t : Tree α) :
    (Path.fill p t).toList = Path.before p ++ t.toList ++ Path.after p := by
  induction p generalizing t with
  | nil => simp [Path.before, Path.after]
  | cons f p ih => simp [ih, Frame.toList_plug, Path.before, Path.after]

theorem Tree.zoom_append (cut : α → Ordering) (t : Tree α) (p : Path α) :
    (t.zoom cut p).1 = (t.zoom cut []).1 ++ p := by
  induction t generalizing p with
  | nil => rfl
  | node c l v r hl hr =>
    simp only [Tree.zoom]
    cases cut v with
    | lt => simp only; rw [hl, hl [_]]; simp
    | gt => simp only; rw [hr, hr [_]]; simp
    | eq => rfl

theorem Tree.zoom_branch (s : Side) (c : Color) (t : Tree α) (v : α) (u : Tree α) (p : Path α) :
    (Tree.branch s c t v u).zoom (fun _ => s.ordering) p =
      t.zoom (fun _ => s.ordering) (⟨s, c, v, u⟩ :: p) := by
  cases s <;> rfl

theorem Tree.find?_eq_zoom (cut : α → Ordering) (t : Tree α) (p : Path α) :
    t.find? cut = (match (t.zoom cut p).2 with
      | .nil => none
      | .node _ _ v _ => some v) := by
  induction t generalizing p with
  | nil => rfl
  | node c l v r hl hr =>
    simp only [Tree.find?, Tree.zoom]
    cases cut v with
    | lt => exact hl _
    | eq => rfl
    | gt => exact hr _

theorem Tree.fill_zoom (cut : α → Ordering) (t : Tree α) (p : Path α) :
    Path.fill (t.zoom cut p).1 (t.zoom cut p).2 = Path.fill p t := by
  induction t generalizing p with
  | nil => rfl
  | node c l v r hl hr =>
    unfold Tree.zoom
    split
    · rw [hl]; rfl
    · rw [hr]; rfl
    · rfl

theorem Tree.toList_zoom (cut : α → Ordering) (t : Tree α) :
    t.toList = Path.before (t.zoom cut []).1 ++ (t.zoom cut []).2.toList ++
      Path.after (t.zoom cut []).1 := by
  rw [← Path.toList_fill, Tree.fill_zoom]
  rfl

theorem Tree.zoom_side (side : Side) (t : Tree α) (p : Path α) :
    (t.zoom (fun _ => side.ordering) p).2 = .nil ∧
      ∃ q, (t.zoom (fun _ => side.ordering) p).1 = q ++ p ∧ ∀ f ∈ q, f.side = side := by
  induction t generalizing p with
  | nil => exact ⟨rfl, [], rfl, by simp⟩
  | node c l v r hl hr =>
    cases side with
    | left =>
      obtain ⟨h, q, hq, hs⟩ := hl (⟨.left, c, v, r⟩ :: p)
      refine ⟨h, q ++ [⟨.left, c, v, r⟩], hq.trans (by simp), fun f hf => ?_⟩
      rcases List.mem_append.1 hf with hf | hf
      · exact hs f hf
      · rw [List.mem_singleton.1 hf]
    | right =>
      obtain ⟨h, q, hq, hs⟩ := hr (⟨.right, c, v, l⟩ :: p)
      refine ⟨h, q ++ [⟨.right, c, v, l⟩], hq.trans (by simp), fun f hf => ?_⟩
      rcases List.mem_append.1 hf with hf | hf
      · exact hs f hf
      · rw [List.mem_singleton.1 hf]

theorem Tree.cut_zoom (cut : α → Ordering) (t : Tree α) (p : Path α) :
    ∀ c l v r, (t.zoom cut p).2 = .node c l v r → cut v = .eq := by
  induction t generalizing p with
  | nil => intro c l v r h; cases h
  | node c l v r hl hr =>
    intro d l' w r' h
    unfold Tree.zoom at h
    split at h
    · exact hl _ _ _ _ _ h
    · exact hr _ _ _ _ _ h
    · cases h; assumption

theorem Path.before_eq_nil {p : Path α} (h : ∀ f ∈ p, f.side = .left) : Path.before p = [] := by
  induction p with
  | nil => rfl
  | cons f p ih =>
    simp only [List.mem_cons, forall_eq_or_imp] at h
    simp [Path.before, Frame.before, h.1, ih h.2]

theorem Path.after_eq_nil {p : Path α} (h : ∀ f ∈ p, f.side = .right) : Path.after p = [] := by
  induction p with
  | nil => rfl
  | cons f p ih =>
    simp only [List.mem_cons, forall_eq_or_imp] at h
    simp [Path.after, Frame.after, h.1, ih h.2]

theorem Tree.extreme_eq_none_iff {side : Side} {t : Tree α} : t.extreme side = none ↔ t = .nil := by
  have hf := Tree.fill_zoom (fun _ => side.ordering) t []
  have hn := (Tree.zoom_side side t []).1
  unfold Tree.extreme
  split
  · rename_i h
    rw [h, hn] at hf
    simpa using hf.symm
  · rename_i h
    constructor
    · intro h'; cases h'
    · rintro rfl; cases h

theorem Tree.zoom_of_extreme {side : Side} {t : Tree α} {f : Frame α} {p : Path α}
    (h : t.extreme side = some (f, p)) : (t.zoom (fun _ => side.ordering) []).1 = f :: p := by
  unfold Tree.extreme at h
  split at h
  · cases h
  · cases h
    assumption

theorem Tree.fill_extreme {side : Side} {t : Tree α} {f : Frame α} {p : Path α}
    (h : t.extreme side = some (f, p)) : f.side = side ∧ Path.fill p (f.plug .nil) = t := by
  have hf := Tree.fill_zoom (fun _ => side.ordering) t []
  obtain ⟨hn, q, hq, hs⟩ := Tree.zoom_side side t []
  unfold Tree.extreme at h
  split at h
  · cases h
  · rename_i f' p' hz
    cases h
    rw [hz, List.append_nil] at hq
    subst hq
    rw [hz, hn] at hf
    exact ⟨hs _ (List.mem_cons_self ..), hf⟩

theorem Tree.toList_extreme_left {t : Tree α} {f : Frame α} {p : Path α}
    (h : t.extreme .left = some (f, p)) :
    Path.before p = [] ∧ t.toList = f.value :: (f.sibling.toList ++ Path.after p) := by
  have hl := Tree.toList_zoom (fun _ => Side.left.ordering) t
  obtain ⟨hn, q, hq, hs⟩ := Tree.zoom_side .left t []
  unfold Tree.extreme at h
  split at h
  · cases h
  · rename_i f' p' hz
    cases h
    rw [hz, List.append_nil] at hq
    subst hq
    simp only [List.mem_cons, forall_eq_or_imp] at hs
    have hb := Path.before_eq_nil hs.2
    rw [hz, hn] at hl
    simp only [Path.before, Path.after, Frame.before, Frame.after, hs.1, hb] at hl
    exact ⟨hb, by simpa using hl⟩

theorem Tree.toList_extreme_right {t : Tree α} {f : Frame α} {p : Path α}
    (h : t.extreme .right = some (f, p)) :
    Path.after p = [] ∧ t.toList = Path.before p ++ f.sibling.toList ++ [f.value] := by
  have hl := Tree.toList_zoom (fun _ => Side.right.ordering) t
  obtain ⟨hn, q, hq, hs⟩ := Tree.zoom_side .right t []
  unfold Tree.extreme at h
  split at h
  · cases h
  · rename_i f' p' hz
    cases h
    rw [hz, List.append_nil] at hq
    subst hq
    simp only [List.mem_cons, forall_eq_or_imp] at hs
    have ha := Path.after_eq_nil hs.2
    rw [hz, hn] at hl
    simp only [Path.before, Path.after, Frame.before, Frame.after, hs.1, ha] at hl
    exact ⟨ha, by simpa using hl⟩

end RedBlack
