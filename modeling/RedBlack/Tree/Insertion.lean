import RedBlack.Traced
import RedBlack.Tree.Path

set_option autoImplicit false

namespace RedBlack
variable {α : Type}

def Tree.rotate (toward : Side) : Tree α → Traced (Rotation α) (Tree α)
  | .node c l v r =>
    match toward, l, r with
    | .left, l, .node d m w r => do
      Traced.emit ⟨.left, v, w⟩
      pure (.node d (.node c l v m) w r)
    | .right, .node d l w m, r => do
      Traced.emit ⟨.right, v, w⟩
      pure (.node d l w (.node c m v r))
    | _, _, _ => Traced.stopped .missingPivot
  | .nil => Traced.stopped .missingPivot

def Frame.rotate (f : Frame α) : Traced (Rotation α) (Frame α × Frame α) :=
  match f.sibling with
  | .nil => Traced.stopped .missingPivot
  | .node d l w r => do
    Traced.emit ⟨f.side, f.value, w⟩
    match f.side with
    | .left => pure (⟨.left, f.color, f.value, l⟩, ⟨.left, d, w, r⟩)
    | .right => pure (⟨.right, f.color, f.value, r⟩, ⟨.right, d, w, l⟩)

theorem Tree.toList_rotate {side : Side} {t u : Tree α} {es : List (Rotation α)}
    (h : t.rotate side = .done u es) : u.toList = t.toList := by
  unfold Tree.rotate at h
  split at h
  · split at h
    · cases h; simp
    · cases h; simp
    · cases h
  · cases h

theorem Tree.length_rotate {side : Side} {t u : Tree α} {es : List (Rotation α)}
    (h : t.rotate side = .done u es) : es.length = 1 := by
  unfold Tree.rotate at h
  split at h
  · split at h <;> cases h <;> rfl
  · cases h

theorem Frame.rotate_branch (s : Side) (c d : Color) (v w : α) (near far : Tree α) :
    Frame.rotate ⟨s, c, v, .branch s d near w far⟩ =
      .done (⟨s, c, v, near⟩, ⟨s, d, w, far⟩) [⟨s, v, w⟩] := by
  cases s <;> rfl

theorem Frame.fill_rotate {f inner outer : Frame α} {es : List (Rotation α)}
    (h : f.rotate = .done (inner, outer) es) :
    Path.before [inner, outer] = f.before ∧ Path.after [inner, outer] = f.after := by
  obtain ⟨s, c, v, u⟩ := f
  cases u with
  | nil => cases h
  | node d l w r =>
    cases s <;> cases h <;> simp [Path.before, Path.after, Frame.before, Frame.after]

theorem Frame.value_rotate {f inner outer : Frame α} {es : List (Rotation α)}
    (h : f.rotate = .done (inner, outer) es) :
    inner.side = f.side ∧ inner.value = f.value ∧ inner.color = f.color := by
  obtain ⟨s, c, v, u⟩ := f
  cases u with
  | nil => cases h
  | node d l w r => cases s <;> cases h <;> exact ⟨rfl, rfl, rfl⟩

theorem Frame.length_rotate {f : Frame α} {x : Frame α × Frame α} {es : List (Rotation α)}
    (h : f.rotate = .done x es) : es.length = 1 := by
  obtain ⟨s, c, v, u⟩ := f
  cases u with
  | nil => cases h
  | node d l w r => cases s <;> cases h <;> rfl

/-- What becomes of a red pair below a grandparent: it is gone, or the grandparent is now red and
may form a pair with its own parent. -/
inductive Relief (α : Type) where
  | settled (subtree : Tree α)
  | raised (subtree : Tree α)

def Frame.align (p : Frame α) (side : Side) (t : Tree α) : Traced (Rotation α) (Tree α) :=
  if p.side = side then pure (p.plug t) else (p.plug t).rotate side

/-- Repairs a red subtree under its red parent `p` and its grandparent `g`. A red uncle lends its
colour to the grandparent; otherwise the upper of the two red nodes takes the grandparent's place,
after the lower one was brought to the outside. -/
def Frame.relieve (p g : Frame α) (t : Tree α) : Traced (Rotation α) (Relief α) :=
  if g.sibling.isRed then
    pure (.raised
      (.branch g.side .red ((p.plug t).paint .black) g.value (g.sibling.paint .black)))
  else do
    let upper ← p.align g.side t
    let whole := Tree.branch g.side .red (upper.paint .black) g.value g.sibling
    return .settled (← whole.rotate g.side.opposite)

/-- Fills the hole of a path with a red subtree, and repairs the pair it may form. -/
def Path.repairRed : Path α → Tree α → Traced (Rotation α) (Tree α)
  | [], t => pure (t.paint .black)
  | [p], t =>
    match p.color with
    | .black => pure (p.plug t)
    | .red => Traced.stopped .missingGrandparent
  | p :: g :: rest, t =>
    match p.color with
    | .black => pure (Path.fill (p :: g :: rest) t)
    | .red => do
      match ← p.relieve g t with
      | .settled u => pure (Path.fill rest u)
      | .raised u => Path.repairRed rest u

/-- The tree with `v` in its place, or nothing if a stored value compares equal to it. -/
def Tree.insert? (compare : α → α → Ordering) (v : α) (t : Tree α) :
    Traced (Rotation α) (Option (Tree α)) :=
  match t.zoom (compare v) [] with
  | (p, .nil) => do return some (← Path.repairRed p (.node .red .nil v .nil))
  | (_, .node ..) => pure none

theorem Tree.toList_branch (side : Side) (c : Color) (t : Tree α) (v : α) (u : Tree α) :
    (Tree.branch side c t v u).toList =
      (Frame.mk side c v u).before ++ t.toList ++ (Frame.mk side c v u).after :=
  Frame.toList_plug ⟨side, c, v, u⟩ t

theorem Frame.toList_align {p : Frame α} {side : Side} {t u : Tree α} {es : List (Rotation α)}
    (h : p.align side t = .done u es) : u.toList = (p.plug t).toList := by
  unfold Frame.align at h
  split at h
  · cases h; rfl
  · exact Tree.toList_rotate h

theorem Frame.toList_relieve {p g : Frame α} {t u : Tree α} {es : List (Rotation α)}
    (h : p.relieve g t = .done (.settled u) es ∨ p.relieve g t = .done (.raised u) es) :
    u.toList = (g.plug (p.plug t)).toList := by
  unfold Frame.relieve at h
  split at h
  · rcases h with h | h
    · cases h
    · cases h
      rw [Tree.toList_branch, Frame.toList_plug g, Tree.toList_paint]
      simp [Frame.before, Frame.after]
  · simp only [Traced.bind_eq_done_iff] at h
    rcases h with ⟨_, _, _, ha, ⟨_, _, _, hr, h, _⟩, _⟩ | ⟨_, _, _, _, ⟨_, _, _, _, h, _⟩, _⟩
    · cases h
      rw [Tree.toList_rotate hr, Tree.toList_branch, Tree.toList_paint, Frame.toList_align ha,
        Frame.toList_plug g]
      rfl
    · cases h

theorem Path.toList_repairRed {p : Path α} {t u : Tree α} {es : List (Rotation α)}
    (h : Path.repairRed p t = .done u es) : u.toList = (Path.fill p t).toList := by
  fun_induction Path.repairRed p t generalizing u es with
  | case1 t => cases h; simp
  | case2 p t hc => cases h; rfl
  | case3 p t hc => cases h
  | case4 p g rest t hc => cases h; rfl
  | case5 p g rest t hc ih =>
    obtain ⟨x, _, _, hx, h, _⟩ := Traced.bind_eq_done_iff.1 h
    cases x with
    | settled w =>
      cases h
      simp [Path.toList_fill, Frame.toList_relieve (Or.inl hx), Frame.toList_plug]
    | raised w =>
      rw [ih _ h]
      simp [Path.toList_fill, Frame.toList_relieve (Or.inr hx), Frame.toList_plug]

theorem Tree.toList_insert? {compare : α → α → Ordering} {v : α} {t u : Tree α}
    {es : List (Rotation α)}
    (h : t.insert? compare v = .done (some u) es) :
    t.toList = Path.before (t.zoom (compare v) []).1 ++ Path.after (t.zoom (compare v) []).1 ∧
      u.toList = Path.before (t.zoom (compare v) []).1 ++
        v :: Path.after (t.zoom (compare v) []).1 := by
  have hz := Tree.fill_zoom (compare v) t []
  unfold Tree.insert? at h
  split at h
  · rename_i p hp
    rw [hp] at hz ⊢
    obtain ⟨w, _, _, hw, h, _⟩ := Traced.bind_eq_done_iff.1 h
    cases h
    have hl := Path.toList_fill p .nil
    rw [hz] at hl
    simpa [Path.toList_repairRed hw, Path.toList_fill] using hl
  · cases h

end RedBlack
