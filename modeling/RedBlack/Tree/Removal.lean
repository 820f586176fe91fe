import RedBlack.Tree.Insertion

/-!
Removal. Only a node with at most one child leaves the tree; a node with two takes the value of its
predecessor, whose node leaves instead. A black leaf leaves its place one black node short, and the
path above is repaired before it goes. The repair leaves the values before and after the place
alone, and `toList_take?` says that a removal takes one value out and keeps the others in order.
-/

set_option autoImplicit false

namespace RedBlack
variable {α : Type}

/-- The frames that take the place of one frame whose hole was short of a black node: the shortage
is gone, or it is the whole subtree's now. -/
inductive Refund (α : Type) where
  | settled (frames : Path α)
  | raised (frame : Frame α)

def Tree.expose (side : Side) (t : Tree α) : Traced (Rotation α) (Tree α) :=
  if (t.child side).isRed then pure t else t.rotate side

def Tree.hasRedChild (t : Tree α) : Bool := (t.child .left).isRed || (t.child .right).isRed

/-- Moves a red nephew up as the black node the hole is short of: the far nephew if that is red, or
else the near one, which is rotated into the sibling's place first. The sibling must not be red. -/
def Frame.borrow (f : Frame α) : Traced (Rotation α) (Option (Frame α × Frame α)) :=
  match f.sibling with
  | .nil => .stopped .missingSibling
  | .node .. =>
    if f.sibling.hasRedChild then do
      let upper ← f.sibling.expose f.side.opposite
      let sibling := (upper.paint f.color).paintChild f.side.opposite .black
      return some (← { f with color := .black, sibling := sibling }.rotate)
    else
      pure none

def Frame.cede (f : Frame α) : Frame α :=
  { f with color := .black, sibling := f.sibling.paint .red }

/-- Makes up for a shortage in the hole. A red sibling is first moved above the parent, so that the
hole gets a sibling that is black and a parent that is red. -/
def Frame.refund (f : Frame α) : Traced (Rotation α) (Refund α) :=
  if f.sibling.isRed then do
    let (f, outer) ← { f with color := .red, sibling := f.sibling.paint .black }.rotate
    match ← f.borrow with
    | some (a, b) => return .settled [a, b, outer]
    | none => return .settled [f.cede, outer]
  else do
    match ← f.borrow with
    | some (a, b) => return .settled [a, b]
    | none =>
      match f.color with
      | .red => return .settled [f.cede]
      | .black => return .raised f.cede

/-- Makes up for a black node about to leave the hole of a path. -/
def Path.repairDeficit : Path α → Traced (Rotation α) (Path α)
  | [] => pure []
  | f :: rest => do
    match ← f.refund with
    | .settled frames => return frames ++ rest
    | .raised frame => return frame :: (← Path.repairDeficit rest)

/-- Puts the only child of a node, which may be empty, in its place. A black node with one child
has a red one, which takes over its colour. -/
def Path.splice (p : Path α) (c : Color) (child : Tree α) : Traced (Rotation α) (Tree α) :=
  match c, child with
  | .red, child => pure (Path.fill p child)
  | .black, .nil => do return Path.fill (← Path.repairDeficit p) .nil
  | .black, child => pure (Path.fill p (child.paint .black))

def Path.erase (p : Path α) (c : Color) (l r : Tree α) : Traced (Rotation α) (Tree α) :=
  match r with
  | .nil => Path.splice p c l
  | .node .. =>
    match l.extreme .right with
    | none => Path.splice p c r
    | some (f, inner) => Path.splice (inner ++ ⟨.left, c, f.value, r⟩ :: p) f.color f.sibling

def Tree.take? (cut : α → Ordering) (t : Tree α) : Traced (Rotation α) (Option (α × Tree α)) :=
  match t.zoom cut [] with
  | (_, .nil) => pure none
  | (p, .node c l v r) => do return some (v, ← Path.erase p c l r)

def Tree.takeExtreme? (side : Side) (t : Tree α) : Traced (Rotation α) (Option (α × Tree α)) :=
  match t.extreme side with
  | none => pure none
  | some (f, p) => do return some (f.value, ← Path.splice p f.color f.sibling)

@[simp] theorem Tree.hasRedChild_branch (s : Side) (c : Color) (t : Tree α) (v : α) (u : Tree α) :
    (Tree.branch s c t v u).hasRedChild = (t.isRed || u.isRed) := by
  cases s
  · rfl
  · exact Bool.or_comm ..

theorem Tree.hasRedChild_sides (s : Side) (t : Tree α) :
    t.hasRedChild = ((t.child s).isRed || (t.child s.opposite).isRed) := by
  cases s
  · rfl
  · exact Bool.or_comm ..

theorem Frame.hasRedChild_of_borrow {f : Frame α} {x : Frame α × Frame α} {es : List (Rotation α)}
    (h : f.borrow = .done (some x) es) : f.sibling.hasRedChild = true := by
  unfold Frame.borrow at h
  split at h
  · cases h
  · split at h
    · assumption
    · cases h

theorem Frame.hasRedChild_of_borrow_none {f : Frame α} {es : List (Rotation α)}
    (h : f.borrow = .done none es) : es = [] ∧ f.sibling.hasRedChild = false := by
  unfold Frame.borrow at h
  split at h
  · cases h
  · split at h
    · simp only [Traced.bind_eq_done_iff] at h
      obtain ⟨_, _, _, -, ⟨_, _, _, -, h, -⟩, -⟩ := h
      cases h
    · rename_i hn
      cases h
      exact ⟨rfl, by simpa using hn⟩

theorem Path.erase_nil_left (p : Path α) (c : Color) (r : Tree α) :
    Path.erase p c .nil r = Path.splice p c r := by
  cases r <;> rfl

theorem Path.erase_inner {p inner : Path α} {c : Color} {l r : Tree α} {f : Frame α}
    (hl : l.extreme .right = some (f, inner)) (hr : r ≠ .nil) :
    Path.erase p c l r =
      Path.splice (inner ++ ⟨.left, c, f.value, r⟩ :: p) f.color f.sibling := by
  cases r with
  | nil => exact absurd rfl hr
  | node d a v b => simp only [Path.erase, hl]

theorem Frame.borrow_branch (s : Side) (c d : Color) (v w : α) (near far : Tree α) :
    Frame.borrow ⟨s, c, v, .branch s d near w far⟩ =
      if near.isRed || far.isRed then do
        let upper ← (Tree.branch s d near w far).expose s.opposite
        let sibling := (upper.paint c).paintChild s.opposite .black
        return some (← Frame.rotate ⟨s, .black, v, sibling⟩)
      else pure none := by
  rw [← Tree.hasRedChild_branch s d near w far]
  cases s <;> rfl

theorem Frame.borrow_far {s : Side} {c d : Color} {v w : α} {near far : Tree α}
    (h : far.isRed = true) :
    Frame.borrow ⟨s, c, v, .branch s d near w far⟩ =
      .done (some (⟨s, .black, v, near⟩, ⟨s, c, w, far.paint .black⟩)) [⟨s, v, w⟩] := by
  rw [Frame.borrow_branch, h, Bool.or_true, if_pos rfl, Tree.expose, Tree.child_branch_opposite,
    if_pos h]
  cases s <;> rfl

theorem Frame.borrow_near {s : Side} {c d : Color} {v w x : α} {a b far : Tree α}
    (h : far.isRed = false) :
    Frame.borrow ⟨s, c, v, .branch s d (.branch s .red a x b) w far⟩ =
      .done (some (⟨s, .black, v, a⟩, ⟨s, c, x, .branch s .black b w far⟩))
        [⟨s.opposite, w, x⟩, ⟨s, v, x⟩] := by
  rw [Frame.borrow_branch, Tree.expose, Tree.child_branch_opposite, h]
  cases s <;> rfl

theorem Frame.borrow_none {s : Side} {c d : Color} {v w : α} {near far : Tree α}
    (hn : near.isRed = false) (hf : far.isRed = false) :
    Frame.borrow ⟨s, c, v, .branch s d near w far⟩ = .done none [] := by
  rw [Frame.borrow_branch, hn, hf]
  rfl

theorem Tree.toList_expose {side : Side} {t u : Tree α} {es : List (Rotation α)}
    (h : t.expose side = .done u es) : u.toList = t.toList := by
  unfold Tree.expose at h
  split at h
  · cases h; rfl
  · exact Tree.toList_rotate h

theorem Frame.sides_borrow {f a b : Frame α} {es : List (Rotation α)}
    (h : f.borrow = .done (some (a, b)) es) :
    Path.before [a, b] = f.before ∧ Path.after [a, b] = f.after := by
  unfold Frame.borrow at h
  split at h
  · cases h
  · split at h
    · simp only [Traced.bind_eq_done_iff] at h
      obtain ⟨_, _, _, he, ⟨_, _, _, hr, h, _⟩, _⟩ := h
      cases h
      obtain ⟨hb, ha⟩ := Frame.fill_rotate hr
      rw [hb, ha]
      simp [Frame.before, Frame.after, Tree.toList_expose he]
    · cases h

@[simp] theorem Frame.before_cede (f : Frame α) : f.cede.before = f.before := by
  simp [Frame.cede, Frame.before]

@[simp] theorem Frame.after_cede (f : Frame α) : f.cede.after = f.after := by
  simp [Frame.cede, Frame.after]

def Refund.path : Refund α → Path α
  | .settled frames => frames
  | .raised frame => [frame]

theorem Frame.sides_refund {f : Frame α} {r : Refund α} {es : List (Rotation α)}
    (h : f.refund = .done r es) : Path.before r.path = f.before ∧ Path.after r.path = f.after := by
  unfold Frame.refund at h
  split at h
  · simp only [Traced.bind_eq_done_iff] at h
    obtain ⟨⟨inner, outer⟩, _, _, hr, ⟨x, _, _, hb, h, _⟩, _⟩ := h
    obtain ⟨hb', ha'⟩ := Frame.fill_rotate hr
    simp only [Frame.before, Frame.after, Path.before, Path.after, Tree.toList_paint] at hb' ha'
    cases x with
    | none =>
      cases h
      simp [Refund.path, Path.before, Path.after, Frame.before, Frame.after, Frame.cede]
        at hb' ha' ⊢
      exact ⟨hb', ha'⟩
    | some x =>
      obtain ⟨a, b⟩ := x
      cases h
      obtain ⟨hb'', ha''⟩ := Frame.sides_borrow hb
      have e : ([a, b, outer] : Path α) = [a, b] ++ [outer] := rfl
      rw [Refund.path, e, Path.before_append, Path.after_append, hb'', ha'']
      simp [Path.before, Path.after, Frame.before, Frame.after] at hb' ha' ⊢
      exact ⟨hb', ha'⟩
  · simp only [Traced.bind_eq_done_iff] at h
    obtain ⟨x, _, _, hb, h, _⟩ := h
    cases x with
    | none =>
      dsimp only at h
      split at h <;> cases h <;> simp [Refund.path, Path.before, Path.after]
    | some x =>
      obtain ⟨a, b⟩ := x
      cases h
      exact Frame.sides_borrow hb

theorem Path.sides_repairDeficit {p q : Path α} {es : List (Rotation α)}
    (h : Path.repairDeficit p = .done q es) :
    Path.before q = Path.before p ∧ Path.after q = Path.after p := by
  induction p generalizing q es with
  | nil => cases h; exact ⟨rfl, rfl⟩
  | cons f rest ih =>
    unfold Path.repairDeficit at h
    obtain ⟨r, _, _, hr, h, _⟩ := Traced.bind_eq_done_iff.1 h
    obtain ⟨hb, ha⟩ := Frame.sides_refund hr
    cases r with
    | settled frames =>
      cases h
      simp only [Refund.path] at hb ha
      simp [hb, ha, Path.before, Path.after]
    | raised frame =>
      obtain ⟨q', _, _, hq, h, _⟩ := Traced.bind_eq_done_iff.1 h
      cases h
      obtain ⟨hb', ha'⟩ := ih hq
      simp only [Refund.path, Path.before, Path.after, List.nil_append, List.append_nil] at hb ha
      simp [Path.before, Path.after, hb, ha, hb', ha']

theorem Path.toList_splice {p : Path α} {c : Color} {t u : Tree α} {es : List (Rotation α)}
    (h : Path.splice p c t = .done u es) :
    u.toList = Path.before p ++ t.toList ++ Path.after p := by
  unfold Path.splice at h
  split at h
  · cases h; exact Path.toList_fill ..
  · obtain ⟨q, _, _, hq, h, _⟩ := Traced.bind_eq_done_iff.1 h
    cases h
    rw [Path.toList_fill, (Path.sides_repairDeficit hq).1, (Path.sides_repairDeficit hq).2]
  · cases h; simp [Path.toList_fill]

theorem Path.toList_erase {p : Path α} {c : Color} {l r u : Tree α} {es : List (Rotation α)}
    (h : Path.erase p c l r = .done u es) :
    u.toList = Path.before p ++ (l.toList ++ r.toList) ++ Path.after p := by
  unfold Path.erase at h
  split at h
  · simpa using Path.toList_splice h
  · split at h
    · rename_i hl
      rw [Tree.extreme_eq_none_iff] at hl
      simpa [hl] using Path.toList_splice h
    · rename_i f inner hl
      obtain ⟨ha, hv⟩ := Tree.toList_extreme_right hl
      rw [Path.toList_splice h, hv]
      simp [Path.before, Path.after, Frame.before, Frame.after, ha]

theorem Tree.toList_take? {cut : α → Ordering} {t u : Tree α} {v : α} {es : List (Rotation α)}
    (h : t.take? cut = .done (some (v, u)) es) :
    ∃ xs ys, cut v = .eq ∧ t.toList = xs ++ v :: ys ∧ u.toList = xs ++ ys := by
  have hl := Tree.toList_zoom cut t
  have hv := Tree.cut_zoom cut t []
  unfold Tree.take? at h
  split at h
  · cases h
  · rename_i p c l w r hz
    rw [hz] at hl hv
    obtain ⟨u', _, _, hu, h, _⟩ := Traced.bind_eq_done_iff.1 h
    cases h
    refine ⟨Path.before p ++ l.toList, r.toList ++ Path.after p, hv _ _ _ _ rfl, ?_, ?_⟩
    · simpa using hl
    · simpa using Path.toList_erase hu

theorem Tree.takeExtreme?_eq_none {side : Side} {t : Tree α} {es : List (Rotation α)}
    (h : t.takeExtreme? side = .done none es) : t = .nil := by
  unfold Tree.takeExtreme? at h
  split at h
  · rename_i he
    exact Tree.extreme_eq_none_iff.1 he
  · obtain ⟨_, _, _, -, h, -⟩ := Traced.bind_eq_done_iff.1 h
    cases h

theorem Tree.toList_takeExtreme?_left {t u : Tree α} {v : α} {es : List (Rotation α)}
    (h : t.takeExtreme? .left = .done (some (v, u)) es) : t.toList = v :: u.toList := by
  unfold Tree.takeExtreme? at h
  split at h
  · cases h
  · rename_i f p hp
    obtain ⟨u', _, _, hu, h, _⟩ := Traced.bind_eq_done_iff.1 h
    cases h
    obtain ⟨hb, hl⟩ := Tree.toList_extreme_left hp
    rw [Path.toList_splice hu, hb, hl]
    rfl

theorem Tree.toList_takeExtreme?_right {t u : Tree α} {v : α} {es : List (Rotation α)}
    (h : t.takeExtreme? .right = .done (some (v, u)) es) : t.toList = u.toList ++ [v] := by
  unfold Tree.takeExtreme? at h
  split at h
  · cases h
  · rename_i f p hp
    obtain ⟨u', _, _, hu, h, _⟩ := Traced.bind_eq_done_iff.1 h
    cases h
    obtain ⟨ha, hl⟩ := Tree.toList_extreme_right hp
    rw [Path.toList_splice hu, ha, hl]
    simp

end RedBlack
