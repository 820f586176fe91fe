import RedBlack.Tree.Insertion
import RedBlack.Tree.Removal

set_option autoImplicit false

namespace RedBlack
variable {α β : Type} (g : α → β)

def Frame.map (f : Frame α) : Frame β := ⟨f.side, f.color, g f.value, f.sibling.map g⟩

def Path.map (p : Path α) : Path β := List.map (Frame.map g) p

@[simp] theorem Path.map_nil : Path.map g [] = [] := rfl

@[simp] theorem Path.map_cons (f : Frame α) (p : Path α) :
    Path.map g (f :: p) = f.map g :: Path.map g p := rfl

@[simp] theorem Path.map_append (p q : Path α) :
    Path.map g (p ++ q) = Path.map g p ++ Path.map g q := List.map_append

def Relief.map : Relief α → Relief β
  | .settled t => .settled (t.map g)
  | .raised t => .raised (t.map g)

def Refund.map : Refund α → Refund β
  | .settled p => .settled (Path.map g p)
  | .raised f => .raised (f.map g)

@[simp] theorem Tree.map_nil : (Tree.nil : Tree α).map g = .nil := rfl

@[simp] theorem Tree.map_node (c : Color) (l : Tree α) (v : α) (r : Tree α) :
    (Tree.node c l v r).map g = .node c (l.map g) (g v) (r.map g) := rfl

@[simp] theorem Tree.isRed_map (t : Tree α) : (t.map g).isRed = t.isRed := by
  cases t with
  | nil => rfl
  | node c l v r => cases c <;> rfl

@[simp] theorem Tree.map_paint (c : Color) (t : Tree α) :
    (t.paint c).map g = (t.map g).paint c := by
  cases t <;> rfl

@[simp] theorem Tree.child_map (t : Tree α) (s : Side) : (t.map g).child s = (t.child s).map g := by
  cases t <;> cases s <;> rfl

@[simp] theorem Tree.map_branch (s : Side) (c : Color) (t : Tree α) (v : α) (u : Tree α) :
    (Tree.branch s c t v u).map g = .branch s c (t.map g) (g v) (u.map g) := by
  cases s <;> rfl

@[simp] theorem Tree.map_paintChild (s : Side) (c : Color) (t : Tree α) :
    (t.paintChild s c).map g = (t.map g).paintChild s c := by
  cases t <;> cases s <;> simp [Tree.paintChild]

@[simp] theorem Tree.hasRedChild_map (t : Tree α) : (t.map g).hasRedChild = t.hasRedChild := by
  simp [Tree.hasRedChild]

@[simp] theorem Tree.map_rotate (s : Side) (t : Tree α) :
    (t.map g).rotate s = Tree.map g <$> (t.rotate s).relabel (Rotation.map g) := by
  cases t with
  | nil => rfl
  | node c l v r => cases s <;> cases l <;> cases r <;> rfl

section Frame
variable (f : Frame α)

@[simp] theorem Frame.side_map : (f.map g).side = f.side := rfl

@[simp] theorem Frame.color_map : (f.map g).color = f.color := rfl

@[simp] theorem Frame.value_map : (f.map g).value = g f.value := rfl

@[simp] theorem Frame.sibling_map : (f.map g).sibling = f.sibling.map g := rfl

@[simp] theorem Frame.plug_map (t : Tree α) : (f.map g).plug (t.map g) = (f.plug t).map g := by
  simp [Frame.plug]

@[simp] theorem Frame.cede_map : (f.map g).cede = f.cede.map g := by
  simp [Frame.cede, Frame.map]

theorem Frame.map_rotate : (f.map g).rotate =
    Prod.map (Frame.map g) (Frame.map g) <$> f.rotate.relabel (Rotation.map g) := by
  obtain ⟨s, c, v, u⟩ := f
  cases u with
  | nil => rfl
  | node d l w r => cases s <;> rfl

theorem Frame.map_align (s : Side) (t : Tree α) :
    (f.map g).align s (t.map g) = Tree.map g <$> (f.align s t).relabel (Rotation.map g) := by
  simp only [Frame.align, Frame.side_map, Frame.plug_map, Tree.map_rotate]
  split <;> simp

theorem Frame.map_relieve (f' : Frame α) (t : Tree α) :
    (f.map g).relieve (f'.map g) (t.map g) =
      Relief.map g <$> (f.relieve f' t).relabel (Rotation.map g) := by
  simp only [Frame.relieve, Frame.side_map, Frame.plug_map, Frame.sibling_map, Frame.value_map,
    Tree.isRed_map, Frame.map_align]
  split
  · simp [Relief.map]
  · simp only [map_bind, Traced.relabel_bind, bind_map_left, ← Tree.map_paint, ← Tree.map_branch,
      Tree.map_rotate, map_pure, Traced.relabel_pure, Relief.map]

end Frame

theorem Path.map_fill (p : Path α) (t : Tree α) :
    Path.fill (Path.map g p) (t.map g) = (Path.fill p t).map g := by
  induction p generalizing t with
  | nil => rfl
  | cons f p ih => rw [Path.fill_cons, ← ih, ← Frame.plug_map]; rfl

theorem Path.map_repairRed (p : Path α) (t : Tree α) :
    Path.repairRed (Path.map g p) (t.map g) =
      Tree.map g <$> (Path.repairRed p t).relabel (Rotation.map g) := by
  fun_induction Path.repairRed p t with
  | case1 t => simp [Path.repairRed]
  | case2 f t hf => simp [Path.repairRed, hf]
  | case3 f t hf => simp [Path.repairRed, hf]
  | case4 f f' rest t hf =>
    simp only [Path.map_cons, Path.repairRed, Frame.color_map, hf, map_pure, Traced.relabel_pure]
    exact congrArg pure (Path.map_fill g (f :: f' :: rest) t)
  | case5 f f' rest t hf ih =>
    simp only [Path.map_cons, Path.repairRed, Frame.color_map, hf, Frame.map_relieve,
      map_bind, Traced.relabel_bind, bind_map_left]
    congr 1
    funext r
    cases r with
    | settled u =>
      simp only [Relief.map, map_pure, Traced.relabel_pure, ← Path.map_fill]
    | raised u => exact ih u

theorem Tree.map_zoom (cut : β → Ordering) (t : Tree α) (p : Path α) :
    (t.map g).zoom cut (Path.map g p) =
      (Path.map g (t.zoom (fun v => cut (g v)) p).1, (t.zoom (fun v => cut (g v)) p).2.map g) := by
  induction t generalizing p with
  | nil => rfl
  | node c l v r hl hr =>
    simp only [Tree.map, Tree.zoom]
    cases cut (g v) with
    | lt => exact hl (⟨.left, c, v, r⟩ :: p)
    | eq => rfl
    | gt => exact hr (⟨.right, c, v, l⟩ :: p)

theorem Tree.map_insert? (compare : β → β → Ordering) (v : α) (t : Tree α) :
    (t.map g).insert? compare (g v) =
      Option.map (Tree.map g) <$>
        (t.insert? (fun a b => compare (g a) (g b)) v).relabel (Rotation.map g) := by
  have hz := Tree.map_zoom g (compare (g v)) t []
  rw [Path.map_nil] at hz
  simp only [Tree.insert?, hz]
  cases t.zoom (fun b => compare (g v) (g b)) [] with
  | mk p u =>
    cases u with
    | nil =>
      have hr := Path.map_repairRed g p (.node .red .nil v .nil)
      simp only [Tree.map_nil, Tree.map_node] at hr
      simp only [Tree.map_nil, map_bind, Traced.relabel_bind, map_pure, Traced.relabel_pure,
        Option.map_some]
      rw [hr, bind_map_left]
    | node c l w r => rfl

@[simp] theorem Tree.map_expose (s : Side) (t : Tree α) :
    (t.map g).expose s = Tree.map g <$> (t.expose s).relabel (Rotation.map g) := by
  simp only [Tree.expose, Tree.child_map, Tree.isRed_map, Tree.map_rotate]
  split <;> simp

theorem Frame.map_borrow (f : Frame α) :
    (f.map g).borrow =
      Option.map (Prod.map (Frame.map g) (Frame.map g)) <$> f.borrow.relabel (Rotation.map g) := by
  obtain ⟨s, c, v, u⟩ := f
  cases u with
  | nil => rfl
  | node d l w r =>
    have hc := Tree.hasRedChild_map g (.node d l w r)
    have he := Tree.map_expose g s.opposite (.node d l w r)
    simp only [Tree.map_node] at hc he
    simp only [Frame.borrow, Frame.map, Tree.map_node, hc, he]
    split
    · simp only [map_bind, Traced.relabel_bind, bind_map_left, map_pure, Traced.relabel_pure,
        Option.map_some]
      congr 1
      funext upper
      have hr := Frame.map_rotate g ⟨s, .black, v, (upper.paint c).paintChild s.opposite .black⟩
      simp only [Frame.map, Tree.map_paintChild, Tree.map_paint] at hr
      rw [hr, bind_map_left]
    · rfl

theorem Frame.map_refund (f : Frame α) :
    (f.map g).refund = Refund.map g <$> f.refund.relabel (Rotation.map g) := by
  have hr := Frame.map_rotate g { f with color := .red, sibling := f.sibling.paint .black }
  simp only [Frame.map, Tree.map_paint] at hr
  simp only [Frame.refund, Frame.sibling_map, Tree.isRed_map]
  split
  · simp only [Frame.map, hr, map_bind, Traced.relabel_bind, bind_map_left]
    congr 1
    funext x
    obtain ⟨inner, outer⟩ := x
    simp only [Prod.map_apply, Frame.map_borrow, bind_map_left]
    congr 1
    funext y
    cases y with
    | none =>
      simp only [Option.map_none, map_pure, Traced.relabel_pure, Refund.map, Path.map_cons,
        Path.map_nil, Frame.cede_map]
    | some y => rfl
  · rw [Frame.map_borrow, Traced.relabel_bind, map_bind, bind_map_left]
    congr 1
    funext y
    cases y with
    | none =>
      simp only [Option.map_none, Frame.color_map, Frame.cede_map]
      split <;> rfl
    | some y => rfl

theorem Path.map_repairDeficit (p : Path α) :
    Path.repairDeficit (Path.map g p) =
      Path.map g <$> (Path.repairDeficit p).relabel (Rotation.map g) := by
  induction p with
  | nil => rfl
  | cons f p ih =>
    simp only [Path.map_cons, Path.repairDeficit, Frame.map_refund, map_bind, Traced.relabel_bind,
      bind_map_left]
    congr 1
    funext r
    cases r with
    | settled q => simp [Refund.map]
    | raised f' =>
      simp only [Refund.map, map_bind, Traced.relabel_bind, map_pure, Traced.relabel_pure]
      rw [ih, bind_map_left]
      rfl

theorem Path.map_splice (p : Path α) (c : Color) (t : Tree α) :
    Path.splice (Path.map g p) c (t.map g) =
      Tree.map g <$> (Path.splice p c t).relabel (Rotation.map g) := by
  cases c with
  | red => simp [Path.splice, Path.map_fill]
  | black =>
    cases t with
    | nil =>
      simp only [Path.splice, Tree.map_nil, Path.map_repairDeficit, map_bind, Traced.relabel_bind,
        bind_map_left, map_pure, Traced.relabel_pure, ← Path.map_fill]
    | node d l v r =>
      have hf := Path.map_fill g p ((Tree.node d l v r).paint .black)
      simp only [Path.splice, Tree.map_node, map_pure, Traced.relabel_pure, ← hf, Tree.map_paint]

theorem Path.exists_splice_of_map {g : α → β} {p : Path α} {c : Color} {t : Tree α} {w : Tree β}
    {ts : List (Rotation β)} (h : Path.splice (Path.map g p) c (t.map g) = .done w ts) :
    ∃ u us, Path.splice p c t = .done u us ∧ u.map g = w ∧ us.map (Rotation.map g) = ts := by
  rw [Path.map_splice, Traced.map_eq_done_iff] at h
  obtain ⟨u, hu, rfl⟩ := h
  obtain ⟨us, hus, rfl⟩ := Traced.relabel_eq_done_iff.1 hu
  exact ⟨u, us, hus, rfl, rfl⟩

theorem Tree.map_extreme (side : Side) (t : Tree α) :
    (t.map g).extreme side = Option.map (Prod.map (Frame.map g) (Path.map g)) (t.extreme side) := by
  have hz := Tree.map_zoom g (fun _ => side.ordering) t []
  rw [Path.map_nil] at hz
  simp only [Tree.extreme, hz]
  cases (t.zoom (fun _ => side.ordering) []).1 with
  | nil => rfl
  | cons f p => rfl

theorem Path.map_erase (p : Path α) (c : Color) (l r : Tree α) :
    Path.erase (Path.map g p) c (l.map g) (r.map g) =
      Tree.map g <$> (Path.erase p c l r).relabel (Rotation.map g) := by
  cases r with
  | nil => exact Path.map_splice g p c l
  | node d a v b =>
    simp only [Path.erase, Tree.map_node, Tree.map_extreme]
    cases l.extreme .right with
    | none => exact Path.map_splice g p c (.node d a v b)
    | some x =>
      obtain ⟨f, inner⟩ := x
      have hs := Path.map_splice g (inner ++ ⟨.left, c, f.value, .node d a v b⟩ :: p) f.color
        f.sibling
      simpa [Frame.map] using hs

end RedBlack
