import Mathlib.Logic.Basic
import RedBlack.Arena.Update

/-!
Arenas do not look at their values: passing them through a function commutes with insertion and
removal, as long as comparisons come out the same. Not even the indices of nodes differ.
-/

set_option autoImplicit false

namespace RedBlack

instance {ε : Type} : LawfulMonadLift (Except Fault) (Traced ε) where
  monadLift_pure _ := rfl
  monadLift_bind x f := by
    cases x with
    | error e => rfl
    | ok b => exact (Traced.done_nil_bind b fun b => Traced.ofExcept (f b)).symm

def Round.map {σ σ' β β' : Type} (g : σ → σ') (h : β → β') : Round σ β → Round σ' β'
  | .again s => .again (g s)
  | .over b => .over (h b)

theorem map_loop {σ σ' β β' : Type} {m : Type → Type} [Monad m] [LawfulMonad m]
    [MonadLiftT (Except Fault) m] [LawfulMonadLiftT (Except Fault) m] {body : σ → m (Round σ β)}
    {body' : σ' → m (Round σ' β')} {g : σ → σ'} {h : β → β'}
    (hb : ∀ s, body' (g s) = Round.map g h <$> body s) (n : Nat) (s : σ) :
    loop body' n (g s) = h <$> loop body n s := by
  induction n generalizing s with
  | zero => simp only [loop, ← liftM_map]; rfl
  | succ n ih =>
    simp only [loop, hb, map_bind, bind_map_left]
    congr 1
    funext r
    obtain s | b := r
    · exact ih s
    · simp [Round.map]

section Node
variable {α β : Type} (f : α → β) (n : Node α)

@[simp] theorem Node.value_map : (n.map f).value = f n.value := rfl

@[simp] theorem Node.color_map : (n.map f).color = n.color := rfl

@[simp] theorem Node.parent_map : (n.map f).parent = n.parent := rfl

@[simp] theorem Node.left_map : (n.map f).left = n.left := rfl

@[simp] theorem Node.right_map : (n.map f).right = n.right := rfl

@[simp] theorem Node.isRed_map : (n.map f).isRed = n.isRed := rfl

@[simp] theorem Node.child_map (side : Side) : (n.map f).child side = n.child side := by
  cases side <;> rfl

end Node

namespace Arena
variable {α β : Type} (f : α → β) (a : Arena α) (i j : Nat) (side : Side) (l : Link)

@[simp] theorem size_map : (a.map f).size = a.size := by simp [Arena.size, Arena.map]

@[simp] theorem root_map : (a.map f).root = a.root := rfl

@[simp] theorem map_node : (a.map f).node i = Node.map f <$> a.node i := by
  simp only [Arena.node, Arena.map, Array.getElem?_map]
  cases a.nodes[i]? <;> rfl

theorem map_modify {g : Node α → Node α} {g' : Node β → Node β}
    (hg : ∀ n, g' (n.map f) = (g n).map f) :
    (a.map f).modify i g' = map f <$> a.modify i g := by
  have hs : (a.map f).nodes.size = a.nodes.size := size_map f a
  simp only [Arena.modify, hs]
  split
  · refine congrArg Except.ok (congrArg (Arena.mk · a.root) ?_)
    refine Array.ext_getElem? fun k => ?_
    simp only [Arena.map, Array.getElem?_modify, Array.getElem?_map]
    split <;> simp [Function.comp_def, hg]
  · rfl

@[simp] theorem map_value : (a.map f).value i = f <$> a.value i := by
  simp [Arena.value]

@[simp] theorem map_setValue (v : α) :
    (a.map f).setValue i (f v) = map f <$> a.setValue i v :=
  map_modify f a i fun _ => rfl

@[simp] theorem map_setColor (c : Color) : (a.map f).setColor i c = map f <$> a.setColor i c :=
  map_modify f a i fun _ => rfl

@[simp] theorem map_setParent : (a.map f).setParent i l = map f <$> a.setParent i l :=
  map_modify f a i fun _ => rfl

@[simp] theorem map_setChild : (a.map f).setChild i side l = map f <$> a.setChild i side l :=
  map_modify f a i fun _ => by cases side <;> rfl

@[simp] theorem map_adopt (parent : Link) :
    (a.map f).adopt l parent = map f <$> a.adopt l parent := by
  cases l with
  | none => rfl
  | some i => exact map_setParent ..

@[simp] theorem map_sideOf : (a.map f).sideOf i j = a.sideOf i j := by
  simp only [Arena.sideOf, map_node, bind_map_left]
  rfl

@[simp] theorem map_replaceChild (parent : Link) :
    (a.map f).replaceChild parent i l = map f <$> a.replaceChild parent i l := by
  cases parent with
  | none => rfl
  | some p => simp [Arena.replaceChild]

@[simp] theorem map_redChild : (a.map f).redChild i side = a.redChild i side := by
  simp only [Arena.redChild, map_node, bind_map_left, Node.child_map, Node.isRed_map]
  rfl

@[simp] theorem map_rotate : (a.map f).rotate i side = map f <$> a.rotate i side := by
  simp only [Arena.rotate, map_node, liftM_map, bind_map_left, Node.child_map, map_bind]
  congr 1
  funext n
  cases n.child side.opposite with
  | none => rfl
  | some pivot => simp [liftM_map]

section Insertion
variable {f a i} {compare : α → α → Ordering} {compare' : β → β → Ordering}

@[simp] theorem map_align :
    (a.map f).align i j side = Prod.map (map f) id <$> a.align i j side := by
  simp only [Arena.align, map_sideOf, map_bind]
  congr 1
  funext s
  split <;> simp

theorem map_relieve (p g : Nat) :
    (a.map f).relieve i p g =
      Round.map (Prod.map (map f) id) (map f) <$> a.relieve i p g := by
  simp only [Arena.relieve, map_sideOf, map_redChild, map_bind]
  congr 1
  funext side
  congr 1
  funext uncle
  cases uncle <;> simp [Round.map, liftM_map]

theorem map_redRound (s : Arena α × Nat) :
    redRound (Prod.map (map f) id s) =
      Round.map (Prod.map (map f) id) (map f) <$> redRound s := by
  obtain ⟨a, i⟩ := s
  simp only [redRound, Prod.map, id_eq, map_node, liftM_map, bind_map_left, map_bind]
  congr 1
  funext n
  simp only [Node.parent_map]
  cases n.parent with
  | none => simp [Round.map]
  | some p =>
    simp only [map_bind]
    congr 1
    funext m
    by_cases hm : m.isRed
    · simp only [Node.isRed_map, hm, if_true]
      cases m.parent with
      | none => rfl
      | some g => exact map_relieve ..
    · simp [hm, Round.map]

@[simp] theorem map_repairRed : (a.map f).repairRed i = map f <$> a.repairRed i := by
  rw [Arena.repairRed, Arena.loop, size_map]
  exact map_loop map_redRound _ (a, i)

theorem map_descend {cut : α → Ordering} {cut' : β → Ordering} (hc : ∀ v, cut' (f v) = cut v) :
    (a.map f).descend cut' = a.descend cut := by
  have hr : ∀ d, (a.map f).descentRound cut' d = Round.map id id <$> a.descentRound cut d := by
    intro d
    simp only [descentRound]
    cases d.link with
    | none => rfl
    | some i =>
      simp only [map_node, bind_map_left, map_bind, Node.value_map, Node.left_map,
        Node.right_map, hc]
      congr 1
      funext n
      cases cut n.value <;> rfl
  rw [Arena.descend, Arena.loop, size_map, root_map]
  exact (map_loop hr _ _).trans (id_map _)

theorem map_attach (v : α) (parent : Link) :
    (a.map f).attach (f v) parent side = map f <$> a.attach v parent side := by
  have hg (l : Link) : (⟨(a.map f).nodes.push ⟨f v, .red, parent, none, none⟩, l⟩ : Arena β) =
      map f ⟨a.nodes.push ⟨v, .red, parent, none, none⟩, l⟩ := by
    simp [Arena.map, Node.map]
  simp only [Arena.attach, hg, size_map]
  cases parent with
  | none => rfl
  | some p => exact map_setChild ..

theorem map_insert (hc : ∀ v w, compare' (f v) (f w) = compare v w) (v : α) :
    (a.map f).insert compare' (f v) = Prod.map id (map f) <$> a.insert compare v := by
  simp only [Arena.insert, map_descend (hc v), map_bind]
  congr 1
  funext place
  cases place with
  | none => rfl
  | some x => simp [map_attach, liftM_map]

end Insertion

section Removal
variable {f a i}

theorem map_swapValues : (a.map f).swapValues i j = map f <$> a.swapValues i j := by
  simp only [Arena.swapValues]
  split
  · rfl
  · simp

@[simp] theorem map_sibling : (a.map f).sibling i side = a.sibling i side := by
  simp only [Arena.sibling, map_node, bind_map_left, Node.child_map]

theorem map_blackSibling :
    (a.map f).blackSibling i side = Prod.map (map f) id <$> a.blackSibling i side := by
  simp only [Arena.blackSibling, map_sibling, map_bind]
  congr 1
  funext s
  simp only [map_node, liftM_map, bind_map_left, Node.isRed_map]
  congr 1
  funext n
  by_cases hn : n.isRed <;> simp [hn, liftM_map]

theorem map_expose :
    (a.map f).expose i side = Prod.map (map f) id <$> a.expose i side := by
  simp only [Arena.expose, map_redChild, map_bind]
  congr 1
  funext far
  cases far with
  | some far => rfl
  | none =>
    simp only [map_node, liftM_map, bind_map_left, Node.child_map, map_bind]
    congr 1
    funext n
    cases n.child side with
    | none => rfl
    | some near => simp [liftM_map]

theorem map_borrow (p s : Nat) : (a.map f).borrow p s side = map f <$> a.borrow p s side := by
  simp [Arena.borrow, map_expose, liftM_map]

theorem map_borrowOrCede (p s : Nat) :
    (a.map f).borrowOrCede p s side =
      Round.map (Prod.map (map f) id) (map f) <$> a.borrowOrCede p s side := by
  simp only [Arena.borrowOrCede, map_redChild, map_bind]
  congr 1
  funext near
  congr 1
  funext far
  split
  · simp [map_borrow, Round.map]
  · simp only [map_setColor, liftM_map, bind_map_left, map_bind, map_node, Node.isRed_map]
    congr 1
    funext b
    congr 1
    funext n
    by_cases hn : n.isRed <;> simp [hn, Round.map]

theorem map_deficitRound (s : Arena α × Nat) :
    deficitRound (Prod.map (map f) id s) =
      Round.map (Prod.map (map f) id) (map f) <$> deficitRound s := by
  obtain ⟨a, i⟩ := s
  simp only [deficitRound, Prod.map, id_eq, map_node, liftM_map, bind_map_left, map_bind]
  congr 1
  funext n
  simp only [Node.parent_map]
  cases n.parent with
  | none => rfl
  | some p => simp [map_blackSibling, map_borrowOrCede]

theorem map_repairDeficit : (a.map f).repairDeficit i = map f <$> a.repairDeficit i := by
  rw [Arena.repairDeficit, Arena.loop, size_map]
  exact map_loop map_deficitRound _ (a, i)

theorem map_extremeFrom : (a.map f).extremeFrom side i = a.extremeFrom side i := by
  have hr : ∀ i, (a.map f).extremeRound side i = Round.map id id <$> a.extremeRound side i := by
    intro i
    simp only [extremeRound, map_node, bind_map_left, Node.child_map, map_bind]
    congr 1
    funext n
    cases n.child side <;> rfl
  rw [Arena.extremeFrom, Arena.loop, size_map]
  exact (map_loop hr _ _).trans (id_map _)

theorem map_extreme : (a.map f).extreme side = a.extreme side := by
  simp only [Arena.extreme, root_map, map_extremeFrom]

theorem map_lookup {cut : α → Ordering} {cut' : β → Ordering} (hc : ∀ v, cut' (f v) = cut v) :
    (a.map f).lookup cut' = a.lookup cut := by
  have hr : ∀ l, (a.map f).searchRound cut' l = Round.map id id <$> a.searchRound cut l := by
    intro l
    cases l with
    | none => rfl
    | some i =>
      simp only [searchRound, map_node, bind_map_left, map_bind, Node.value_map, Node.left_map,
        Node.right_map, hc]
      congr 1
      funext n
      cases cut n.value <;> rfl
  rw [Arena.lookup, Arena.loop, size_map, root_map]
  exact (map_loop hr _ _).trans (id_map _)

theorem map_yield : (a.map f).yield i = Prod.map (map f) id <$> a.yield i := by
  simp only [Arena.yield, map_node, bind_map_left, map_bind, Node.left_map,
    Node.right_map]
  congr 1
  funext n
  cases n.left with
  | none => rfl
  | some l =>
    cases n.right with
    | none => rfl
    | some r => simp [map_extremeFrom, map_swapValues]

theorem map_bypass : (a.map f).bypass i l = map f <$> a.bypass i l := by
  simp [Arena.bypass]

theorem map_splice : (a.map f).splice i = map f <$> a.splice i := by
  simp only [Arena.splice, map_node, liftM_map, bind_map_left, map_bind, Node.isRed_map,
    Node.left_map, Node.right_map]
  congr 1
  funext n
  by_cases hn : n.isRed
  · simp [hn, map_bypass, liftM_map]
  · cases n.left.or n.right <;> simp [hn, map_bypass, map_repairDeficit, liftM_map]

theorem map_release : (a.map f).release i = Prod.map f (map f) <$> a.release i := by
  simp only [Arena.release, map_node, bind_map_left, map_bind, size_map]
  congr 1
  funext removed
  congr 1
  funext moved
  have hp : (⟨((a.map f).nodes.setIfInBounds i (moved.map f)).pop, a.root⟩ : Arena β) =
      map f ⟨(a.nodes.setIfInBounds i moved).pop, a.root⟩ := by
    simp [Arena.map]
  simp only [root_map, hp]
  split
  · rfl
  · simp

theorem map_removeNode : (a.map f).removeNode i = Prod.map f (map f) <$> a.removeNode i := by
  simp [Arena.removeNode, map_yield, map_splice, map_release, liftM_map]

end Removal
end Arena
end RedBlack
