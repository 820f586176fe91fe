import Mathlib.Data.Set.Card
import RedBlack.Proofs.Arena.Relinking
import RedBlack.Proofs.Tree.Height

/-!
The links of an arena. That an arena is red-black is said here in terms of its links alone, with no
tree in sight: of the ways down along the links and of the parent links back up. An arena that lays
out a red-black tree is red-black in this sense. A repair climbs the parent links, so that it has no
more rounds than there are nodes above the one it starts at.
-/

set_option autoImplicit false

namespace RedBlack
variable {α : Type}

namespace Arena

/-- The nodes crossed on a way down, and the link behind the last of them. There is no way below an
absent link. -/
def follow (a : Arena α) : List Side → Link → Option (List (Node α) × Link)
  | [], l => some ([], l)
  | _ :: _, none => none
  | s :: way, some i =>
    match a.nodes[i]? with
    | none => none
    | some n => (a.follow way (n.child s)).map fun x => (n :: x.1, x.2)

/-- The number of black nodes among some. -/
def blacks (ns : List (Node α)) : Nat := ns.countP fun n => n.color = .black

/-- All ways from the root down to an absent link cross so many black nodes. -/
structure HasBlackHeight (a : Arena α) (n : Nat) : Prop where
  exists_way : ∃ way ns, a.follow way a.root = some (ns, none)
  blacks_eq : ∀ way ns, a.follow way a.root = some (ns, none) → blacks ns = n

/-- A way from the root leads to the node at this index. -/
def Reaches (a : Arena α) (way : List Side) (i : Nat) : Prop :=
  ∃ ns, a.follow way a.root = some (ns, some i)

/-- The links of an arena make one tree of all its nodes, and that is a red-black tree. -/
structure IsRedBlack (a : Arena α) : Prop where
  root_black : ∀ (i : Nat) (n : Node α), a.root = some i → a.nodes[i]? = some n → n.color = .black
  child_of_red : ∀ (i j : Nat) (n m : Node α) (s : Side), a.nodes[i]? = some n → n.color = .red →
    n.child s = some j → a.nodes[j]? = some m → m.color = .black
  /-- All ways from a node down to an absent link cross the same number of black nodes. -/
  blacks_eq : ∀ (i : Nat) (way way' : List Side) (ns ns' : List (Node α)), i < a.size →
    a.follow way (some i) = some (ns, none) → a.follow way' (some i) = some (ns', none) →
      blacks ns = blacks ns'
  reached_once : ∀ i, i < a.size → ∃! way, a.Reaches way i
  /-- Nothing is reached but the nodes that are counted. -/
  ncard_reached : {i | ∃ way, a.Reaches way i}.ncard = a.size
  parent_of_root : ∀ i, a.root = some i → ∃ n, a.nodes[i]? = some n ∧ n.parent = none
  parent_of_child : ∀ (i j : Nat) (n : Node α) (s : Side), a.nodes[i]? = some n →
    n.child s = some j → ∃ m, a.nodes[j]? = some m ∧ m.parent = some i

/-- The links from a place down spell this tree, and its parent links lead back up. -/
inductive Spells (a : Arena α) : Link → Link → Layout α → Prop
  | nil {up : Link} : Spells a up none .nil
  | node {up : Link} {i : Nat} {n : Node α} {l r : Layout α} :
    a.nodes[i]? = some n → n.parent = up → Spells a (some i) n.left l →
      Spells a (some i) n.right r → Spells a up (some i) (.node n.color l (i, n.value) r)

variable {a : Arena α} {p : Path (Nat × α)} {t : Layout α} {l l' up : Link} {i : Nat} {s : Side}
  {way way' : List Side} {ns ns' : List (Node α)}

theorem node_eq_ok_iff {n : Node α} : a.node i = .ok n ↔ a.nodes[i]? = some n := by
  unfold Arena.node
  cases a.nodes[i]? <;> simp

theorem lt_size_of_getElem? {n : Node α} (h : a.nodes[i]? = some n) : i < a.size :=
  (Array.getElem?_eq_some_iff.1 h).1

theorem follow_cons_iff {n : Node α} (hn : a.nodes[i]? = some n) :
    a.follow (s :: way) (some i) = some (ns, l) ↔
      ∃ ms, ns = n :: ms ∧ a.follow way (n.child s) = some (ms, l) := by
  simp only [follow, hn, Option.map_eq_some_iff]
  constructor
  · rintro ⟨⟨ms, l⟩, hf, ⟨⟩⟩
    exact ⟨ms, rfl, hf⟩
  · rintro ⟨ms, rfl, hf⟩
    exact ⟨(ms, l), hf, rfl⟩

theorem follow_cons {n : Node α} (hn : a.nodes[i]? = some n)
    (h : a.follow way (n.child s) = some (ns, l)) :
    a.follow (s :: way) (some i) = some (n :: ns, l) :=
  (follow_cons_iff hn).2 ⟨ns, rfl, h⟩

theorem exists_of_follow_cons (h : a.follow (s :: way) l = some (ns, l')) :
    ∃ j n ms, l = some j ∧ a.nodes[j]? = some n ∧ ns = n :: ms ∧
      a.follow way (n.child s) = some (ms, l') := by
  cases l with
  | none => cases h
  | some j =>
    cases hn : a.nodes[j]? with
    | none => simp [follow, hn] at h
    | some n =>
      obtain ⟨ms, hns, hf⟩ := (follow_cons_iff hn).1 h
      exact ⟨j, n, ms, rfl, hn, hns, hf⟩

theorem follow_append (h : a.follow way l = some (ns, l'))
    (h' : a.follow way' l' = some (ns', up)) :
    a.follow (way ++ way') l = some (ns ++ ns', up) := by
  induction way generalizing l ns with
  | nil =>
    cases h
    exact h'
  | cons s way ih =>
    obtain ⟨j, n, ms, rfl, hn, rfl, hf⟩ := exists_of_follow_cons h
    exact follow_cons hn (ih hf)

namespace Spells

theorem link_eq (h : a.Spells up l t) : t.link = l := by
  cases h <;> rfl

theorem exists_follow (h : a.Spells up l t) (hi : i ∈ (t.cells up).map Prod.fst) :
    ∃ way ns, a.follow way l = some (ns, some i) := by
  induction h with
  | nil => simp [Tree.cells] at hi
  | node hn _ _ _ ihl ihr =>
    rcases Tree.mem_cells_node.1 hi with rfl | hi | hi
    · exact ⟨[], [], rfl⟩
    · obtain ⟨way, ns, hf⟩ := ihl hi
      exact ⟨.left :: way, _, follow_cons hn hf⟩
    · obtain ⟨way, ns, hf⟩ := ihr hi
      exact ⟨.right :: way, _, follow_cons hn hf⟩

theorem mem_of_follow (h : a.Spells up l t) (hf : a.follow way l = some (ns, some i)) :
    i ∈ (t.cells up).map Prod.fst := by
  induction h generalizing way ns with
  | nil => cases way <;> cases hf
  | node hn _ _ _ ihl ihr =>
    rw [Tree.mem_cells_node]
    cases way with
    | nil =>
      cases hf
      exact .inl rfl
    | cons s way =>
      obtain ⟨ms, -, hf'⟩ := (follow_cons_iff hn).1 hf
      cases s with
      | left => exact .inr (.inl (ihl hf'))
      | right => exact .inr (.inr (ihr hf'))

theorem way_unique (h : a.Spells up l t) (hd : ((t.cells up).map Prod.fst).Nodup)
    (hf : a.follow way l = some (ns, some i)) (hf' : a.follow way' l = some (ns', some i)) :
    way = way' := by
  induction h generalizing way way' ns ns' with
  | nil => cases way <;> cases hf
  | @node up j n l r hn _ hl hr ihl ihr =>
    obtain ⟨⟨hdl, hdr⟩, hlr, hjl, hjr⟩ := Tree.nodup_cells_node.1 hd
    -- No way back to the node itself.
    have hne (s : Side) (way : List Side) (ns : List (Node α)) :
        a.follow (s :: way) (some j) ≠ some (ns, some j) := by
      intro hf
      obtain ⟨ms, -, hf⟩ := (follow_cons_iff hn).1 hf
      cases s with
      | left => exact hjl (hl.mem_of_follow hf)
      | right => exact hjr (hr.mem_of_follow hf)
    rcases way with _ | ⟨s, way⟩ <;> rcases way' with _ | ⟨s', way'⟩
    · rfl
    · cases hf
      exact absurd hf' (hne s' way' ns')
    · cases hf'
      exact absurd hf (hne s way ns)
    · obtain ⟨ms, -, hf⟩ := (follow_cons_iff hn).1 hf
      obtain ⟨ms', -, hf'⟩ := (follow_cons_iff hn).1 hf'
      cases s <;> cases s'
      · rw [ihl hdl hf hf']
      · exact absurd (hr.mem_of_follow hf') (hlr i (hl.mem_of_follow hf))
      · exact absurd (hr.mem_of_follow hf) (hlr i (hl.mem_of_follow hf'))
      · rw [ihr hdr hf hf']

theorem blacks_follow {m : Nat} (h : a.Spells up l t) (hb : t.HasBlackHeight m)
    (hf : a.follow way l = some (ns, none)) : blacks ns = m := by
  induction h generalizing way ns m with
  | nil =>
    cases way with
    | nil =>
      cases hf
      exact Eq.symm hb
    | cons s way => cases hf
  | @node _ _ n _ _ hn _ _ _ ihl ihr =>
    obtain ⟨k, hl, hr, rfl⟩ := hb
    cases way with
    | nil => cases hf
    | cons s way =>
      obtain ⟨ms, rfl, hf'⟩ := (follow_cons_iff hn).1 hf
      have hms : blacks ms = k := by
        cases s with
        | left => exact ihl hl hf'
        | right => exact ihr hr hf'
      rw [blacks, List.countP_cons, ← blacks, hms]
      cases n.color <;> rfl

/-- There is a way out of every subtree. -/
theorem exists_way (h : a.Spells up l t) : ∃ way ns, a.follow way l = some (ns, none) := by
  induction h with
  | nil => exact ⟨[], [], rfl⟩
  | node hn _ _ _ ihl _ =>
    obtain ⟨way, ns, hf⟩ := ihl
    exact ⟨.left :: way, _, follow_cons hn hf⟩

end Spells

/-- The nodes of a layout spell it. Nodes elsewhere do not matter, even if nothing links to them. -/
theorem Holds.spells {root : Link} {m : Multiset (Cell α)} (h : a.Holds root (t.cells up + m)) :
    a.Spells up t.link t := by
  induction t generalizing up m with
  | nil => exact .nil
  | node c l x r hl hr =>
    simp only [Tree.cells] at h
    have hx := h.get (x.1, ⟨x.2, c, up, l.link, r.link⟩) (by simp)
    have h₁ := h.congr (k := l.cells (some x.1) +
      ({(x.1, ⟨x.2, c, up, l.link, r.link⟩)} + r.cells (some x.1) + m)) (by abel)
    have h₂ := h.congr (k := r.cells (some x.1) +
      ({(x.1, ⟨x.2, c, up, l.link, r.link⟩)} + l.cells (some x.1) + m)) (by abel)
    exact .node hx rfl (hl h₁) (hr h₂)

theorem Lays.spells (h : a.Lays p t) : a.Spells (Path.link p) t.link t :=
  Holds.spells (Holds.congr h (add_comm ..))

theorem Lays.spells_root (h : a.Lays [] t) : a.Spells none a.root t := by
  have hr : a.root = t.link := Holds.root_eq h
  exact hr ▸ h.spells

theorem Lays.exists_follow (h : a.Lays p t) :
    ∃ way ns, a.follow way a.root = some (ns, t.link) ∧ way.length = p.length := by
  induction p generalizing t with
  | nil =>
    have hr : a.root = t.link := Holds.root_eq h
    exact ⟨[], [], congrArg (fun l => some ([], l)) hr, rfl⟩
  | cons f p ih =>
    have h' := lays_cons.1 h
    have hn := node_eq_ok_iff.1 h'.node_branch
    obtain ⟨way, ns, hw, hl⟩ := ih h'
    rw [Frame.link_plug] at hw
    have hstep : a.follow [f.side] (some f.value.1) = some ([_], t.link) :=
      follow_cons hn (by rw [Node.child_join_self]; rfl)
    exact ⟨way ++ [f.side], _, follow_append hw hstep, by simp [hl]⟩

theorem Lays.way_unique (h : a.Lays [] t) (hf : a.follow way a.root = some (ns, some i))
    (hf' : a.follow way' a.root = some (ns', some i)) : way = way' :=
  h.spells_root.way_unique (lays_nil.1 h).nodup hf hf'

theorem Lays.hasBlackHeight {n : Nat} (h : a.Lays [] t) (hb : t.HasBlackHeight n) :
    a.HasBlackHeight n :=
  ⟨h.spells_root.exists_way, fun _ _ hf => h.spells_root.blacks_follow hb hf⟩

theorem Lays.exists_at (h : a.Lays [] t) (hi : i < a.size) :
    ∃ p c l x r, x.1 = i ∧ a.Lays p (.node c l x r) ∧ Path.fill p (.node c l x r) = t := by
  have hm := (lays_nil.1 h).mem hi
  obtain ⟨p, c, l, x, r, hx, rfl⟩ := Tree.exists_fill hm
  exact ⟨p, c, l, x, r, hx, lays_fill.1 h, rfl⟩

theorem Lays.exists_branch_at {n : Node α} (h : a.Lays [] t) (hb : t.IsRedBlack)
    (hi : a.nodes[i]? = some n) (s : Side) :
    ∃ p c near x far d k, x.1 = i ∧ a.Lays p (.branch s c near x far) ∧
      (Tree.branch s c near x far).Balanced d k ∧
        n = Node.join s x.2 c (Path.link p) near.link far.link := by
  obtain ⟨p, c, l, x, r, rfl, hx, rfl⟩ := h.exists_at (lt_size_of_getElem? hi)
  obtain ⟨d, k, -, hk⟩ := Path.exists_balanced hb
  obtain ⟨c', near, y, far, he⟩ := Tree.exists_branch s (Tree.link_node c l x r)
  rw [he] at hx hk
  have hy : y.1 = x.1 := by
    have hl := congrArg Tree.link he
    rw [Tree.link_branch, Tree.link_node] at hl
    exact (Option.some.inj hl).symm
  have hn := node_eq_ok_iff.1 hx.node_branch
  rw [hy, hi] at hn
  exact ⟨p, c', near, y, far, d, k, hy, hx, hk, Option.some.inj hn⟩

theorem Lays.isRedBlack (h : a.Lays [] t) (hb : t.IsRedBlack) : a.IsRedBlack where
  root_black i n hr hn := by
    have hl : t.link = some i := (Holds.root_eq h).symm.trans hr
    obtain ⟨k, hk⟩ := hb
    cases t with
    | nil => cases hl
    | node c l x r =>
      cases hl
      have hx := node_eq_ok_iff.1 h.node
      rw [hn] at hx
      cases hx
      cases hk
      rfl
  child_of_red i j n m s hn hc hj hm := by
    obtain ⟨p, c, near, x, far, d, k, rfl, hx, hk, rfl⟩ := h.exists_branch_at hb hn s
    rw [Node.color_join] at hc
    rw [Node.child_join_self] at hj
    subst hc
    have hnear : a.Lays (⟨s, .red, x, far⟩ :: p) near := lays_cons.2 hx
    obtain ⟨m', hm', -, hred⟩ := hnear.exists_node hj
    rw [node_eq_ok_iff, hm] at hm'
    cases hm'
    have hb' : near.isRed = false := by cases s <;> cases hk <;> exact Tree.Balanced.not_red ‹_›
    rw [hb'] at hred
    cases hcol : m.color with
    | red => simp [Node.isRed, hcol] at hred
    | black => rfl
  blacks_eq i way way' ns ns' hi hf hf' := by
    obtain ⟨p, c, l, x, r, rfl, hx, rfl⟩ := h.exists_at hi
    obtain ⟨d, k, -, hk⟩ := Path.exists_balanced hb
    have hm := hk.hasBlackHeight
    rw [hx.spells.blacks_follow hm hf, hx.spells.blacks_follow hm hf']
  reached_once i hi := by
    obtain ⟨way, ns, hf⟩ := h.spells_root.exists_follow ((lays_nil.1 h).mem hi)
    refine ⟨way, ⟨ns, hf⟩, ?_⟩
    rintro way' ⟨ns', hf'⟩
    exact h.way_unique hf' hf
  ncard_reached := by
    have hs : {i | ∃ way, a.Reaches way i} = (Finset.range a.size : Set Nat) := by
      ext i
      simp only [Set.mem_ofPred_eq, Finset.coe_range, Set.mem_Iio]
      constructor
      · rintro ⟨way, ns, hf⟩
        exact (lays_nil.1 h).lt_size (h.spells_root.mem_of_follow hf)
      · intro hi
        exact h.spells_root.exists_follow ((lays_nil.1 h).mem hi)
    rw [hs, Set.ncard_coe_finset, Finset.card_range]
  parent_of_root i hr := by
    obtain ⟨n, hn, hp, -⟩ := h.exists_node ((Holds.root_eq h).symm.trans hr)
    exact ⟨n, node_eq_ok_iff.1 hn, hp⟩
  parent_of_child i j n s hn hj := by
    obtain ⟨p, c, near, x, far, d, k, rfl, hx, -, rfl⟩ := h.exists_branch_at hb hn s
    rw [Node.child_join_self] at hj
    have hnear : a.Lays (⟨s, c, x, far⟩ :: p) near := lays_cons.2 hx
    obtain ⟨m, hm, hp, -⟩ := hnear.exists_node hj
    exact ⟨m, node_eq_ok_iff.1 hm, hp⟩

theorem Shows.isRedBlack {t : Tree α} (h : a.Shows t) (hb : t.IsRedBlack) : a.IsRedBlack := by
  obtain ⟨u, hu, rfl⟩ := h
  exact hu.isRedBlack (Tree.isRedBlack_of_map hb)

/-- One way alone leads from the root to a node, and this is its length. -/
def AtDepth (a : Arena α) (i k : Nat) : Prop :=
  ∃ way, a.Reaches way i ∧ way.length = k ∧ ∀ way', a.Reaches way' i → way' = way

def ancestor (a : Arena α) : Nat → Nat → Link
  | 0, i => some i
  | k + 1, i => do a.ancestor k (← (← a.nodes[i]?).parent)

/-- All rounds of a repair that starts at a node of depth `k`. A round that does not end the repair
hands it on to the ancestor `stride` levels closer to the root, and reports nothing. -/
inductive Climbs (round : Arena α × Nat → Traced Event (Round (Arena α × Nat) (Arena α)))
    (stride : Nat) :
    Nat → Arena α × Nat → Arena α → List Event → Prop
  | ended {k i : Nat} {a b : Arena α} {es : List Event} :
    a.AtDepth i k → round (a, i) = .done (.over b) es → Climbs round stride k (a, i) b es
  | climbed {k i j : Nat} {a b c : Arena α} {es : List Event} :
    a.AtDepth i (k + stride) → a.ancestor stride i = some j →
      round (a, i) = .done (.again (b, j)) [] → Climbs round stride k (b, j) c es →
        Climbs round stride (k + stride) (a, i) c es

/-- The count of rounds does not end a repair that climbs. -/
theorem Climbs.loop_eq {round : Arena α × Nat → Traced Event (Round (Arena α × Nat) (Arena α))}
    {stride k n : Nat} {s : Arena α × Nat} {b : Arena α} {es : List Event}
    (h : Climbs round stride k s b es) (hs : 0 < stride) (hn : k < n) :
    RedBlack.loop round n s = .done b es := by
  induction h generalizing n with
  | ended _ hr =>
    obtain ⟨n, rfl⟩ : ∃ m, n = m + 1 := ⟨n - 1, by omega⟩
    exact Traced.loop_over n hr
  | climbed _ _ hr _ ih =>
    obtain ⟨n, rfl⟩ : ∃ m, n = m + 1 := ⟨n - 1, by omega⟩
    exact Traced.loop_again hr (ih (by omega))

variable {f : Frame (Nat × α)} {k : Nat}

theorem Lays.atDepth (h : a.Lays p t) (hi : t.link = some i) : a.AtDepth i p.length := by
  obtain ⟨way, ns, hw, hl⟩ := h.exists_follow
  rw [hi] at hw
  refine ⟨way, ⟨ns, hw⟩, hl, ?_⟩
  rintro way' ⟨ns', hw'⟩
  exact (lays_fill.2 h).way_unique hw' hw

theorem Lays.ancestor_succ (h : a.Lays (f :: p) t) (hi : t.link = some i) :
    a.ancestor (k + 1) i = a.ancestor k f.value.1 := by
  obtain ⟨n, hn, hp, -⟩ := h.exists_node hi
  rw [node_eq_ok_iff] at hn
  simp [ancestor, hn, hp]

end Arena
end RedBlack
