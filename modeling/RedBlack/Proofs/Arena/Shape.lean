import RedBlack.Proofs.Arena.Links

/-!
The tree in a red-black arena. That an arena is red-black is said of its links alone. No way along
them comes to a node twice, hence all ways end, and what the links spell is a layout of all nodes.
So an arena is red-black exactly if it lays out a red-black tree.
-/

set_option autoImplicit false

namespace RedBlack.Arena
variable {α : Type} {a : Arena α} {p : Path (Nat × α)} {t : Layout α} {l up : Link} {i : Nat}
  {way : List Side} {ns : List (Node α)}

theorem exists_follow_take (h : a.follow way l = some (ns, some i)) (k : Nat) :
    ∃ ms j, a.follow (way.take k) l = some (ms, some j) := by
  induction way generalizing l ns k with
  | nil => exact ⟨ns, i, by rw [List.take_nil, h]⟩
  | cons s way ih =>
    obtain ⟨j, n, ms, rfl, hn, -, hf⟩ := exists_of_follow_cons h
    cases k with
    | zero => exact ⟨[], j, rfl⟩
    | succ k =>
      obtain ⟨ms, j', hf'⟩ := ih hf k
      exact ⟨_, j', follow_cons hn hf'⟩

namespace Spells

theorem get (h : a.Spells up l t) : ∀ x ∈ t.cells up, a.nodes[x.1]? = some x.2 := by
  induction h with
  | nil => simp [Tree.cells]
  | node hn hup hl hr ihl ihr =>
    intro x hx
    simp only [Tree.cells, Multiset.mem_add, Multiset.mem_singleton] at hx
    rcases hx with rfl | hx | hx
    · rw [hn, ← hup, hl.link_eq, hr.link_eq]
    · exact ihl x hx
    · exact ihr x hx

theorem nodup (h : a.Spells up l t)
    (hw : ∀ i way way' ns ns', a.follow way l = some (ns, some i) →
      a.follow way' l = some (ns', some i) → way = way') :
    ((t.cells up).map Prod.fst).Nodup := by
  induction h with
  | nil => simp [Tree.cells]
  | @node up j n l r hn _ hl hr ihl ihr =>
    have hchild (s : Side) : ∀ i way way' ns ns', a.follow way (n.child s) = some (ns, some i) →
        a.follow way' (n.child s) = some (ns', some i) → way = way' := by
      intro i way way' ns ns' hf hf'
      exact (List.cons.inj (hw i _ _ _ _ (follow_cons hn hf) (follow_cons hn hf'))).2
    have hne (s : Side) (way : List Side) (ns : List (Node α)) :
        a.follow way (n.child s) ≠ some (ns, some j) := by
      intro hf
      cases hw j [] _ [] _ rfl (follow_cons hn hf)
    refine Tree.nodup_cells_node.2 ⟨⟨ihl (hchild .left), ihr (hchild .right)⟩, ?_, ?_, ?_⟩
    · intro i hi hi'
      obtain ⟨way, ns, hf⟩ := hl.exists_follow hi
      obtain ⟨way', ns', hf'⟩ := hr.exists_follow hi'
      cases hw i (.left :: way) (.right :: way') _ _ (follow_cons hn hf) (follow_cons hn hf')
    · intro hj
      obtain ⟨way, ns, hf⟩ := hl.exists_follow hj
      exact hne .left way ns hf
    · intro hj
      obtain ⟨way, ns, hf⟩ := hr.exists_follow hj
      exact hne .right way ns hf

theorem lays (h : a.Spells none a.root t) (hn : ((t.cells none).map Prod.fst).Nodup)
    (hs : a.size = t.count) : a.Lays [] t :=
  lays_nil.2 ⟨h.link_eq.symm, hn, hs.trans (Tree.card_cells t none).symm, h.get⟩

end Spells

theorem Lays.color_eq_black {c : Color} {n : Nat} (h : a.Lays p t) (hb : t.Balanced c n)
    (hc : ∀ j m, t.link = some j → a.nodes[j]? = some m → m.color = .black) : c = .black := by
  cases c with
  | black => rfl
  | red =>
    have hred := hb.isRed.2 rfl
    obtain ⟨j, hj⟩ := Tree.exists_link_of_isRed hred
    obtain ⟨m, hm, -, hcolor⟩ := h.exists_node hj
    have hblack := hc j m hj (node_eq_ok_iff.1 hm)
    simp [Node.isRed, hblack, hred] at hcolor

namespace IsRedBlack

theorem lt_size_of_follow (h : a.IsRedBlack) (hl : ∀ j, l = some j → j < a.size)
    (hf : a.follow way l = some (ns, some i)) : i < a.size := by
  induction way generalizing l ns with
  | nil =>
    cases hf
    exact hl i rfl
  | cons s way ih =>
    obtain ⟨j, n, ms, rfl, hn, -, hf'⟩ := exists_of_follow_cons hf
    refine ih (fun k hk => ?_) hf'
    obtain ⟨m, hm, -⟩ := h.parent_of_child j k n s hn hk
    exact lt_size_of_getElem? hm

theorem lt_size_of_reaches (h : a.IsRedBlack) (hi : a.Reaches way i) : i < a.size := by
  obtain ⟨ns, hf⟩ := hi
  refine h.lt_size_of_follow (fun j hj => ?_) hf
  obtain ⟨n, hn, -⟩ := h.parent_of_root j hj
  exact lt_size_of_getElem? hn

/-- A way comes to another node at each step, so that it has less steps than there are nodes. -/
theorem length_lt_size (h : a.IsRedBlack) (hi : a.Reaches way i) : way.length < a.size := by
  obtain ⟨ns, hf⟩ := hi
  have hstep (k : Nat) : ∃ j, a.Reaches (way.take k) j := by
    obtain ⟨ms, j, hj⟩ := exists_follow_take hf k
    exact ⟨j, ms, hj⟩
  choose node hnode using hstep
  have hinj : Set.InjOn node (Finset.range (way.length + 1)) := by
    intro k hk k' hk' he
    rw [Finset.coe_range, Set.mem_Iio] at hk hk'
    have hway := (h.reached_once _ (h.lt_size_of_reaches (hnode k))).unique (hnode k)
      (he ▸ hnode k')
    have hlen := congrArg List.length hway
    rw [List.length_take, List.length_take] at hlen
    omega
  have hcard := Finset.card_le_card_of_injOn (t := Finset.range a.size) node
    (fun k _ => Finset.mem_coe.2 (Finset.mem_range.2 (h.lt_size_of_reaches (hnode k)))) hinj
  rw [Finset.card_range, Finset.card_range] at hcard
  omega

/-- Links whose ways down are of bounded length spell a tree. -/
theorem exists_spells (h : a.IsRedBlack) {bound : Nat}
    (hl : ∀ j, l = some j → ∃ n, a.nodes[j]? = some n ∧ n.parent = up)
    (hb : ∀ way ns j, a.follow way l = some (ns, some j) → way.length < bound) :
    ∃ t, a.Spells up l t := by
  induction bound generalizing l up with
  | zero =>
    cases l with
    | none => exact ⟨.nil, .nil⟩
    | some j => exact absurd (hb [] [] j rfl) (Nat.not_lt_zero _)
  | succ bound ih =>
    cases l with
    | none => exact ⟨.nil, .nil⟩
    | some j =>
      obtain ⟨n, hn, hup⟩ := hl j rfl
      have hchild (s : Side) : ∃ t, a.Spells (some j) (n.child s) t :=
        ih (fun k hk => h.parent_of_child j k n s hn hk) fun way ns k hf =>
          Nat.lt_of_succ_lt_succ (hb (s :: way) _ k (follow_cons hn hf))
      obtain ⟨t, ht⟩ := hchild .left
      obtain ⟨u, hu⟩ := hchild .right
      exact ⟨_, .node hn hup ht hu⟩

theorem exists_lays (h : a.IsRedBlack) : ∃ t, a.Lays [] t := by
  obtain ⟨t, ht⟩ : ∃ t, a.Spells none a.root t :=
    h.exists_spells h.parent_of_root fun way ns j hf => h.length_lt_size ⟨ns, hf⟩
  have hnodup : ((t.cells none).map Prod.fst).Nodup := ht.nodup fun i way way' ns ns' hf hf' =>
    (h.reached_once i (h.lt_size_of_reaches ⟨ns, hf⟩)).unique ⟨ns, hf⟩ ⟨ns', hf'⟩
  have hindices : (t.cells none).map Prod.fst = Multiset.range a.size := by
    refine (hnodup.ext (Multiset.nodup_range _)).2 fun i => ?_
    rw [Multiset.mem_range]
    constructor
    · intro hi
      obtain ⟨way, ns, hf⟩ := ht.exists_follow hi
      exact h.lt_size_of_reaches ⟨ns, hf⟩
    · intro hi
      obtain ⟨way, ⟨ns, hf⟩, -⟩ := h.reached_once i hi
      exact ht.mem_of_follow hf
  refine ⟨t, ht.lays hnodup ?_⟩
  rw [← Tree.card_cells t none, ← Multiset.card_map Prod.fst, hindices, Multiset.card_range]

theorem exists_balanced (h : a.IsRedBlack) (ht : a.Lays p t) : ∃ c n, t.Balanced c n := by
  induction t generalizing p with
  | nil => exact ⟨_, _, .nil⟩
  | node c l x r hl hr =>
    have hx := node_eq_ok_iff.1 ht.node
    have hleft : a.Lays (⟨.left, c, x, r⟩ :: p) l := lays_cons.2 ht
    have hright : a.Lays (⟨.right, c, x, l⟩ :: p) r := lays_cons.2 ht
    obtain ⟨d, n, hn⟩ := hl hleft
    obtain ⟨e, m, hm⟩ := hr hright
    obtain ⟨way, ns, hf⟩ := hleft.spells.exists_way
    obtain ⟨way', ns', hf'⟩ := hright.spells.exists_way
    have hblacks := h.blacks_eq x.1 (.left :: way) (.right :: way') _ _ (lt_size_of_getElem? hx)
      (follow_cons hx hf) (follow_cons hx hf')
    rw [blacks, blacks, List.countP_cons, List.countP_cons, ← blacks, ← blacks,
      hleft.spells.blacks_follow hn.hasBlackHeight hf,
      hright.spells.blacks_follow hm.hasBlackHeight hf'] at hblacks
    obtain rfl : n = m := by omega
    cases c with
    | black => exact ⟨_, _, .black hn hm⟩
    | red =>
      obtain rfl := hleft.color_eq_black hn fun j m hj hm =>
        h.child_of_red x.1 j _ m .left hx rfl hj hm
      obtain rfl := hright.color_eq_black hm fun j m hj hm =>
        h.child_of_red x.1 j _ m .right hx rfl hj hm
      exact ⟨_, _, .red hn hm⟩

theorem isRedBlack_of_lays (h : a.IsRedBlack) (ht : a.Lays [] t) : t.IsRedBlack := by
  have hr : a.root = t.link := Holds.root_eq ht
  obtain ⟨c, n, hb⟩ := h.exists_balanced ht
  obtain rfl := ht.color_eq_black hb fun j m hj hm => h.root_black j m (hr.trans hj) hm
  exact ⟨n, hb⟩

end IsRedBlack

theorem isRedBlack_iff_exists_lays : a.IsRedBlack ↔ ∃ t, a.Lays [] t ∧ t.IsRedBlack := by
  constructor
  · intro h
    obtain ⟨t, ht⟩ := h.exists_lays
    exact ⟨t, ht, h.isRedBlack_of_lays ht⟩
  · rintro ⟨t, ht, hb⟩
    exact ht.isRedBlack hb

end RedBlack.Arena
