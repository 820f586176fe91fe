import RedBlack.Proofs.Arena.InOrder
import RedBlack.Proofs.Arena.Insertion
import RedBlack.Proofs.Arena.Removal
import RedBlack.Proofs.Arena.Shape

/-!
The two repairs, in every red-black arena. The one for a new red leaf makes the arena red-black
again, and there is a black node more on every way exactly if it comes to the root. The one for a
black leaf makes up for it before it leaves. Neither changes the order of the nodes.
-/

set_option autoImplicit false

namespace RedBlack

theorem Path.balanced_of_leaf {α : Type} {p : Path α} {v : α}
    (h : (Path.fill p (.node .black .nil v .nil)).IsRedBlack) : p.Balanced .black 1 := by
  obtain ⟨_, _, hp, hleaf⟩ := Path.exists_balanced h
  cases hleaf with
  | black hl _ =>
    cases hl
    exact hp

namespace Arena
variable {α : Type} {a b : Arena α} {p : Path (Nat × α)} {f : Frame (Nat × α)} {t u : Layout α}
  {i : Nat} {es : List Event} {ts : List (Rotation (Nat × α))}

/-- A place where no node is: below a parent, or at the root. -/
def Vacant (a : Arena α) (parent : Link) (side : Side) : Prop :=
  match parent with
  | none => a.root = none
  | some p => ∃ n, a.nodes[p]? = some n ∧ n.child side = none

/-- The rounds of the repair for a red node come to the root, which the last one paints black. -/
inductive PaintsRoot : Arena α × Nat → Prop
  | here {a b : Arena α} {i : Nat} :
    a.root = some i → a.setColor i .black = .ok b → redRound (a, i) = .done (.over b) [] →
      PaintsRoot (a, i)
  | above {a : Arena α} {i : Nat} {s : Arena α × Nat} {es : List Event} :
    redRound (a, i) = .done (.again s) es → PaintsRoot s → PaintsRoot (a, i)

theorem Lays.root_ne (h : a.Lays (f :: p) t) (hi : t.link = some i) : a.root ≠ some i := by
  intro hr
  obtain ⟨way, -, hl, hway⟩ := h.atDepth hi
  rw [← hway [] ⟨[], congrArg (fun l => some ([], l)) hr⟩] at hl
  cases hl

theorem not_paintsRoot_of_over (hr : a.root ≠ some i) (h : redRound (a, i) = .done (.over b) es) :
    ¬ PaintsRoot (a, i) := by
  intro hp
  cases hp with
  | here hr' => exact hr hr'
  | above h' => cases h.symm.trans h'

theorem paintsRoot_iff_of_again {s : Arena α × Nat} (hr : a.root ≠ some i)
    (h : redRound (a, i) = .done (.again s) es) : PaintsRoot (a, i) ↔ PaintsRoot s := by
  constructor
  · intro hp
    cases hp with
    | here hr' => exact absurd hr' hr
    | above h' hs =>
      cases h.symm.trans h'
      exact hs
  · exact .above h

/-- The path above a red node tells whether its repair comes to the root. -/
theorem Lays.paintsRoot_iff (h : a.Lays p t) (hi : t.link = some i)
    (hr : Path.repairRed p t = .done u ts) : PaintsRoot (a, i) ↔ p.surfaces = true := by
  fun_induction Path.repairRed p t generalizing a i u ts with
  | case1 t =>
    obtain ⟨b, hb, hround, -⟩ := h.redRound_root hi
    have hroot : a.root = t.link := Holds.root_eq h
    exact iff_of_true (.here (hroot.trans hi) hb hround) rfl
  | case2 f t hf =>
    exact iff_of_false (not_paintsRoot_of_over (h.root_ne hi) (h.redRound_black hi hf))
      Bool.false_ne_true
  | case3 f t hf => cases hr
  | case4 f g rest t hf =>
    exact iff_of_false (not_paintsRoot_of_over (h.root_ne hi) (h.redRound_black hi hf))
      (by simp [Path.surfaces, hf])
  | case5 f g rest t hf ih =>
    obtain ⟨r, ts₁, ts₂, hs, hu, rfl⟩ := Traced.bind_eq_done_iff.1 hr
    have huncle := Frame.isRed_of_relieve hs
    cases r with
    | settled w =>
      obtain ⟨b, hb, -⟩ := h.relieve_settled hi hs
      rw [← h.redRound_cons hi hf] at hb
      exact iff_of_false (not_paintsRoot_of_over (h.root_ne hi) hb)
        (by simp [Path.surfaces, huncle])
    | raised w =>
      obtain ⟨b, hb, hlay, hw⟩ := h.relieve_raised (i := i) hs
      rw [← h.redRound_cons hi hf] at hb
      rw [paintsRoot_iff_of_again (h.root_ne hi) hb, ih w hlay hw hu]
      simp [Path.surfaces, hf, huncle]

theorem Lays.exists_hole {parent : Link} {side : Side} (h : a.Lays [] t) (hb : t.IsRedBlack)
    (hv : a.Vacant parent side) :
    ∃ q, a.Lays q .nil ∧
      ∀ v, a.attach v parent side = a.attach v (Path.link q) (Path.holeSide q) := by
  cases parent with
  | none =>
    have hroot : a.root = t.link := Holds.root_eq h
    obtain rfl := Tree.eq_nil_of_link (hroot.symm.trans hv)
    exact ⟨[], h, fun v => rfl⟩
  | some p =>
    obtain ⟨n, hn, hc⟩ := hv
    obtain ⟨q, c, near, x, far, -, -, rfl, hx, -, rfl⟩ := h.exists_branch_at hb hn side
    rw [Node.child_join_self] at hc
    obtain rfl := Tree.eq_nil_of_link hc
    exact ⟨⟨side, c, x, far⟩ :: q, lays_cons.2 hx, fun v => rfl⟩

theorem Lays.repairDeficit_root (h : a.Lays [] t) (hi : t.link = some i) :
    a.repairDeficit i = .done a [] :=
  Traced.loop_over _ (h.deficitRound_root hi)

/-- A leaf that was made up for is unlinked and released. Only the last node, which moves to its
slot, changes its index. -/
theorem Lays.splice_leaf {x : Nat × α} (h : a.Lays p (.node .black .nil x .nil))
    (hb : p.Balanced .black 0) :
    ∃ c d zs, a.bypass x.1 none = .ok c ∧
      c.Enumerates c.root (Path.before p ++ Path.after p) ∧
      c.release x.1 = .ok (x.2, d) ∧ d.IsRedBlack ∧ d.Enumerates d.root zs ∧
        zs.map Prod.snd = (Path.before p ++ Path.after p).map Prod.snd := by
  obtain ⟨c, n, hc, hv, hholds⟩ := Lays.bypass (s := .left) h
  obtain ⟨d, w, hd, hlay, hw⟩ := hholds.release
  have hlist : (Path.fill p .nil).toList = Path.before p ++ Path.after p := by
    rw [Path.toList_fill, Tree.toList_nil, List.append_nil]
  have hbalanced : (w.map Prod.snd).IsRedBlack := hw ▸ (hb.fill .nil).map Prod.snd
  refine ⟨c, d, w.toList, hc, ?_, hv ▸ hd, hlay.isRedBlack (Tree.isRedBlack_of_map hbalanced),
    hlay.enumerates, ?_⟩
  · rw [hholds.root_eq, ← hlist]
    exact (Holds.spells (hholds.congr (add_comm ..))).enumerates
  · rw [← Tree.toList_map, hw, Tree.toList_map, hlist]

/-- A tree with red siblings on every second level, down to its last node. -/
def brim : Arena Nat where
  nodes := #[⟨40, .black, none, some 1, some 2⟩, ⟨20, .red, some 0, some 3, some 4⟩,
    ⟨60, .red, some 0, some 5, some 6⟩, ⟨10, .black, some 1, none, none⟩,
    ⟨30, .black, some 1, none, none⟩, ⟨50, .black, some 2, none, none⟩,
    ⟨70, .black, some 2, some 7, some 8⟩, ⟨65, .red, some 6, none, none⟩,
    ⟨75, .red, some 6, none, none⟩]
  root := some 0

theorem isRedBlack_brim : brim.IsRedBlack := by
  have h : brim.Spells none brim.root _ :=
    .node rfl rfl
      (.node rfl rfl (.node rfl rfl .nil .nil) (.node rfl rfl .nil .nil))
      (.node rfl rfl (.node rfl rfl .nil .nil)
        (.node rfl rfl (.node rfl rfl .nil .nil) (.node rfl rfl .nil .nil)))
  exact (h.lays (by decide) rfl).isRedBlack ⟨2, .black
    (.red (.black .nil .nil) (.black .nil .nil))
    (.red (.black .nil .nil) (.black (.red .nil .nil) (.red .nil .nil)))⟩

/-- A tree with a black leaf below a red sibling, which has a red child on the inside. -/
def steep : Arena Nat where
  nodes := #[⟨20, .black, none, some 1, some 2⟩, ⟨10, .black, some 0, none, none⟩,
    ⟨40, .red, some 0, some 3, some 4⟩, ⟨30, .black, some 2, some 5, none⟩,
    ⟨50, .black, some 2, none, none⟩, ⟨25, .red, some 3, none, none⟩]
  root := some 0

theorem isRedBlack_steep : steep.IsRedBlack := by
  have h : steep.Spells none steep.root _ :=
    .node rfl rfl (.node rfl rfl .nil .nil)
      (.node rfl rfl (.node rfl rfl (.node rfl rfl .nil .nil) .nil) (.node rfl rfl .nil .nil))
  exact (h.lays (by decide) rfl).isRedBlack ⟨2, .black (.black .nil .nil)
    (.red (.black (.red .nil .nil) .nil) (.black .nil .nil))⟩

namespace IsRedBlack

/-- A new red leaf may be attached at any vacant place of a red-black arena. The repair from it
makes the arena red-black again and keeps the nodes in order. All ways down get a black node more if
the repair comes to the root and paints it, and otherwise as many as there were. -/
theorem repairRed_attached (h : a.IsRedBlack) {parent : Link} {side : Side}
    (hv : a.Vacant parent side) (v : α) :
    ∃ b c es m, a.attach v parent side = .ok b ∧ b.repairRed a.size = .done c es ∧ c.IsRedBlack ∧
      (∃ xs, b.Enumerates b.root xs ∧ c.Enumerates c.root xs) ∧
      a.HasBlackHeight m ∧ b.HasBlackHeight m ∧
      (PaintsRoot (b, a.size) ∧ c.HasBlackHeight (m + 1) ∨
        ¬ PaintsRoot (b, a.size) ∧ c.HasBlackHeight m) := by
  obtain ⟨t, ht⟩ := h.exists_lays
  obtain ⟨q, hq, hattach⟩ := ht.exists_hole (h.isRedBlack_of_lays ht) hv
  obtain ⟨b, hb, hleaf⟩ := hq.attach v
  have hwhole := h.isRedBlack_of_lays (lays_fill.2 hq)
  obtain ⟨_, _, hpath, ⟨⟩⟩ := Path.exists_balanced hwhole
  obtain ⟨m, hm⟩ := hwhole
  have hred : (Tree.node .red .nil (a.size, v) .nil).Balanced .red 0 := .red .nil .nil
  have hheight := Path.hasBlackHeight_fill hm.hasBlackHeight rfl hred.hasBlackHeight
  obtain ⟨u, ts, hu, hbalanced⟩ := Path.exists_repairRed hpath hred
  obtain ⟨c, -, hc, hlay⟩ := hleaf.repairRed rfl hu
  have hpaints := hleaf.paintsRoot_iff rfl hu
  have hgrown := Path.hasBlackHeight_repairRed hpath hred hheight hu
  refine ⟨b, c, _, m, (hattach v).trans hb, hc, hlay.isRedBlack hbalanced,
    ⟨_, (lays_fill.2 hleaf).enumerates, Path.toList_repairRed hu ▸ hlay.enumerates⟩,
    (lays_fill.2 hq).hasBlackHeight hm.hasBlackHeight,
    (lays_fill.2 hleaf).hasBlackHeight hheight, ?_⟩
  cases hs : q.surfaces with
  | true =>
    rw [hs, if_pos rfl] at hgrown
    exact .inl ⟨hpaints.2 hs, hlay.hasBlackHeight hgrown⟩
  | false =>
    rw [hs, if_neg Bool.false_ne_true] at hgrown
    exact .inr ⟨fun hp => Bool.false_ne_true (hs.symm.trans (hpaints.1 hp)),
      hlay.hasBlackHeight hgrown⟩

/-- Two red uncles let the repair pass on its way up to the root, which is painted. -/
theorem repairRed_attached_brim :
    ∃ b c es, brim.attach 80 (some 8) .right = .ok b ∧ b.repairRed 9 = .done c es ∧
      c.IsRedBlack ∧ PaintsRoot (b, 9) ∧ brim.HasBlackHeight 2 ∧ c.HasBlackHeight 3 := by
  have hv : brim.Vacant (some 8) .right := ⟨_, rfl, rfl⟩
  obtain ⟨b, c, es, m, hb, hc, hred, -, hm, -, hgrown⟩ := isRedBlack_brim.repairRed_attached hv 80
  have hpaints : PaintsRoot (b, 9) := by
    cases hb
    exact .above rfl (.above rfl (.here rfl rfl rfl))
  obtain rfl : 2 = m := hm.blacks_eq [.left, .left, .left] _ rfl
  obtain ⟨-, hheight⟩ | ⟨hnot, -⟩ := hgrown
  · exact ⟨b, c, es, hb, hc, hred, hpaints, hm, hheight⟩
  · exact absurd hpaints hnot

/-- A black leaf of a red-black arena is made up for. The nodes keep their order and the leaf stays
a leaf. Once it is unlinked and its slot released, the arena is a red-black one of the other nodes.
At the root nothing has to be done. -/
theorem repairDeficit_leaf (h : a.IsRedBlack) {n : Node α} (hn : a.nodes[i]? = some n)
    (hc : n.color = .black) (hl : n.left = none) (hr : n.right = none) :
    ∃ b es xs ys, a.repairDeficit i = .done b es ∧
      a.Enumerates a.root (xs ++ (i, n.value) :: ys) ∧
      b.Enumerates b.root (xs ++ (i, n.value) :: ys) ∧
      (∃ m, b.nodes[i]? = some m ∧ m.left = none ∧ m.right = none) ∧
      (∃ c d zs, b.bypass i none = .ok c ∧ c.Enumerates c.root (xs ++ ys) ∧
        c.release i = .ok (n.value, d) ∧ d.IsRedBlack ∧
          d.Enumerates d.root zs ∧ zs.map Prod.snd = (xs ++ ys).map Prod.snd) ∧
      (a.root = some i → b = a ∧ es = []) := by
  obtain ⟨t, ht, hwhole⟩ := isRedBlack_iff_exists_lays.1 h
  obtain ⟨p, c, l, x, r, rfl, hx, rfl⟩ := ht.exists_at (lt_size_of_getElem? hn)
  cases hn.symm.trans (node_eq_ok_iff.1 hx.node)
  obtain rfl := Tree.eq_nil_of_link hl
  obtain rfl := Tree.eq_nil_of_link hr
  obtain rfl : c = .black := hc
  have hpath := Path.balanced_of_leaf hwhole
  obtain ⟨q, ts, hq, hbalanced⟩ := Path.exists_repairDeficit hpath
  obtain ⟨b, hb, hlay⟩ := hx.repairDeficit rfl hq
  obtain ⟨hbefore, hafter⟩ := Path.sides_repairDeficit hq
  have hlist := (lays_fill.2 hx).enumerates
  have hlist' := (lays_fill.2 hlay).enumerates
  have hsplice := hlay.splice_leaf hbalanced
  rw [Path.toList_fill, Tree.toList_node, Tree.toList_nil, List.nil_append, List.append_assoc,
    List.singleton_append] at hlist hlist'
  rw [hbefore, hafter] at hlist' hsplice
  refine ⟨b, _, _, _, hb, hlist, hlist', ⟨_, node_eq_ok_iff.1 hlay.node, rfl, rfl⟩, hsplice,
    fun hroot => ?_⟩
  cases p with
  | nil =>
    obtain ⟨rfl, hes⟩ := Traced.done.inj (hb.symm.trans (hx.repairDeficit_root rfl))
    exact ⟨rfl, hes⟩
  | cons f p => exact absurd hroot (hx.root_ne rfl)

/-- One rotation replaces the red sibling, and two bring its red child to the missing place. -/
theorem repairDeficit_leaf_steep :
    ∃ b c d, steep.repairDeficit 1 =
        .done b [.rotated ⟨.left, 0, 2⟩, .rotated ⟨.right, 3, 5⟩, .rotated ⟨.left, 0, 5⟩] ∧
      b.bypass 1 none = .ok c ∧ c.release 1 = .ok (10, d) ∧ d.IsRedBlack := by
  obtain ⟨b, es, xs, ys, hb, -, -, -, ⟨c, d, zs, hc, -, hd, hred, -⟩, -⟩ :=
    isRedBlack_steep.repairDeficit_leaf (i := 1) rfl rfl rfl rfl
  obtain ⟨b', hb'⟩ : ∃ b', steep.repairDeficit 1 =
      .done b' [.rotated ⟨.left, 0, 2⟩, .rotated ⟨.right, 3, 5⟩, .rotated ⟨.left, 0, 5⟩] := ⟨_, rfl⟩
  cases hb.symm.trans hb'
  exact ⟨b, c, d, hb, hc, hd, hred⟩

end IsRedBlack
end Arena
end RedBlack
