import RedBlack.Proofs.Arena.Links

set_option autoImplicit false

namespace RedBlack
variable {α : Type}

def Tree.nodes : Tree α → List (Color × α)
  | .nil => []
  | .node c l v r => l.nodes ++ (c, v) :: r.nodes

theorem Tree.toList_eq_nodes (t : Tree α) : t.toList = t.nodes.map Prod.snd := by
  induction t with
  | nil => rfl
  | node c l v r hl hr => simp [Tree.nodes, hl, hr]

/-- The places in a tree from left to right: the way to each and the node there, if there is one. -/
def Tree.places : Tree α → List (List Side × Option (Color × α))
  | .nil => [([], none)]
  | .node c l v r =>
    (l.places.map fun x => (.left :: x.1, x.2)) ++
      ([], some (c, v)) :: r.places.map fun x => (.right :: x.1, x.2)

namespace Tree
variable {t : Tree α}

theorem length_places (t : Tree α) : t.places.length = 2 * t.count + 1 := by
  induction t with
  | nil => rfl
  | node c l v r hl hr =>
    simp only [places, List.length_append, List.length_map, List.length_cons, hl, hr, count]
    omega

theorem map_snd_places (t : Tree α) :
    t.places.map Prod.snd = none :: t.nodes.flatMap fun x => [some x, none] := by
  induction t with
  | nil => rfl
  | node c l v r hl hr =>
    have h (s : Side) (u : Tree α) :
        (u.places.map fun x => (s :: x.1, x.2)).map Prod.snd = u.places.map Prod.snd := by
      rw [List.map_map]
      rfl
    simp [places, h, hl, hr, nodes]

theorem nodup_places (t : Tree α) : (t.places.map Prod.fst).Nodup := by
  induction t with
  | nil => exact List.nodup_singleton []
  | node c l v r hl hr =>
    have h (s : Side) (u : Tree α) :
        (u.places.map fun x => (s :: x.1, x.2)).map Prod.fst =
          (u.places.map Prod.fst).map (List.cons s) := by
      rw [List.map_map, List.map_map]
      rfl
    have hs (s : Side) : Function.Injective (List.cons s) := List.cons_injective
    simp only [places, List.map_append, List.map_cons, h]
    refine List.nodup_append.2 ⟨hl.map (hs _), List.nodup_cons.2 ⟨by simp, hr.map (hs _)⟩, ?_⟩
    rintro way hw _ hw' rfl
    obtain ⟨w, -, rfl⟩ := List.mem_map.1 hw
    simp at hw'

theorem mem_toList_of_mem_places {way : List Side} {c : Color} {v : α}
    (h : (way, some (c, v)) ∈ t.places) : v ∈ t.toList := by
  have hm := List.mem_map_of_mem (f := Prod.snd) h
  simp only [map_snd_places, List.mem_cons, List.mem_flatMap] at hm
  rw [toList_eq_nodes]
  refine List.mem_map.2 ⟨(c, v), ?_, rfl⟩
  simpa using hm

end Tree

namespace Arena

/-- The nodes below a link, in order. -/
inductive InOrder (a : Arena α) : Link → List (Node α) → Prop
  | none : InOrder a none []
  | some {i : Nat} {n : Node α} {ns ms : List (Node α)} :
    a.nodes[i]? = some n → InOrder a n.left ns → InOrder a n.right ms →
      InOrder a (some i) (ns ++ n :: ms)

inductive Enumerates (a : Arena α) : Link → List (Nat × α) → Prop
  | none : Enumerates a none []
  | some {i : Nat} {n : Node α} {xs ys : List (Nat × α)} :
    a.nodes[i]? = some n → Enumerates a n.left xs → Enumerates a n.right ys →
      Enumerates a (some i) (xs ++ (i, n.value) :: ys)

/-- What is behind a link: nothing, or a node of this colour and value. -/
def Behind (a : Arena α) : Link → Option (Color × α) → Prop
  | none, x => x = none
  | some i, x => ∃ n, a.nodes[i]? = some n ∧ x = some (n.color, n.value)

def Finds (a : Arena α) (l : Link) (way : List Side) (x : Option (Color × α)) : Prop :=
  ∃ ns l', a.follow way l = some (ns, l') ∧ a.Behind l' x

/-- All places that the links of an arena lead to, from left to right. -/
structure HasPlaces (a : Arena α) (ps : List (List Side × Option (Color × α))) : Prop where
  length_eq : ps.length = 2 * a.size + 1
  nodup : (ps.map Prod.fst).Nodup
  mem_iff : ∀ way x, (way, x) ∈ ps ↔ a.Finds a.root way x
  /-- The nodes in order, and an absent link before, between and behind them. -/
  inOrder : ∃ ns, a.InOrder a.root ns ∧
    ps.map Prod.snd = none :: ns.flatMap fun n => [some (n.color, n.value), none]

variable {a : Arena α} {t : Tree α} {u : Layout α} {l up : Link}
  {ns ms : List (Node α)} {way : List Side} {x : Option (Color × α)}

theorem InOrder.unique (h : a.InOrder l ns) (h' : a.InOrder l ms) : ns = ms := by
  induction h generalizing ms with
  | none =>
    cases h'
    rfl
  | some hn _ _ hl hr =>
    cases h' with
    | some hn' hl' hr' =>
      cases hn.symm.trans hn'
      rw [hl hl', hr hr']

theorem Spells.enumerates (h : a.Spells up l u) : a.Enumerates l u.toList := by
  induction h with
  | nil => exact .none
  | node hn _ _ _ hl hr => exact .some hn hl hr

theorem Lays.enumerates (h : a.Lays [] u) : a.Enumerates a.root u.toList :=
  h.spells_root.enumerates

theorem Spells.exists_inOrder (h : a.Spells up l u) :
    ∃ ns, a.InOrder l ns ∧ ns.map (fun n => (n.color, n.value)) = (u.map Prod.snd).nodes := by
  induction h with
  | nil => exact ⟨[], .none, rfl⟩
  | node hn _ _ _ hl hr =>
    obtain ⟨ns, hns, ens⟩ := hl
    obtain ⟨ms, hms, ems⟩ := hr
    exact ⟨_, .some hn hns hms, by simp [Tree.map, Tree.nodes, ens, ems]⟩

theorem Shows.exists_inOrder (h : a.Shows t) :
    ∃ ns, a.InOrder a.root ns ∧ ns.map (fun n => (n.color, n.value)) = t.nodes := by
  obtain ⟨u, hu, rfl⟩ := h
  exact hu.spells_root.exists_inOrder

theorem finds_nil : a.Finds l [] x ↔ a.Behind l x := by
  simp [Finds, follow]

theorem not_finds_none (s : Side) : ¬ a.Finds none (s :: way) x := by
  simp [Finds, follow]

theorem finds_cons {i : Nat} {n : Node α} {s : Side} (hn : a.nodes[i]? = some n) :
    a.Finds (some i) (s :: way) x ↔ a.Finds (n.child s) way x := by
  simp only [Finds, follow_cons_iff hn]
  constructor
  · rintro ⟨_, l, ⟨ns, rfl, hf⟩, hx⟩
    exact ⟨ns, l, hf, hx⟩
  · rintro ⟨ns, l, hf, hx⟩
    exact ⟨_, l, ⟨ns, rfl, hf⟩, hx⟩

theorem Spells.mem_places (h : a.Spells up l u) :
    (way, x) ∈ (u.map Prod.snd).places ↔ a.Finds l way x := by
  induction h generalizing way with
  | nil =>
    cases way with
    | nil => simp [Tree.map, Tree.places, finds_nil, Behind]
    | cons s way => simp [Tree.map, Tree.places, not_finds_none]
  | node hn _ _ _ hl hr =>
    rcases way with _ | ⟨_ | _, way⟩
    · simp [Tree.map, Tree.places, finds_nil, Behind, hn]
    · simp [Tree.map, Tree.places, finds_cons hn, hl, Node.child]
    · simp [Tree.map, Tree.places, finds_cons hn, hr, Node.child]

theorem Shows.hasPlaces (h : a.Shows t) : a.HasPlaces t.places := by
  obtain ⟨ns, hns, hnodes⟩ := h.exists_inOrder
  obtain ⟨u, hu, rfl⟩ := h
  refine ⟨?_, Tree.nodup_places _, fun way x => hu.spells_root.mem_places, ns, hns, ?_⟩
  · rw [Tree.length_places, hu.size_eq, ← Tree.length_toList, Tree.toList_map, List.length_map,
      Tree.length_toList]
  · rw [Tree.map_snd_places, ← hnodes, List.flatMap_map]

end Arena
end RedBlack
