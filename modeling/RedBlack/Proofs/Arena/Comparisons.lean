import RedBlack.Proofs.Arena.Insertion
import RedBlack.Proofs.Arena.Links
import RedBlack.Proofs.Arena.Search
import RedBlack.Proofs.Tree.Height

set_option autoImplicit false

namespace RedBlack
variable {α : Type}

/-- The greatest number of nodes on a way from the root down to an absent link. -/
def Arena.HasHeight (a : Arena α) (h : Nat) : Prop :=
  IsGreatest {k | ∃ way ns, a.follow way a.root = some (ns, none) ∧ ns.length = k} h

namespace Arena
variable {a : Arena α} {p : Path (Nat × α)} {t : Layout α} {l up : Link}

theorem Spells.length_follow_le (h : a.Spells up l t) {way : List Side} {ns : List (Node α)}
    (hf : a.follow way l = some (ns, none)) : ns.length ≤ t.height := by
  induction h generalizing way ns with
  | nil =>
    cases way with
    | nil =>
      cases hf
      exact Nat.zero_le _
    | cons s way => cases hf
  | node hn _ _ _ hl hr =>
    cases way with
    | nil => cases hf
    | cons s way =>
      obtain ⟨ms, rfl, hf'⟩ := (follow_cons_iff hn).1 hf
      rw [Tree.height, List.length_cons]
      cases s with
      | left => exact Nat.succ_le_succ ((hl hf').trans (Nat.le_max_left ..))
      | right => exact Nat.succ_le_succ ((hr hf').trans (Nat.le_max_right ..))

theorem Spells.exists_follow_height (h : a.Spells up l t) :
    ∃ way ns, a.follow way l = some (ns, none) ∧ ns.length = t.height := by
  induction h with
  | nil => exact ⟨[], [], rfl, rfl⟩
  | @node _ _ _ t u hn _ _ _ hl hr =>
    -- The longer of the two subtrees tells where to go.
    rcases Nat.le_total u.height t.height with hle | hle
    · obtain ⟨way, ns, hf, hk⟩ := hl
      exact ⟨.left :: way, _, follow_cons hn hf, by simp [Tree.height, hk, hle]⟩
    · obtain ⟨way, ns, hf, hk⟩ := hr
      exact ⟨.right :: way, _, follow_cons hn hf, by simp [Tree.height, hk, hle]⟩

theorem Lays.hasHeight (h : a.Lays [] t) : a.HasHeight t.height := by
  constructor
  · exact h.spells_root.exists_follow_height
  · rintro _ ⟨way, ns, hf, rfl⟩
    exact h.spells_root.length_follow_le hf

section Effects
variable {m : Type → Type} [Monad m] [MonadLiftT (Except Fault) m]

def searchRoundM (a : Arena α) (cut : α → m Ordering) : Link → m (Round Link Link)
  | none => return .over none
  | some i => do
    let n ← a.node i
    match ← cut n.value with
    | .lt => return .again n.left
    | .gt => return .again n.right
    | .eq => return .over (some i)

def lookupM (a : Arena α) (cut : α → m Ordering) : m Link :=
  a.loop (a.searchRoundM cut) a.root

def descentRoundM (a : Arena α) (cut : α → m Ordering) (d : Descent) :
    m (Round Descent (Option (Link × Side))) :=
  match d.link with
  | none => return .over (some (d.parent, d.side))
  | some i => do
    let n ← a.node i
    match ← cut n.value with
    | .lt => return .again ⟨some i, .left, n.left⟩
    | .gt => return .again ⟨some i, .right, n.right⟩
    | .eq => return .over none

def descendM (a : Arena α) (cut : α → m Ordering) : m (Option (Link × Side)) :=
  a.loop (a.descentRoundM cut) ⟨none, .left, a.root⟩

end Effects

/-- Without an effect these are the searches themselves. -/
theorem lookupM_pure (a : Arena α) (cut : α → Ordering) :
    a.lookupM (fun v => (.ok (cut v) : Except Fault Ordering)) = a.lookup cut := by
  have hround : a.searchRoundM (fun v => (.ok (cut v) : Except Fault Ordering)) =
      a.searchRound cut := by
    funext l
    cases l <;> rfl
  rw [lookupM, hround]
  rfl

theorem descendM_pure (a : Arena α) (cut : α → Ordering) :
    a.descendM (fun v => (.ok (cut v) : Except Fault Ordering)) = a.descend cut := by
  have hround : a.descentRoundM (fun v => (.ok (cut v) : Except Fault Ordering)) =
      a.descentRound cut := by
    funext d
    obtain ⟨_, _, _ | _⟩ := d <;> rfl
  rw [descendM, hround]
  rfl

end Arena

abbrev Counting := StateT Nat (Except Fault)

def counted (cut : α → Ordering) (v : α) : Counting Ordering := do
  modify (· + 1)
  return cut v

namespace Counting
variable {σ β : Type} {body : σ → Counting (Round σ β)} {s s' : σ} {b : β} {k k' : Nat}

theorem loop_again (n : Nat) (h : (body s).run k = .ok (.again s', k')) :
    (loop body (n + 1) s).run k = (loop body n s').run k' := by
  simp only [loop, StateT.run_bind, h, ok_bind]

theorem loop_over (n : Nat) (h : (body s).run k = .ok (.over b, k')) :
    (loop body (n + 1) s).run k = .ok (b, k') := by
  simp only [loop, StateT.run_bind, h, ok_bind]
  rfl

end Counting

namespace Arena
variable {a : Arena α} {p : Path (Nat × α)} {t : Layout α}

theorem run_searchRoundM {n : Node α} {i : Nat} (cut : α → Ordering) (k : Nat)
    (hn : a.node i = .ok n) :
    (a.searchRoundM (counted cut) (some i)).run k = .ok (match cut n.value with
      | .lt => .again n.left
      | .gt => .again n.right
      | .eq => .over (some i), k + 1) := by
  simp only [searchRoundM, hn]
  cases hc : cut n.value <;> simp [counted, hc] <;> rfl

theorem run_descentRoundM {n : Node α} {i : Nat} (cut : α → Ordering) (k : Nat)
    (hn : a.node i = .ok n) (parent : Link) (side : Side) :
    (a.descentRoundM (counted cut) ⟨parent, side, some i⟩).run k = .ok (match cut n.value with
      | .lt => .again ⟨some i, .left, n.left⟩
      | .gt => .again ⟨some i, .right, n.right⟩
      | .eq => .over none, k + 1) := by
  simp only [descentRoundM, hn]
  cases hc : cut n.value <;> simp [counted, hc] <;> rfl

/-- A loop that goes down as a search does counts one comparison for each node that the search
meets. What it answers depends on where the search ends. -/
theorem Lays.run_loop {σ β : Type} {body : σ → Counting (Round σ β)} {cut : α → Ordering}
    (enter : Path (Nat × α) → Link → σ) (answer : Path (Nat × α) × Layout α → β)
    (hnil : ∀ p k, (body (enter p none)).run k = .ok (.over (answer (p, .nil)), k))
    (hnode : ∀ p c l x r k, a.Lays p (.node c l x r) →
      (body (enter p (some x.1))).run k = .ok (match cut x.2 with
        | .lt => .again (enter (⟨.left, c, x, r⟩ :: p) l.link)
        | .gt => .again (enter (⟨.right, c, x, l⟩ :: p) r.link)
        | .eq => .over (answer (p, .node c l x r)), k + 1))
    (h : a.Lays p t) (k : Nat) {n : Nat} (hn : t.height < n) :
    (RedBlack.loop body n (enter p t.link)).run k =
      .ok (answer (t.zoom (fun x => cut x.2) p), k + t.comparisons fun x => cut x.2) := by
  induction t generalizing p n k with
  | nil =>
    obtain ⟨n, rfl⟩ : ∃ k, n = k + 1 := ⟨n - 1, by omega⟩
    exact Counting.loop_over n (hnil p k)
  | node c l x r hl hr =>
    obtain ⟨n, rfl⟩ : ∃ k, n = k + 1 := ⟨n - 1, by omega⟩
    have hround := hnode p c l x r k h
    simp only [Tree.height] at hn
    simp only [Tree.zoom, Tree.comparisons]
    cases hc : cut x.2 with
    | lt =>
      have h' : a.Lays (⟨.left, c, x, r⟩ :: p) l := lays_cons.2 h
      simp only [hc] at hround
      refine (Counting.loop_again n hround).trans ((hl h' (k + 1) (by omega)).trans ?_)
      rw [Nat.add_right_comm, Nat.add_assoc]
    | gt =>
      have h' : a.Lays (⟨.right, c, x, l⟩ :: p) r := lays_cons.2 h
      simp only [hc] at hround
      refine (Counting.loop_again n hround).trans ((hr h' (k + 1) (by omega)).trans ?_)
      rw [Nat.add_right_comm, Nat.add_assoc]
    | eq =>
      simp only [hc] at hround
      exact Counting.loop_over n hround

theorem Lays.loop_searchRoundM (h : a.Lays p t) (cut : α → Ordering) (k : Nat) {n : Nat}
    (hn : t.height < n) :
    (RedBlack.loop (a.searchRoundM (counted cut)) n t.link).run k =
      .ok ((t.zoom (fun x => cut x.2) p).2.link, k + t.comparisons fun x => cut x.2) := by
  refine Lays.run_loop (fun _ l => l) (fun e => e.2.link) ?_ ?_ h k hn
  · intro p k
    rfl
  · intro p c l x r k h
    exact run_searchRoundM cut k h.node

theorem Lays.loop_descentRoundM (h : a.Lays p t) (cut : α → Ordering) (k : Nat) {n : Nat}
    (hn : t.height < n) :
    (RedBlack.loop (a.descentRoundM (counted cut)) n ⟨Path.link p, Path.holeSide p, t.link⟩).run k =
      .ok (match t.zoom (fun x => cut x.2) p with
        | (q, .nil) => some (Path.link q, Path.holeSide q)
        | (_, .node ..) => none, k + t.comparisons fun x => cut x.2) := by
  refine Lays.run_loop (fun p l => Descent.mk (Path.link p) (Path.holeSide p) l) (fun e =>
    match e with
    | (q, .nil) => some (Path.link q, Path.holeSide q)
    | (_, .node ..) => none) ?_ ?_ h k hn
  · intro p k
    rfl
  · intro p c l x r k h
    exact run_descentRoundM cut k h.node (Path.link p) (Path.holeSide p)

theorem Lays.lookupM (h : a.Lays [] t) (cut : α → Ordering) :
    ∃ l k, (a.lookupM (counted cut)).run 0 = .ok (l, k) ∧ a.lookup cut = .ok l ∧
      k ≤ t.height := by
  have hh := t.height_le_count
  have hs := h.size_eq
  have hr : a.root = t.link := Holds.root_eq h
  have hrun := h.loop_searchRoundM cut 0 (show t.height < a.size + 1 by omega)
  rw [← hr, Nat.zero_add] at hrun
  exact ⟨_, _, hrun, h.lookup cut, t.comparisons_le_height _⟩

theorem Lays.descendM (h : a.Lays [] t) (cut : α → Ordering) :
    ∃ r k, (a.descendM (counted cut)).run 0 = .ok (r, k) ∧ a.descend cut = .ok r ∧
      k ≤ t.height := by
  have hh := t.height_le_count
  have hs := h.size_eq
  have hr : a.root = t.link := Holds.root_eq h
  have hrun := h.loop_descentRoundM cut 0 (show t.height < a.size + 1 by omega)
  rw [← hr, Nat.zero_add] at hrun
  exact ⟨_, _, hrun, h.descend cut, t.comparisons_le_height _⟩

end Arena
end RedBlack
