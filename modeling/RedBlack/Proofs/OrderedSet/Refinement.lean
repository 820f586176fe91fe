import RedBlack.Element.Comparators
import RedBlack.Proofs.OrderedSet.Soundness
import RedBlack.Proofs.Tree.Order

/-!
Sets with a lawful comparator do what a plain list in ascending order does. The reference says what
the answers are and which values there are afterwards, and a run of commands agrees with it step by
step.
-/

set_option autoImplicit false

namespace RedBlack
variable {α : Type}

/-- No predicates at all, for updates that ask none. -/
inductive NoPredicate (α : Type) : Type

instance : Predicate (NoPredicate α) α := ⟨nofun⟩

/-- Whether a query is about the values of a set and their order alone. -/
def Query.isPlain : Query α → Bool
  | .size | .isEmpty | .contains _ | .get _ | .extreme _ | .tryExtreme _ | .elements => true
  | _ => false

/-- What a plain list can do as well as a set. -/
inductive Command (α : Type) where
  | update (u : Update α (NoPredicate α))
  | ask (q : Query α) (plain : q.isPlain = true := by rfl)
  /-- Goes on with a clone of the set. -/
  | clone (id : Nat)

namespace Reference

/-- Puts a value in its sorted place, unless a stored one is equal to it, which then stays. -/
def insert (compare : α → α → Ordering) (v : α) (xs : List α) : Bool × List α :=
  if xs.any (compare v · == .eq) then
    (false, xs)
  else
    (true, xs.takeWhile (compare v · == .gt) ++ v :: xs.dropWhile (compare v · == .gt))

def insertMany (compare : α → α → Ordering) : List α → List α → Nat × List α
  | [], xs => (0, xs)
  | v :: vs, xs =>
    let (new, xs) := insert compare v xs
    let (n, xs) := insertMany compare vs xs
    (if new then n + 1 else n, xs)

def get? (compare : α → α → Ordering) (key : α) (xs : List α) : Option α :=
  xs.find? (compare key · == .eq)

def take (compare : α → α → Ordering) (key : α) (xs : List α) : Option α × List α :=
  (get? compare key xs, xs.eraseP (compare key · == .eq))

def extreme? : Side → List α → Option α
  | .left, xs => xs.head?
  | .right, xs => xs.getLast?

def dropExtreme : Side → List α → List α
  | .left, xs => xs.tail
  | .right, xs => xs.dropLast

def extreme (side : Side) (xs : List α) : Except Failure α :=
  match extreme? side xs with
  | some v => .ok v
  | none => .error .emptySet

def update (compare : α → α → Ordering) (xs : List α) :
    Update α (NoPredicate α) → Except Failure (Reply α) × List α
  | .insert v => (.ok (.flag (insert compare v xs).1), (insert compare v xs).2)
  | .insertMany vs => (.ok (.number (insertMany compare vs xs).1), (insertMany compare vs xs).2)
  | .extend vs => (.ok .done, (insertMany compare vs xs).2)
  | .remove key => (.ok (.flag (take compare key xs).1.isSome), (take compare key xs).2)
  | .take key => (.ok (.element (take compare key xs).1), (take compare key xs).2)
  | .pop side => (.ok (.element (extreme? side xs)), dropExtreme side xs)
  | .clear => (.ok .done, [])

def ask (compare : α → α → Ordering) (xs : List α) :
    (q : Query α) → q.isPlain = true → Except Failure (Reply α)
  | .size, _ => .ok (.number xs.length)
  | .isEmpty, _ => .ok (.flag xs.isEmpty)
  | .contains key, _ => .ok (.flag (get? compare key xs).isSome)
  | .get key, _ => .ok (.element (get? compare key xs))
  | .extreme side, _ => (extreme side xs).map fun v => .element (some v)
  | .tryExtreme side, _ => .ok (.element (extreme? side xs))
  | .elements, _ => .ok (.elements xs)

def obey (compare : α → α → Ordering) (xs : List α) :
    Command α → Except Failure (Reply α) × List α
  | .update u => update compare xs u
  | .ask q plain => (ask compare xs q plain, xs)
  | .clone _ => (.ok .done, xs)

def obeyAll (compare : α → α → Ordering) (xs : List α) :
    List (Command α) → List (Except Failure (Reply α) × List α)
  | [] => []
  | c :: cs => obey compare xs c :: obeyAll compare (obey compare xs c).2 cs

end Reference

theorem Tree.takeExtreme?_eq {side : Side} {t : Tree α} {r : Option (α × Tree α)}
    {ts : List (Rotation α)} (hr : t.takeExtreme? side = .done r ts) :
    r.map Prod.fst = Reference.extreme? side t.toList ∧
      ((r.map Prod.snd).getD t).toList = Reference.dropExtreme side t.toList := by
  cases r with
  | none =>
    rw [Tree.takeExtreme?_eq_none hr]
    cases side <;> exact ⟨rfl, rfl⟩
  | some x =>
    obtain ⟨v, u⟩ := x
    cases side with
    | left =>
      rw [Tree.toList_takeExtreme?_left hr]
      exact ⟨rfl, rfl⟩
    | right =>
      rw [Tree.toList_takeExtreme?_right hr]
      simp [Reference.extreme?, Reference.dropExtreme]

namespace OrderedSet

open Traced

section Obey
variable [Render α]

def obey (s : OrderedSet α) : Command α → Traced Event (Except Failure (Reply α) × OrderedSet α)
  | .update u => s.update u
  | .ask q _ => do return (← s.ask q, s)
  | .clone id => return (.ok .done, s.clone id)

/-- The answers to commands, each with the values that a traversal finds after it. -/
def obeyAll (s : OrderedSet α) :
    List (Command α) → Traced Event (List (Except Failure (Reply α) × List α))
  | [] => return []
  | c :: cs => do
    let (r, s) ← s.obey c
    let vs ← s.elements
    return (r, vs) :: (← s.obeyAll cs)

end Obey

/-- The values of a set are these, in the ascending order of its comparator. -/
structure Refines (s : OrderedSet α) (compare : α → α → Ordering) (xs : List α) : Prop where
  compare_eq : s.compare = compare
  represents : ∃ t, s.Represents t ∧ t.toList = xs
  ascending : Ascending compare xs

namespace Refines
variable {s : OrderedSet α} {compare : α → α → Ordering} {xs : List α}

theorem size_eq (h : s.Refines compare xs) : s.size = xs.length := by
  obtain ⟨t, ht, rfl⟩ := h.represents
  exact ht.size_eq

theorem elements (h : s.Refines compare xs) : s.elements = .ok xs := by
  obtain ⟨t, ht, rfl⟩ := h.represents
  exact ht.elements

theorem isEmpty (h : s.Refines compare xs) : s.isEmpty = xs.isEmpty := by
  rw [OrderedSet.isEmpty, h.size_eq]
  cases xs <;> rfl

theorem extreme? (h : s.Refines compare xs) (side : Side) :
    s.extreme? side = .ok (Reference.extreme? side xs) := by
  obtain ⟨t, ht, rfl⟩ := h.represents
  rw [ht.extreme?]
  cases he : t.extreme side with
  | none =>
    rw [Tree.extreme_eq_none_iff.1 he]
    cases side <;> rfl
  | some x =>
    obtain ⟨f, p⟩ := x
    cases side with
    | left => simp [Reference.extreme?, (Tree.toList_extreme_left he).2]
    | right => simp [Reference.extreme?, (Tree.toList_extreme_right he).2]

theorem extreme (h : s.Refines compare xs) (side : Side) :
    s.extreme side = .ok (Reference.extreme side xs) := by
  rw [OrderedSet.extreme, h.extreme?, ok_bind, Reference.extreme]
  cases Reference.extreme? side xs <;> rfl

theorem of_sublist {s' : OrderedSet α} {ys : List α} {b : Bool} (h : s.Refines compare xs)
    (hs : ∃ t, s'.Represents t ∧ t.toList = ys) (hy : ys.Sublist xs)
    (e : s' = if b then { s with tree := s'.tree }.touch else s) : s'.Refines compare ys where
  compare_eq := by
    rw [e, ← h.compare_eq]
    split <;> rfl
  represents := hs
  ascending := List.Pairwise.sublist hy h.ascending

theorem pop (h : s.Refines compare xs) (side : Side) :
    ∃ s' es, s.pop side = .done (Reference.extreme? side xs, s') es ∧
      s'.Refines compare (Reference.dropExtreme side xs) := by
  obtain ⟨t, ht, rfl⟩ := h.represents
  obtain ⟨r, ts, es, s', hr, -, hp, hs, e⟩ := ht.pop side
  obtain ⟨hv, hl⟩ := Tree.takeExtreme?_eq hr
  refine ⟨s', es, hv ▸ hp, h.of_sublist ⟨_, hs, hl⟩ ?_ e⟩
  cases side with
  | left => exact List.tail_sublist _
  | right => exact List.dropLast_sublist _

theorem clear (h : s.Refines compare xs) :
    ∃ s' es, s.clear = .done s' es ∧ s'.Refines compare [] := by
  obtain ⟨t, ht, rfl⟩ := h.represents
  obtain ⟨e, hs⟩ := ht.clear
  exact ⟨_, _, e, h.compare_eq, ⟨_, hs, rfl⟩, List.Pairwise.nil⟩

theorem clone (h : s.Refines compare xs) (id : Nat) : (s.clone id).Refines compare xs where
  compare_eq := h.compare_eq
  represents := h.represents.imp fun _ ht => ⟨ht.1.clone id, ht.2⟩
  ascending := h.ascending

section Lawful
variable [Std.TransCmp compare]

theorem insert (h : s.Refines compare xs) (v : α) :
    ∃ s' es, s.insert v = .done ((Reference.insert compare v xs).1, s') es ∧
      s'.Refines compare (Reference.insert compare v xs).2 := by
  obtain ⟨t, ht, rfl⟩ := h.represents
  obtain ⟨r, ts, es, s', hr, -, hi, hs, e⟩ := ht.insert v
  have hc : s'.compare = compare := by
    rw [e, ← h.compare_eq]
    split <;> rfl
  rw [h.compare_eq] at hr
  have he := Tree.insert?_eq h.ascending hr
  refine ⟨s', es, ?_⟩
  unfold Reference.insert
  cases r with
  | none =>
    split at he
    · rename_i hany
      rw [if_pos hany]
      exact ⟨hi, hc, ⟨t, hs, rfl⟩, h.ascending⟩
    · cases he
  | some u =>
    split at he
    · cases he
    · rename_i hany
      rw [if_neg hany]
      have ha := Tree.ascending_insert? h.ascending hr
      rw [Option.some.inj he] at ha
      exact ⟨hi, hc, ⟨u, hs, Option.some.inj he⟩, ha⟩

theorem insertMany (h : s.Refines compare xs) (vs : List α) :
    ∃ s' es, s.insertMany vs = .done ((Reference.insertMany compare vs xs).1, s') es ∧
      s'.Refines compare (Reference.insertMany compare vs xs).2 := by
  induction vs generalizing s xs with
  | nil => exact ⟨s, [], rfl, h⟩
  | cons v vs ih =>
    obtain ⟨s₁, es₁, e₁, h₁⟩ := h.insert v
    obtain ⟨s₂, es₂, e₂, h₂⟩ := ih h₁
    refine ⟨s₂, es₁ ++ es₂, ?_, h₂⟩
    simp [OrderedSet.insertMany, e₁, e₂, Reference.insertMany, Traced.done_bind, Traced.pure_eq]

theorem take (h : s.Refines compare xs) (key : α) :
    ∃ s' es, s.take key = .done ((Reference.take compare key xs).1, s') es ∧
      s'.Refines compare (Reference.take compare key xs).2 := by
  obtain ⟨t, ht, rfl⟩ := h.represents
  obtain ⟨r, ts, es, s', hr, -, hi, hs, e⟩ := ht.take key
  rw [h.compare_eq] at hr
  obtain ⟨hv, hl⟩ := Tree.take?_eq h.ascending hr
  refine ⟨s', es, ?_, h.of_sublist ⟨_, hs, hl⟩ List.eraseP_sublist e⟩
  rw [hi, hv]
  rfl

theorem get? (h : s.Refines compare xs) (key : α) :
    s.get? key = .ok (Reference.get? compare key xs) := by
  obtain ⟨t, ht, rfl⟩ := h.represents
  rw [ht.get?, h.compare_eq, Tree.find?_eq h.ascending]
  rfl

theorem contains (h : s.Refines compare xs) (key : α) :
    s.contains key = .ok (Reference.get? compare key xs).isSome := by
  obtain ⟨t, ht, rfl⟩ := h.represents
  rw [ht.contains, h.compare_eq, Tree.find?_eq h.ascending]
  rfl

theorem update (h : s.Refines compare xs) (u : Update α (NoPredicate α)) :
    ∃ s' es, s.update u = .done ((Reference.update compare xs u).1, s') es ∧
      s'.Refines compare (Reference.update compare xs u).2 := by
  cases u with
  | insert v =>
    obtain ⟨s', _, e, h'⟩ := h.insert v
    exact ⟨s', _, bind_done e rfl, h'⟩
  | insertMany vs | extend vs =>
    obtain ⟨s', _, e, h'⟩ := h.insertMany vs
    exact ⟨s', _, bind_done e rfl, h'⟩
  | remove key =>
    obtain ⟨s', _, e, h'⟩ := h.take key
    exact ⟨s', _, bind_done (bind_done e rfl) rfl, h'⟩
  | take key =>
    obtain ⟨s', _, e, h'⟩ := h.take key
    exact ⟨s', _, bind_done e rfl, h'⟩
  | pop side =>
    obtain ⟨s', _, e, h'⟩ := h.pop side
    exact ⟨s', _, bind_done e rfl, h'⟩
  | clear =>
    obtain ⟨s', _, e, h'⟩ := h.clear
    exact ⟨s', _, bind_done e rfl, h'⟩
  | retain p => cases p

variable [Render α]

theorem ask (h : s.Refines compare xs) (q : Query α) (plain : q.isPlain = true) :
    s.ask q = .ok (Reference.ask compare xs q plain) := by
  cases q with
  | size => simp [OrderedSet.ask, Reference.ask, h.size_eq, pure, Except.pure]
  | isEmpty => simp [OrderedSet.ask, Reference.ask, h.isEmpty, pure, Except.pure]
  | contains key => simp [OrderedSet.ask, Reference.ask, h.contains]
  | get key => simp [OrderedSet.ask, Reference.ask, h.get?]
  | extreme side => simp [OrderedSet.ask, Reference.ask, h.extreme]
  | tryExtreme side => simp [OrderedSet.ask, Reference.ask, h.extreme?]
  | elements => simp [OrderedSet.ask, Reference.ask, h.elements]
  | _ => cases plain

theorem obey (h : s.Refines compare xs) (c : Command α) :
    ∃ s' es, s.obey c = .done ((Reference.obey compare xs c).1, s') es ∧
      s'.Refines compare (Reference.obey compare xs c).2 := by
  cases c with
  | update u => exact h.update u
  | ask q plain => exact ⟨s, _, bind_done (liftM_eq_done (h.ask q plain)) rfl, h⟩
  | clone id => exact ⟨s.clone id, [], rfl, h.clone id⟩

theorem obeyAll (h : s.Refines compare xs) (cs : List (Command α)) :
    (∃ es, s.obeyAll cs = .done (Reference.obeyAll compare xs cs) es) ∧
      ∀ x ∈ Reference.obeyAll compare xs cs, Ascending compare x.2 := by
  induction cs generalizing s xs with
  | nil => exact ⟨⟨[], rfl⟩, nofun⟩
  | cons c cs ih =>
    obtain ⟨s', es, e, h'⟩ := h.obey c
    obtain ⟨⟨es', e'⟩, ha⟩ := ih h'
    refine ⟨⟨_, bind_done e (bind_done (liftM_eq_done h'.elements) (bind_done e' rfl))⟩, ?_⟩
    rintro x (_ | ⟨_, hx⟩)
    · exact h'.ascending
    · exact ha x hx

end Lawful
end Refines

/-- A set that starts out empty gives the answers of the reference, holds its values after every
command, in ascending order and no two of them equal to one key, and never stops. -/
theorem obeyAll_eq_reference [Render α] (id : Nat) (settings : Settings α)
    [Std.TransCmp settings.comparator.compare] (cs : List (Command α)) :
    (∃ es, (OrderedSet.empty id settings).obeyAll cs =
        .done (Reference.obeyAll settings.comparator.compare [] cs) es) ∧
      ∀ x ∈ Reference.obeyAll settings.comparator.compare [] cs,
        Ascending settings.comparator.compare x.2 ∧
          ∀ key, ∀ v ∈ x.2, ∀ w ∈ x.2, settings.comparator.compare key v = .eq →
            settings.comparator.compare key w = .eq → v = w := by
  have h : (OrderedSet.empty id settings).Refines settings.comparator.compare [] :=
    ⟨rfl, ⟨.nil, represents_empty id settings, rfl⟩, List.Pairwise.nil⟩
  obtain ⟨he, ha⟩ := h.obeyAll cs
  exact ⟨he, fun x hx => ⟨ha x hx, fun key v hv w hw h₁ h₂ => (ha x hx).unique hv hw h₁ h₂⟩⟩

/-- Numbers compared by their distance from zero: of two opposite ones the first to come stays. -/
theorem obeyAll_eq_reference_abs :
    let settings : Settings Element := ⟨⟨"Abs", .custom, Element.byAbs⟩, none, false⟩
    ∃ es, (OrderedSet.empty 0 settings).obeyAll
        [.update (.insert (.int 3)), .update (.insert (.int (-3))),
          .update (.insertMany [.int (-1), .int 2]), .ask (.get (.int 1)),
          .update (.take (.int (-3))), .clone 1, .update (.pop .right), .ask (.extreme .left),
          .update .clear, .ask (.extreme .left)] =
      .done [(.ok (.flag true), [.int 3]), (.ok (.flag false), [.int 3]),
        (.ok (.number 2), [.int (-1), .int 2, .int 3]),
        (.ok (.element (some (.int (-1)))), [.int (-1), .int 2, .int 3]),
        (.ok (.element (some (.int 3))), [.int (-1), .int 2]), (.ok .done, [.int (-1), .int 2]),
        (.ok (.element (some (.int 2))), [.int (-1)]),
        (.ok (.element (some (.int (-1)))), [.int (-1)]), (.ok .done, []),
        (.error .emptySet, [])] es := by
  intro settings
  have : Std.TransCmp settings.comparator.compare := inferInstanceAs (Std.TransCmp Element.byAbs)
  exact (obeyAll_eq_reference 0 settings _).1

end OrderedSet
end RedBlack
