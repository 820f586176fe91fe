import RedBlack.Proofs.OrderedSet.Representation

set_option autoImplicit false

namespace RedBlack
variable {α : Type}

/-- The values that a traversal still has to meet are these. -/
def Traversal.Yields (t : Traversal α) (vs : List α) : Prop :=
  ∃ xs, t.walk.Visits t.tree xs ∧ xs.map Prod.snd = vs ∧ t.remaining = vs.length

namespace Traversal

/-- What a step answers while these values are still to come. -/
def Step.note (d : Direction) (vs : List α) : Step → Note α
  | .next => .element vs.head?
  | .extent => .extent vs.length vs.length
  | .direction => .direction d
  | .copyRest | .rest => .elements vs

def Step.left (vs : List α) : Step → List α
  | .next => vs.tail
  | .extent | .direction | .copyRest => vs
  | .rest => []

def Step.taken (vs : List α) : Step → List α
  | .next => vs.head?.toList
  | .extent | .direction | .copyRest => []
  | .rest => vs

/-- What a traversal has yielded, read off the answers to a script. What its copies yield is not
counted. -/
def yielded : List Step → List (Note α) → List α
  | .next :: script, .element v :: notes => v.toList ++ yielded script notes
  | .rest :: script, .elements vs :: notes => vs ++ yielded script notes
  | _ :: script, _ :: notes => yielded script notes
  | _, _ => []

theorem Step.taken_append_left (step : Step) (vs : List α) :
    step.taken vs ++ step.left vs = vs := by
  cases step with
  | next => cases vs <;> rfl
  | extent | direction | copyRest => rfl
  | rest => exact List.append_nil vs

theorem yielded_cons (d : Direction) (step : Step) (vs : List α) (script : List Step)
    (notes : List (Note α)) :
    yielded (step :: script) (step.note d vs :: notes) = step.taken vs ++ yielded script notes := by
  cases step <;> rfl

end Traversal

namespace Traversal.Yields
variable {t : Traversal α} {v : α} {vs : List α}

theorem next_nil (h : t.Yields []) : t.next = .ok (none, t) := by
  obtain ⟨xs, hw, hx, -⟩ := h
  obtain rfl := List.map_eq_nil_iff.1 hx
  simp only [Traversal.next, hw.step_nil, ok_bind]
  rfl

theorem next_cons (h : t.Yields (v :: vs)) :
    ∃ u, t.next = .ok (some v, u) ∧ u.Yields vs ∧ u.walk.direction = t.walk.direction := by
  obtain ⟨xs, hw, hx, hr⟩ := h
  obtain ⟨x, xs, rfl, rfl, rfl⟩ := List.map_eq_cons_iff.1 hx
  obtain ⟨w', hs, hv, hd, hw'⟩ := hw.step_cons
  refine ⟨⟨t.tree, w', (xs.map Prod.snd).length⟩, ?_, ⟨xs, hw', rfl, rfl⟩, hd⟩
  simp only [List.length_cons] at hr
  simp only [Traversal.next, hs, ok_bind, hr, hv]
  rfl

theorem exists_next (h : t.Yields vs) :
    ∃ u, t.next = .ok (vs.head?, u) ∧ u.Yields vs.tail ∧
      u.walk.direction = t.walk.direction := by
  cases vs with
  | nil => exact ⟨t, h.next_nil, h, rfl⟩
  | cons v vs => exact h.next_cons

theorem drain (h : t.Yields vs) :
    ∃ u, t.drain = .ok (vs, u) ∧ u.Yields [] ∧ u.walk.direction = t.walk.direction := by
  induction vs generalizing t with
  | nil =>
    refine ⟨t, ?_, h, rfl⟩
    have hn := h.next_nil
    rw [Traversal.drain]
    split
    · rename_i hx; rw [hn] at hx; cases hx
    · rename_i hx; rw [hn] at hx; cases hx; rfl
    · rename_i hx; rw [hn] at hx; cases hx
  | cons v vs ih =>
    obtain ⟨u, hn, hu, hd⟩ := h.next_cons
    obtain ⟨w, hw, hw', hd'⟩ := ih hu
    refine ⟨w, ?_, hw', hd'.trans hd⟩
    rw [Traversal.drain]
    split
    · rename_i hx; rw [hn] at hx; cases hx
    · rename_i hx; rw [hn] at hx; cases hx
    · rename_i hx; rw [hn] at hx; cases hx; simp only [hw]

theorem perform (h : t.Yields vs) (step : Step) :
    ∃ u, t.perform step = .ok (step.note t.walk.direction vs, u) ∧ u.Yields (step.left vs) ∧
      u.walk.direction = t.walk.direction := by
  cases step with
  | next =>
    obtain ⟨u, hu, hs, hd⟩ := h.exists_next
    exact ⟨u, by rw [Traversal.perform, hu]; rfl, hs, hd⟩
  | extent =>
    obtain ⟨-, -, -, hr⟩ := id h
    exact ⟨t, by simp [Traversal.perform, Step.note, hr], h, rfl⟩
  | direction => exact ⟨t, rfl, h, rfl⟩
  | copyRest =>
    obtain ⟨u, hu, -⟩ := h.drain
    exact ⟨t, by rw [Traversal.perform, hu]; rfl, h, rfl⟩
  | rest =>
    obtain ⟨u, hu, hs, hd⟩ := h.drain
    exact ⟨u, by rw [Traversal.perform, hu]; rfl, hs, hd⟩

/-- After any script the values are those yielded so far and those still to come, and a longer
script goes on with the latter. -/
theorem run (h : t.Yields vs) (script : List Step) :
    ∃ notes us, ∃ u : Traversal α, t.run script = .ok notes ∧ vs = yielded script notes ++ us ∧
      u.Yields us ∧ u.walk.direction = t.walk.direction ∧
        ∀ more, t.run (script ++ more) = (u.run more).map (notes ++ ·) := by
  induction script generalizing t vs with
  | nil =>
    refine ⟨[], vs, t, rfl, rfl, h, rfl, fun more => ?_⟩
    rw [List.nil_append]
    cases t.run more <;> rfl
  | cons step script ih =>
    obtain ⟨u, hp, hu, hd⟩ := h.perform step
    obtain ⟨notes, us, w, hn, hy, hw, hd', hrun⟩ := ih hu
    refine ⟨step.note t.walk.direction vs :: notes, us, w, ?_, ?_, hw, hd'.trans hd, fun more => ?_⟩
    · simp only [Traversal.run, hp, hn, ok_bind]
      rfl
    · rw [yielded_cons, List.append_assoc, ← hy, Step.taken_append_left]
    · simp only [List.cons_append, Traversal.run, hp, hrun, ok_bind]
      cases w.run more <;> rfl

theorem run_next_nil (h : t.Yields []) (n : Nat) :
    t.run (List.replicate n .next) = .ok (List.replicate n (.element none)) := by
  induction n with
  | zero => rfl
  | succ n ih =>
    simp only [List.replicate_succ, Traversal.run, Traversal.perform, h.next_nil, Except.map,
      ok_bind,
      ih]
    rfl

end Traversal.Yields

namespace OrderedSet
variable {s : OrderedSet α} {t : Tree α}

namespace Represents

theorem traverse (h : s.Represents t) (d : Direction) :
    ∃ r, s.traverse d = .ok r ∧ r.Yields (t.listFrom d.firstSide) ∧ r.walk.direction = d := by
  have hsize := h.size_eq
  obtain ⟨u, hu, rfl⟩ := h.shows
  obtain ⟨w, hw, hd, hv⟩ := hu.start d
  refine ⟨⟨s.tree, w, s.size⟩, ?_, ⟨u.listFrom d.firstSide, hv, ?_, ?_⟩, hd⟩
  · simp only [OrderedSet.traverse, hw, ok_bind]
    rfl
  · rw [Tree.listFrom_map]
  · rw [hsize, Tree.length_toList, Tree.length_listFrom]

theorem elements (h : s.Represents t) : s.elements = .ok t.toList := by
  obtain ⟨r, hr, hy, -⟩ := h.traverse .ascending
  obtain ⟨u, hd, -⟩ := hy.drain
  simp only [OrderedSet.elements, hr, hd, ok_bind]
  rfl

theorem view (h : s.Represents t) : s.view = .ok ⟨s.size, s.contains, t.toList⟩ := by
  simp only [OrderedSet.view, h.elements, ok_bind]
  rfl

theorem extract (h : s.Represents t) : s.extract = .ok ⟨t.toList⟩ := by
  simp only [OrderedSet.extract, h.shows.takeSorted, ok_bind]
  rfl

theorem extreme (h : s.Represents t) (side : Side) :
    s.extreme side = .ok (match t.extreme side with
      | some x => .ok x.1.value
      | none => .error .emptySet) := by
  simp only [OrderedSet.extreme, h.extreme?, ok_bind]
  cases t.extreme side <;> rfl

section Text
variable [Render α]

theorem exists_text (h : s.Represents t) : ∃ text, s.text = .ok text :=
  ⟨_, by simp only [OrderedSet.text, h.elements, ok_bind]; rfl⟩

theorem exists_record (h : s.Represents t) : ∃ r, s.record = .ok r :=
  ⟨_, by simp only [OrderedSet.record, h.shows.draw, ok_bind]; rfl⟩

/-- A query is answered, unless it asks an empty set for an end. -/
theorem ask (h : s.Represents t) (q : Query α) :
    (∃ r, s.ask q = .ok (.ok r)) ∨
      s.ask q = .ok (.error .emptySet) ∧ t = .nil ∧ ∃ side, q = .extreme side := by
  cases q with
  | size | isEmpty | version | isConcurrent | settings => exact .inl ⟨_, rfl⟩
  | contains v => exact .inl ⟨_, by simp only [OrderedSet.ask, h.contains, ok_bind]; rfl⟩
  | get v => exact .inl ⟨_, by simp only [OrderedSet.ask, h.get?, ok_bind]; rfl⟩
  | tryExtreme side => exact .inl ⟨_, by simp only [OrderedSet.ask, h.extreme?, ok_bind]; rfl⟩
  | elements | deepElements =>
    exact .inl ⟨_, by simp only [OrderedSet.ask, h.elements, ok_bind]; rfl⟩
  | text =>
    obtain ⟨text, ht⟩ := h.exists_text
    exact .inl ⟨_, by simp only [OrderedSet.ask, ht, ok_bind]; rfl⟩
  | debug style =>
    obtain ⟨r, hr⟩ := h.exists_record
    exact .inl ⟨_, by simp only [OrderedSet.ask, hr, ok_bind]; rfl⟩
  | traverse d script =>
    obtain ⟨r, hr, hy, -⟩ := h.traverse d
    obtain ⟨notes, us, u, hn, -⟩ := hy.run script
    exact .inl ⟨_, by simp only [OrderedSet.ask, hr, hn, ok_bind]; rfl⟩
  | extreme side =>
    have he := h.extreme side
    cases hx : t.extreme side with
    | none =>
      refine .inr ⟨?_, Tree.extreme_eq_none_iff.1 hx, side, rfl⟩
      rw [hx] at he
      simp only [OrderedSet.ask, he, ok_bind]
      rfl
    | some x =>
      rw [hx] at he
      exact .inl ⟨_, by simp only [OrderedSet.ask, he, ok_bind]; rfl⟩

end Text
end Represents
end OrderedSet
end RedBlack
