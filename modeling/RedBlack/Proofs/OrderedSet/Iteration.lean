import Mathlib.Data.List.TakeWhile
import RedBlack.Proofs.Arena.InOrder
import RedBlack.Proofs.Cursor.Journey
import RedBlack.Proofs.Lock.Warnings
import RedBlack.Proofs.OrderedSet.Reached
import RedBlack.Proofs.OrderedSet.Retention

set_option autoImplicit false

namespace RedBlack
variable {α π : Type}

namespace Extraction
variable {e : Extraction α}

def Step.note (vs : List α) : Step → Note α
  | .next => .element vs.head?
  | .nextBack => .element vs.getLast?
  | .extent => .extent vs.length vs.length
  | .rest => .elements vs
  | .restBack => .elements vs.reverse

def front : List Step → List (Note α) → List α
  | .next :: script, .element v :: notes => v.toList ++ front script notes
  | .rest :: script, .elements vs :: notes => vs ++ front script notes
  | _ :: script, _ :: notes => front script notes
  | _, _ => []

def back : List Step → List (Note α) → List α
  | .nextBack :: script, .element v :: notes => v.toList ++ back script notes
  | .restBack :: script, .elements vs :: notes => vs ++ back script notes
  | _ :: script, _ :: notes => back script notes
  | _, _ => []

theorem perform_fst (e : Extraction α) (step : Step) :
    (e.perform step).1 = step.note e.values := by
  cases step <;> rfl

theorem front_back_perform (e : Extraction α) (step : Step) :
    front [step] [(e.perform step).1] ++ (e.perform step).2.values ++
      (back [step] [(e.perform step).1]).reverse = e.values := by
  obtain ⟨vs⟩ := e
  cases step with
  | next => cases vs <;> simp [perform, next, front, back]
  | nextBack =>
    rcases List.eq_nil_or_concat vs with rfl | ⟨ws, w, rfl⟩ <;>
      simp [perform, nextBack, front, back]
  | extent => simp [perform, front, back]
  | rest => simp [perform, front, back]
  | restBack => simp [perform, front, back]

theorem front_cons (step : Step) (note : Note α) (script : List Step) (notes : List (Note α)) :
    front (step :: script) (note :: notes) = front [step] [note] ++ front script notes := by
  cases step <;> cases note <;> simp [front]

theorem back_cons (step : Step) (note : Note α) (script : List Step) (notes : List (Note α)) :
    back (step :: script) (note :: notes) = back [step] [note] ++ back script notes := by
  cases step <;> cases note <;> simp [back]

/-- After any script the values are those taken from the front, those not yet taken, and those taken
from the back, last one first. The ones in the middle say what every step answers next. -/
theorem exists_left (e : Extraction α) (script : List Step) :
    ∃ us, e.values = front script (e.run script) ++ us ++ (back script (e.run script)).reverse ∧
      ∀ step, e.run (script ++ [step]) = e.run script ++ [step.note us] := by
  induction script generalizing e with
  | nil => exact ⟨e.values, by simp [front, back], fun step => by simp [run, perform_fst]⟩
  | cons step script ih =>
    obtain ⟨us, hus, hrun⟩ := ih (e.perform step).2
    refine ⟨us, ?_, fun more => ?_⟩
    · have hp := e.front_back_perform step
      rw [hus] at hp
      rw [← hp, run, front_cons step _ script, back_cons step _ script]
      simp
    · simp only [List.cons_append, run, hrun]

end Extraction

theorem Workspace.visited_eq [Predicate π α] {p q : π} {vs accepted rejected : List α}
    (h : Predicate.Divides p vs accepted rejected q) (hr : rejected = []) :
    visited p vs = .ok vs := by
  induction h with
  | nil p => rfl
  | accept ht _ ih => simp only [visited, ht, ih hr, Except.map]
  | reject _ _ _ => cases hr

theorem OrderedSet.Represents.view_holder {h : Holder α} {t : Tree α} (ht : h.inner.Represents t) :
    h.view = .done ⟨h.inner.size, h.inner.contains, t.toList⟩ h.warnings := by
  rw [h.view_eq, ht.view, Traced.liftM_ok, Traced.after_pure]

theorem Tour.Guides.exists_cursor {s : OrderedSet α} {vs : List α} (hs : s.IsSound)
    (hvs : s.elements = .ok vs) (d : Direction) :
    ∃ c : Cursor π, s.cursor d = .ok c ∧ Guides ⟨d.arrange vs, [], []⟩ d s c := by
  obtain ⟨us, hus, hl⟩ := hs.exists_elements
  cases hvs.symm.trans hus
  obtain ⟨w, xs, hw, hd, hv, hx⟩ := hs.exists_start d
  refine ⟨⟨s.id, s.version, w, .active, [], []⟩, ?_, ?_⟩
  · simp only [OrderedSet.cursor, hw, ok_bind]
    rfl
  · exact .of_active rfl rfl hd rfl ⟨xs, hv, by rw [hx vs hvs]; rfl⟩ (by simp [hl])

theorem Tour.rest_eq_ahead (vs : List α) (answer : π → α → Bool) :
    (⟨vs, [], []⟩ : Tour α π).rest answer = vs := by
  simp [rest, List.takeWhile_eq_self_iff]

namespace OrderedSet

/-- All ways to get at the values of a set give these values, in this order. -/
structure Iterates (s : OrderedSet α) (vs : List α) : Prop where
  /-- At every point of a traversal the values are those that it has yielded and those still to
  come, which say what each step answers: the next value, how many there are, or all of them for a
  copy. -/
  traverse (d : Direction) : ∃ t, s.traverse d = .ok t ∧ ∀ script, ∃ notes us,
    t.run script = .ok notes ∧ d.arrange vs = Traversal.yielded script notes ++ us ∧
      (∀ step, t.run (script ++ [step]) = .ok (notes ++ [Traversal.Step.note d us step])) ∧
      (us = [] → ∀ n, t.run (script ++ List.replicate n .next) =
        .ok (notes ++ List.replicate n (.element none)))
  /-- At every point of an extraction the values are those taken from either end and those between
  them, which say what each step answers. -/
  extract : ∃ e, s.extract = .ok e ∧ ∀ script, ∃ us,
    vs = Extraction.front script (e.run script) ++ us ++
        (Extraction.back script (e.run script)).reverse ∧
      ∀ step, e.run (script ++ [step]) = e.run script ++ [Extraction.Step.note us step]
  elements [Render α] : s.ask .elements = .ok (.ok (.elements vs))
  snapshot [BEq α] [Ord α] (h : Holder α) : h.inner = s →
    (Container.ordered h).snapshot = .done vs h.warnings
  visit [BEq α] (h : Holder α) : h.inner = s →
    ∃ view, (Container.ordered h).view = .done view h.warnings ∧
      ∀ (π : Type) [Predicate π α] (p q : π), Predicate.Divides p vs vs [] q →
        Workspace.visited p view.elements = .ok vs
  drain (h : Holder α) (π : Type) [Predicate π α] : h.inner = s →
    ∃ (c c' : Cursor π) (es : List Event), s.cursor .ascending = .ok c ∧
      h.drain c = .done (vs.map fun v => .ok (some v), c') es

variable {s : OrderedSet α} {t : Tree α}

theorem Represents.iterates_toList (h : s.Represents t) : s.Iterates t.toList where
  traverse d := by
    obtain ⟨r, hr, hy, hd⟩ := h.traverse d
    refine ⟨r, hr, fun script => ?_⟩
    obtain ⟨notes, us, u, hn, hus, hu, hd', hrun⟩ := hy.run script
    rw [Tree.listFrom_firstSide] at hus
    refine ⟨notes, us, hn, hus, fun step => ?_, ?_⟩
    · obtain ⟨w, hp, -⟩ := hu.perform step
      rw [hrun, Traversal.run, hp, hd', hd]
      rfl
    · rintro rfl n
      rw [hrun, hu.run_next_nil]
      rfl
  extract := ⟨_, h.extract, fun script => Extraction.exists_left ⟨t.toList⟩ script⟩
  elements := by
    intro _
    simp only [OrderedSet.ask, h.elements, ok_bind]
    rfl
  snapshot c hc := by
    subst hc
    simp [Container.snapshot, Container.view, h.view_holder, Traced.done_bind, Traced.pure_eq]
  visit c hc := by
    subst hc
    exact ⟨_, h.view_holder, fun π _ p q hp => Workspace.visited_eq hp rfl⟩
  drain c π _ hc := by
    subst hc
    obtain ⟨k, hk, hg⟩ := Tour.Guides.exists_cursor (π := π) h.isSound h.elements .ascending
    have hrest := Tour.rest_eq_ahead t.toList fun (_ : π) _ => true
    have hlt : t.toList.length < c.inner.size + 1 := by rw [h.size_eq]; omega
    have hnil : Predicate.Stateless (fun (_ : π) (_ : α) => true) [] := by
      intro p hp
      cases hp
    obtain ⟨k', es, hd⟩ := hg.exists_drainWithin hnil hnil (hrest ▸ hlt)
    rw [show Direction.ascending.arrange t.toList = t.toList from rfl, hrest] at hd
    exact ⟨k, k', es, hk, hd⟩

/-- The values of the nodes of a set, in the order that its links make, are what every way through
the set gives, whatever its comparator answers. -/
theorem Reached.iterates (h : s.Reached) :
    ∃ ns, s.tree.InOrder s.tree.root ns ∧ (∀ ms, s.tree.InOrder s.tree.root ms → ms = ns) ∧
      s.Iterates (ns.map Node.value) := by
  obtain ⟨t, ht⟩ := h.isSound
  obtain ⟨ns, hns, hnodes⟩ := ht.shows.exists_inOrder
  have hvs : ns.map Node.value = t.toList := by
    rw [t.toList_eq_nodes, ← hnodes, List.map_map]
    rfl
  exact ⟨ns, hns, fun ms hms => hms.unique hns, hvs ▸ ht.iterates_toList⟩

theorem Reached.iterates_lopsidedRun :
    ∃ s es, lopsidedRun = .done s es ∧
      s.Iterates [.int 2, .int 4, .int 3, .int 1, .int 5] := by
  obtain ⟨s, es, t, e, ht, hr⟩ : ∃ s es t, lopsidedRun = .done s es ∧
      s.traverse .ascending = .ok t ∧ t.run ([.next, .next, .next, .next, .next] ++ [.extent]) =
        .ok ([.element (some (.int 2)), .element (some (.int 4)), .element (some (.int 3)),
          .element (some (.int 1)), .element (some (.int 5))] ++ [.extent 0 0]) :=
    ⟨_, _, _, rfl, rfl, rfl⟩
  obtain ⟨ns, -, -, hi⟩ := Reached.iterates (reached_lopsidedRun e)
  obtain ⟨t', ht', hrun⟩ := hi.traverse .ascending
  cases ht.symm.trans ht'
  obtain ⟨notes, us, -, hus, hstep, -⟩ := hrun [.next, .next, .next, .next, .next]
  obtain ⟨rfl, hlast⟩ :=
    List.append_singleton_inj.1 (Except.ok.inj (hr.symm.trans (hstep .extent)))
  obtain rfl : us = [] := List.eq_nil_of_length_eq_zero (Note.extent.inj hlast).1.symm
  have hvs : ns.map Node.value = [.int 2, .int 4, .int 3, .int 1, .int 5] := hus
  exact ⟨s, es, e, hvs ▸ hi⟩

end OrderedSet
end RedBlack
