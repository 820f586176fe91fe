import RedBlack.Proofs.Cursor.Calls

/-!
Tours: what a cursor goes through while its set stays as it is, told without trees and stacks. A
tour knows the elements that are still ahead and the predicates as they have become, and `Tour.Next`
says which of the predicates see which of the elements.
-/

set_option autoImplicit false

namespace RedBlack

namespace Verdict
variable {b : Bool} {m : String}

@[simp] theorem accept_eq_ofBool : .accept = ofBool b ↔ b = true := by
  cases b <;> simp [ofBool]

@[simp] theorem reject_eq_ofBool : .reject = ofBool b ↔ b = false := by
  cases b <;> simp [ofBool]

@[simp] theorem panic_ne_ofBool : .panic m ≠ ofBool b := by
  cases b <;> simp [ofBool]

end Verdict

variable {α π : Type} [Predicate π α]

namespace Predicate

def Accepts (v : α) (ps qs : List π) : Prop :=
  List.Forall₂ (fun p q => test p v = (.accept, q)) ps qs

/-- An element is shown to predicates one after the other, up to the first that does not accept it.
Those behind that one do not get to see it. -/
inductive Shown (v : α) : List π → Verdict → List π → Prop
  | all {ps qs : List π} : Accepts v ps qs → Shown v ps .accept qs
  | upTo {ps qs rest : List π} {p q : π} {verdict : Verdict} :
    Accepts v ps qs → test p v = (verdict, q) → verdict ≠ .accept →
      Shown v (ps ++ p :: rest) verdict (qs ++ q :: rest)

variable {v : α} {p q : π} {ps qs : List π} {verdict : Verdict}

theorem Shown.cons (hp : test p v = (.accept, q)) (h : Shown v ps verdict qs) :
    Shown v (p :: ps) verdict (q :: qs) := by
  cases h with
  | all h => exact .all (.cons hp h)
  | upTo h ht hn => exact .upTo (List.Forall₂.cons hp h) ht hn

theorem shown_head (hp : test p v = (verdict, q)) (hn : verdict ≠ .accept) (rest : List π) :
    Shown v (p :: rest) verdict (q :: rest) :=
  .upTo List.Forall₂.nil hp hn

theorem shown_testAll (ps : List π) (v : α) :
    Shown v ps (testAll ps v).1 (testAll ps v).2 := by
  induction ps with
  | nil => exact .all .nil
  | cons p ps ih =>
    cases hp : test p v with
    | mk verdict q =>
      cases verdict with
      | accept => simpa [testAll, hp] using Shown.cons hp ih
      | reject => simpa [testAll, hp] using shown_head hp (by simp) ps
      | panic m => simpa [testAll, hp] using shown_head hp (by simp) ps

/-- These predicates give the answers of a function and never change. -/
def Stateless (answer : π → α → Bool) (ps : List π) : Prop :=
  ∀ p ∈ ps, ∀ v, test p v = (.ofBool (answer p v), p)

theorem Accepts.eq_of_stateless {answer : π → α → Bool} (h : Accepts v ps qs)
    (hs : Stateless answer ps) : qs = ps ∧ ps.all (answer · v) = true := by
  induction h with
  | nil => exact ⟨rfl, rfl⟩
  | @cons p q ps qs hp h ih =>
    obtain ⟨hp', hs⟩ := List.forall_mem_cons.1 hs
    obtain ⟨rfl, ha⟩ := ih hs
    have ht := hp.symm.trans (hp' v)
    cases hv : answer p v with
    | false => simp [hv, Verdict.ofBool] at ht
    | true => simpa [hv, ha, Verdict.ofBool] using ht

theorem Shown.eq_of_stateless {answer : π → α → Bool} (h : Shown v ps verdict qs)
    (hs : Stateless answer ps) : qs = ps ∧ verdict = .ofBool (ps.all (answer · v)) := by
  cases h with
  | all h =>
    obtain ⟨rfl, ha⟩ := h.eq_of_stateless hs
    exact ⟨rfl, by rw [ha]; rfl⟩
  | @upTo ps qs rest p q verdict h ht hn =>
    obtain ⟨hs, hp, -⟩ : Stateless answer ps ∧ _ ∧ Stateless answer rest := by
      simpa [Stateless, or_imp, forall_and] using hs
    obtain ⟨rfl, ha⟩ := h.eq_of_stateless hs
    have ht' := ht.symm.trans (hp v)
    cases hv : answer p v with
    | false => simpa [hv, Verdict.ofBool, and_comm] using ht'
    | true =>
      rw [hv] at ht'
      exact absurd (congrArg Prod.fst ht') hn

end Predicate

/-- The elements ahead of a cursor, and its predicates. -/
structure Tour (α π : Type) where
  ahead : List α
  takeWhiles : List π
  filters : List π

namespace Tour

/-- Goes on to the next element that every predicate accepts. Each element on the way is shown to
the predicates that can end the tour, and to the filters only if all of those accept it. An element
that a predicate panics on is behind the tour afterwards. -/
inductive Next : Tour α π → Except Failure (Option α) → Tour α π → Prop
  | atEnd {ps qs : List π} : Next ⟨[], ps, qs⟩ (.ok none) ⟨[], ps, qs⟩
  | finish {v : α} {vs : List α} {ps ps' qs : List π} :
    Predicate.Shown v ps .reject ps' → Next ⟨v :: vs, ps, qs⟩ (.ok none) ⟨[], ps', qs⟩
  | panic {v : α} {vs : List α} {ps ps' qs : List π} {m : String} :
    Predicate.Shown v ps (.panic m) ps' →
      Next ⟨v :: vs, ps, qs⟩ (.error (.predicate m)) ⟨vs, ps', qs⟩
  | skip {v : α} {vs : List α} {ps ps' qs qs' : List π} {r : Except Failure (Option α)}
      {t : Tour α π} :
    Predicate.Shown v ps .accept ps' → Predicate.Shown v qs .reject qs' →
      Next ⟨vs, ps', qs'⟩ r t → Next ⟨v :: vs, ps, qs⟩ r t
  | filterPanic {v : α} {vs : List α} {ps ps' qs qs' : List π} {m : String} :
    Predicate.Shown v ps .accept ps' → Predicate.Shown v qs (.panic m) qs' →
      Next ⟨v :: vs, ps, qs⟩ (.error (.predicate m)) ⟨vs, ps', qs'⟩
  | yield {v : α} {vs : List α} {ps ps' qs qs' : List π} :
    Predicate.Shown v ps .accept ps' → Predicate.Shown v qs .accept qs' →
      Next ⟨v :: vs, ps, qs⟩ (.ok (some v)) ⟨vs, ps', qs'⟩

variable {t t' : Tour α π} {r : Except Failure (Option α)} {answer : π → α → Bool}

theorem Next.isSuffix (h : t.Next r t') : t'.ahead <:+ t.ahead := by
  induction h with
  | atEnd => exact List.suffix_rfl
  | finish _ => exact List.nil_suffix
  | skip _ _ _ ih => exact ih.trans (List.suffix_cons ..)
  | panic _ | filterPanic _ _ | yield _ _ => exact List.suffix_cons ..

theorem Next.ended (h : t.Next r t') (hr : r = .ok none) : t'.ahead = [] := by
  induction h with
  | atEnd | finish _ => rfl
  | skip _ _ _ ih => exact ih hr
  | panic _ | filterPanic _ _ | yield _ _ => cases hr

theorem Next.eq_self (h : t.Next r t') (ht : t.ahead = []) : r = .ok none ∧ t' = t := by
  cases h with
  | atEnd => exact ⟨rfl, rfl⟩
  | finish _ | panic _ | skip _ _ _ | filterPanic _ _ | yield _ _ => cases ht

/-- What is still to be yielded by predicates that never change. -/
def rest (t : Tour α π) (answer : π → α → Bool) : List α :=
  (t.ahead.takeWhile fun v => t.takeWhiles.all (answer · v)).filter fun v =>
    t.filters.all (answer · v)

theorem Next.eq_of_stateless (h : t.Next r t') (hp : Predicate.Stateless answer t.takeWhiles)
    (hq : Predicate.Stateless answer t.filters) :
    r = .ok (t.rest answer).head? ∧ t'.rest answer = (t.rest answer).tail ∧
      t'.takeWhiles = t.takeWhiles ∧ t'.filters = t.filters := by
  induction h with
  | atEnd => exact ⟨rfl, rfl, rfl, rfl⟩
  | finish hps =>
    obtain ⟨rfl, ha⟩ := hps.eq_of_stateless hp
    rw [Verdict.reject_eq_ofBool] at ha
    simp [rest, ha]
  | panic hps => exact absurd (hps.eq_of_stateless hp).2 Verdict.panic_ne_ofBool
  | @skip v vs _ ps _ qs _ _ hps hqs _ ih =>
    obtain ⟨rfl, ha⟩ := hps.eq_of_stateless hp
    obtain ⟨rfl, hb⟩ := hqs.eq_of_stateless hq
    rw [Verdict.accept_eq_ofBool] at ha
    rw [Verdict.reject_eq_ofBool] at hb
    have hrest : rest ⟨v :: vs, ps, qs⟩ answer = rest ⟨vs, ps, qs⟩ answer := by
      simp [rest, ha, hb]
    rw [hrest]
    exact ih hp hq
  | filterPanic _ hqs => exact absurd (hqs.eq_of_stateless hq).2 Verdict.panic_ne_ofBool
  | yield hps hqs =>
    obtain ⟨rfl, ha⟩ := hps.eq_of_stateless hp
    obtain ⟨rfl, hb⟩ := hqs.eq_of_stateless hq
    rw [Verdict.accept_eq_ofBool] at ha hb
    simp [rest, ha, hb]

end Tour

namespace Cursor
variable {a : Arena α} {c : Cursor π} {xs : List (Nat × α)} {n : Nat}

def tour (c : Cursor π) (vs : List α) : Tour α π := ⟨vs, c.takeWhiles, c.filters⟩

theorem exists_tour (h : c.walk.Visits a xs) (hn : xs.length < n) :
    ∃ r c' ys, loop (seekRound a) n c = .ok (r, c') ∧ c'.walk.Visits a ys ∧
      (c.tour (xs.map Prod.snd)).Next r (c'.tour (ys.map Prod.snd)) := by
  induction n generalizing c xs with
  | zero => omega
  | succ n ih =>
    cases xs with
    | nil =>
      exact ⟨_, _, [], loop_over n (seekRound_nil h.step_nil), Walk.visits_ended _ a, .atEnd⟩
    | cons x xs =>
      obtain ⟨w, hs, hx, hd, hv⟩ := h.step_cons
      have hps := Predicate.shown_testAll c.takeWhiles x.2
      have hqs := Predicate.shown_testAll c.filters x.2
      cases ht : Predicate.testAll c.takeWhiles x.2 with
      | mk verdict ps =>
        rw [ht] at hps
        cases verdict with
        | reject =>
          have hj : judge { c with walk := w } x.2 = (.finish, c.onward w ps c.filters) := by
            simp only [judge, ht, onward]
          exact ⟨_, _, [], loop_over n (seekRound_met hs hx hj), Walk.visits_ended _ a,
            .finish hps⟩
        | panic m =>
          have hj : judge { c with walk := w } x.2 = (.panic m, c.onward w ps c.filters) := by
            simp only [judge, ht, onward]
          exact ⟨_, _, xs, loop_over n (seekRound_met hs hx hj), hv, .panic hps⟩
        | accept =>
          cases hf : Predicate.testAll c.filters x.2 with
          | mk verdict qs =>
            rw [hf] at hqs
            cases verdict with
            | reject =>
              have hj : judge { c with walk := w } x.2 = (.skip, c.onward w ps qs) := by
                simp only [judge, ht, hf, onward]
              obtain ⟨r, c', ys, hl, hv', hnext⟩ :=
                ih (c := c.onward w ps qs) hv (by simpa using hn)
              exact ⟨r, c', ys, (loop_again n (seekRound_met hs hx hj)).trans hl, hv',
                .skip hps hqs hnext⟩
            | panic m =>
              have hj : judge { c with walk := w } x.2 = (.panic m, c.onward w ps qs) := by
                simp only [judge, ht, hf, onward]
              exact ⟨_, _, xs, loop_over n (seekRound_met hs hx hj), hv, .filterPanic hps hqs⟩
            | accept =>
              have hj : judge { c with walk := w } x.2 = (.yield, c.onward w ps qs) := by
                simp only [judge, ht, hf, onward]
              exact ⟨_, _, xs, loop_over n (seekRound_met hs hx hj), hv, .yield hps hqs⟩

end Cursor
end RedBlack
