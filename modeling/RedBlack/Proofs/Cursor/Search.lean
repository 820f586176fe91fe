import RedBlack.Cursor
import RedBlack.Proofs.Arena.Walk
import RedBlack.Proofs.OrderedSet.Soundness

set_option autoImplicit false

namespace RedBlack
variable {α π : Type} [Predicate π α]

theorem Predicate.Raises.exists_eq {p : π} {f : Failure} (h : Predicate.Raises p f) :
    ∃ m, f = .predicate m := by
  induction h with
  | panic => exact ⟨_, rfl⟩
  | later _ _ ih => exact ih

theorem Predicate.length_testAll (ps : List π) (v : α) :
    (Predicate.testAll ps v).2.length = ps.length := by
  induction ps with
  | nil => rfl
  | cons p ps ih =>
    cases hp : Predicate.test p v with
    | mk verdict q => cases verdict <;> simp [Predicate.testAll, hp, ih]

theorem Predicate.raises_testAll (ps : List π) (v : α) {f : Failure}
    (h : ∃ q ∈ (Predicate.testAll ps v).2, Raises q f) : ∃ p ∈ ps, Raises p f := by
  induction ps with
  | nil => exact h
  | cons p ps ih =>
    rw [List.exists_mem_cons_iff]
    cases hp : Predicate.test p v with
    | mk verdict q =>
      rw [Predicate.testAll, hp] at h
      cases verdict with
      | accept =>
        obtain hq | hps := (List.exists_mem_cons_iff _ _ _).1 h
        · exact .inl (.later hp hq)
        · exact .inr (ih hps)
      | reject | panic => exact ((List.exists_mem_cons_iff _ _ _).1 h).imp_left (.later hp)

theorem Predicate.raises_of_testAll {ps : List π} {v : α} {m : String}
    (h : (Predicate.testAll ps v).1 = .panic m) : ∃ p ∈ ps, Raises p (.predicate m) := by
  induction ps with
  | nil => cases h
  | cons p ps ih =>
    rw [List.exists_mem_cons_iff]
    cases hp : Predicate.test p v with
    | mk verdict q =>
      rw [Predicate.testAll, hp] at h
      cases verdict with
      | accept => exact .inr (ih h)
      | reject => cases h
      | panic text =>
        cases h
        exact .inl (.panic hp)

namespace Cursor

/-- A failure that is a panic of one of the predicates. -/
def Raises (c : Cursor π) (f : Failure) : Prop :=
  (∃ p ∈ c.takeWhiles, Predicate.Raises p f) ∨ ∃ p ∈ c.filters, Predicate.Raises p f

theorem Raises.exists_eq {c : Cursor π} {f : Failure} (h : c.Raises f) :
    ∃ m, f = .predicate m := by
  obtain ⟨p, -, hr⟩ | ⟨p, -, hr⟩ := h
  · exact hr.exists_eq
  · exact hr.exists_eq

/-- The elements that a search meets, in so many rounds at most. -/
def met (a : Arena α) : Nat → Cursor π → Except Fault (List α)
  | 0, _ => .error .endless
  | n + 1, c => do
    match ← c.walk.step a with
    | none => return []
    | some (i, w) => do
      let v ← a.value i
      match { c with walk := w }.judge v with
      | (.skip, c) => return v :: (← c.met a n)
      | _ => return [v]

/-- A cursor one element on, with its walk and its predicates after that element. -/
def onward (c : Cursor π) (w : Walk) (ps qs : List π) : Cursor π :=
  { c with walk := w, takeWhiles := ps, filters := qs }

theorem exists_judge (c : Cursor π) (v : α) :
    ∃ j ps qs, c.judge v = (j, c.onward c.walk ps qs) ∧ ps.length = c.takeWhiles.length ∧
      (j = .finish → c.takeWhiles ≠ []) ∧ (j = .skip → c.filters ≠ []) ∧
      (∀ f, (c.onward c.walk ps qs).Raises f → c.Raises f) ∧
      ∀ m, j = .panic m → c.Raises (.predicate m) := by
  have hps := Predicate.length_testAll c.takeWhiles v
  have htakes {f : Failure} := Predicate.raises_testAll c.takeWhiles v (f := f)
  have hfilters {f : Failure} := Predicate.raises_testAll c.filters v (f := f)
  cases ht : Predicate.testAll c.takeWhiles v with
  | mk verdict ps =>
    rw [ht] at hps htakes
    cases verdict with
    | reject =>
      refine ⟨.finish, ps, c.filters, by simp [judge, onward, ht], hps, fun _ hn => ?_, nofun,
        fun f => Or.imp_left htakes, nofun⟩
      rw [hn] at ht
      cases ht
    | panic m =>
      refine ⟨.panic m, ps, c.filters, by simp [judge, onward, ht], hps, nofun, nofun,
        fun f => Or.imp_left htakes, ?_⟩
      rintro _ ⟨⟩
      exact .inl (Predicate.raises_of_testAll (by rw [ht]))
    | accept =>
      cases hf : Predicate.testAll c.filters v with
      | mk verdict qs =>
        rw [hf] at hfilters
        cases verdict with
        | accept =>
          exact ⟨.yield, ps, qs, by simp [judge, onward, ht, hf], hps, nofun, nofun,
            fun f => Or.imp htakes hfilters, nofun⟩
        | reject =>
          refine ⟨.skip, ps, qs, by simp [judge, onward, ht, hf], hps, nofun, fun _ hn => ?_,
            fun f => Or.imp htakes hfilters, nofun⟩
          rw [hn] at hf
          cases hf
        | panic m =>
          refine ⟨.panic m, ps, qs, by simp [judge, onward, ht, hf], hps, nofun, nofun,
            fun f => Or.imp htakes hfilters, ?_⟩
          rintro _ ⟨⟩
          exact .inr (Predicate.raises_of_testAll (by rw [hf]))

theorem judge_of_nil {c : Cursor π} (ht : c.takeWhiles = []) (hf : c.filters = []) (v : α) :
    (c.judge v).1 = .yield := by
  simp [judge, ht, hf, Predicate.testAll]

/-- A search, from the cursor `c` with `xs` ahead of it to the cursor `c'`: the elements `vs` that
it met, and what it answers. -/
structure Passes (a : Arena α) (c : Cursor π) (xs : List (Nat × α)) (vs : List α)
    (r : Except Failure (Option α)) (c' : Cursor π) : Prop where
  setId_eq : c'.setId = c.setId
  version_eq : c'.version = c.version
  direction_eq : c'.walk.direction = c.walk.direction
  takeWhiles_length : c'.takeWhiles.length = c.takeWhiles.length
  state_eq : r ≠ .ok none → c'.state = c.state
  exhausted : r = .ok none → c'.state = .exhausted
  /-- What was met and what is still ahead. Only a rejected element ends the walk early. -/
  ahead : ∃ ys, c'.walk.Visits a ys ∧ vs ++ ys.map Prod.snd <+: xs.map Prod.snd ∧
    (c.takeWhiles = [] → vs ++ ys.map Prod.snd = xs.map Prod.snd) ∧ (r = .ok none → ys = [])
  yielded (v : α) : r = .ok (some v) → vs.getLast? = some v
  /-- Without predicates a search yields the next element. -/
  plain : c.takeWhiles = [] → c.filters = [] → r = .ok (xs.map Prod.snd).head?
  panicked (e : Failure) : r = .error e → c.Raises e
  /-- The predicates raise nothing afterwards that they could not raise before. -/
  raises (e : Failure) : c'.Raises e → c.Raises e

variable {a : Arena α} {c c' : Cursor π} {x : Nat × α} {xs : List (Nat × α)} {vs : List α}
  {r : Except Failure (Option α)} {n : Nat} {w : Walk} {ps qs : List π}

theorem passes_nil (c : Cursor π) (a : Arena α) :
    Passes a c [] [] (.ok none) (c.stop .exhausted) where
  setId_eq := rfl
  version_eq := rfl
  direction_eq := rfl
  takeWhiles_length := rfl
  state_eq h := absurd rfl h
  exhausted _ := rfl
  ahead := ⟨[], Walk.visits_ended _ a, List.prefix_rfl, fun _ => rfl, fun _ => rfl⟩
  yielded := nofun
  plain _ _ := rfl
  panicked := nofun
  raises _ h := h

theorem passes_yield (hd : w.direction = c.walk.direction) (hv : w.Visits a xs)
    (hps : ps.length = c.takeWhiles.length)
    (hraises : ∀ f, (c.onward w ps qs).Raises f → c.Raises f) :
    Passes a c (x :: xs) [x.2] (.ok (some x.2)) (c.onward w ps qs) where
  setId_eq := rfl
  version_eq := rfl
  direction_eq := hd
  takeWhiles_length := hps
  state_eq _ := rfl
  exhausted := nofun
  ahead := ⟨xs, hv, List.prefix_rfl, fun _ => rfl, nofun⟩
  yielded v hr := by
    cases hr
    rfl
  plain _ _ := rfl
  panicked := nofun
  raises := hraises

theorem passes_finish (hd : w.direction = c.walk.direction)
    (hps : ps.length = c.takeWhiles.length)
    (hraises : ∀ f, (c.onward w ps qs).Raises f → c.Raises f) (ht : c.takeWhiles ≠ []) :
    Passes a c (x :: xs) [x.2] (.ok none) ((c.onward w ps qs).stop .exhausted) where
  setId_eq := rfl
  version_eq := rfl
  direction_eq := hd
  takeWhiles_length := hps
  state_eq h := absurd rfl h
  exhausted _ := rfl
  ahead := by
    refine ⟨[], Walk.visits_ended _ a, ?_, fun hn => absurd hn ht, fun _ => rfl⟩
    exact List.prefix_append [x.2] (xs.map Prod.snd)
  yielded := nofun
  plain hn := absurd hn ht
  panicked := nofun
  raises := hraises

/-- A search that a panic ends goes on behind the element under test when it is next called for. -/
theorem passes_panic {m : String} (hd : w.direction = c.walk.direction) (hv : w.Visits a xs)
    (hps : ps.length = c.takeWhiles.length)
    (hraises : ∀ f, (c.onward w ps qs).Raises f → c.Raises f) (hm : c.Raises (.predicate m))
    (hn : c.takeWhiles = [] → c.filters ≠ []) :
    Passes a c (x :: xs) [x.2] (.error (.predicate m)) (c.onward w ps qs) where
  setId_eq := rfl
  version_eq := rfl
  direction_eq := hd
  takeWhiles_length := hps
  state_eq _ := rfl
  exhausted := nofun
  ahead := ⟨xs, hv, List.prefix_rfl, fun _ => rfl, nofun⟩
  yielded := nofun
  plain ht hf := absurd hf (hn ht)
  panicked e hr := by
    cases hr
    exact hm
  raises := hraises

theorem Passes.skip (hd : w.direction = c.walk.direction)
    (hps : ps.length = c.takeWhiles.length)
    (hraises : ∀ f, (c.onward w ps qs).Raises f → c.Raises f) (hf : c.filters ≠ [])
    (h : Passes a (c.onward w ps qs) xs vs r c') :
    Passes a c (x :: xs) (x.2 :: vs) r c' where
  setId_eq := h.setId_eq
  version_eq := h.version_eq
  direction_eq := h.direction_eq.trans hd
  takeWhiles_length := h.takeWhiles_length.trans hps
  state_eq := h.state_eq
  exhausted := h.exhausted
  ahead := by
    obtain ⟨ys, hv, hp, hw, he⟩ := h.ahead
    refine ⟨ys, hv, ?_, fun ht => ?_, he⟩
    · simpa using hp
    · have hn : ps = [] := List.length_eq_zero_iff.1 (by rw [hps, ht]; rfl)
      simpa using hw hn
  yielded v hr := by
    have hl := h.yielded v hr
    rw [List.getLast?_cons, hl]
    rfl
  plain _ hn := absurd hn hf
  panicked e hr := hraises e (h.panicked e hr)
  raises e hr := hraises e (h.raises e hr)

theorem seekRound_nil (h : c.walk.step a = .ok none) :
    seekRound a c = .ok (.over (.ok none, c.stop .exhausted)) := by
  simp only [seekRound, h, ok_bind]
  rfl

/-- What becomes of a search after a judgement of an element. -/
def Judgement.round (j : Judgement) (v : α) (c : Cursor π) :
    Round (Cursor π) (Except Failure (Option α) × Cursor π) :=
  match j with
  | .yield => .over (.ok (some v), c)
  | .skip => .again c
  | .finish => .over (.ok none, c.stop .exhausted)
  | .panic m => .over (.error (.predicate m), c)

theorem seekRound_met {i : Nat} {v : α} {j : Judgement} (hs : c.walk.step a = .ok (some (i, w)))
    (hx : a.value i = .ok v) (hj : judge { c with walk := w } v = (j, c')) :
    seekRound a c = .ok (j.round v c') := by
  simp only [seekRound, hs, hx, hj, ok_bind]
  cases j <;> rfl

theorem exists_search (h : c.walk.Visits a xs) (hn : xs.length < n) :
    ∃ r c' vs, loop (seekRound a) n c = .ok (r, c') ∧ c.met a n = .ok vs ∧
      Passes a c xs vs r c' := by
  induction n generalizing c xs with
  | zero => omega
  | succ n ih =>
    cases xs with
    | nil =>
      have hs := h.step_nil
      refine ⟨.ok none, c.stop .exhausted, [], ?_, ?_, passes_nil c a⟩
      · exact loop_over n (seekRound_nil hs)
      · simp only [met, hs, ok_bind]
        rfl
    | cons x xs =>
      obtain ⟨w, hs, hx, hd, hv⟩ := h.step_cons
      obtain ⟨j, ps, qs, hj, hps, hfin, hskip, hraises, hpanic⟩ :=
        exists_judge { c with walk := w } x.2
      have hround : seekRound a c = .ok (j.round x.2 (c.onward w ps qs)) :=
        seekRound_met hs hx hj
      have hmet (hne : j ≠ .skip) : c.met a (n + 1) = .ok [x.2] := by
        simp only [met, hs, hx, hj, ok_bind]
        cases j <;> first | rfl | exact absurd rfl hne
      cases j with
      | skip =>
        obtain ⟨r, c', vs, hl, hm, hp⟩ := ih (c := c.onward w ps qs) hv (by simpa using hn)
        refine ⟨r, c', x.2 :: vs, ?_, ?_, hp.skip hd hps hraises (hskip rfl)⟩
        · rw [loop_again n hround, hl]
        · simp only [met, hs, hx, hj, ok_bind]
          change (do return x.2 :: (← (c.onward w ps qs).met a n)) = _
          rw [hm]
          rfl
      | yield =>
        exact ⟨_, _, _, loop_over n hround, hmet nofun, passes_yield hd hv hps hraises⟩
      | finish =>
        exact ⟨_, _, _, loop_over n hround, hmet nofun, passes_finish hd hps hraises (hfin rfl)⟩
      | panic m =>
        have hne (ht : c.takeWhiles = []) (hf : c.filters = []) : False := by
          have hy := judge_of_nil (c := { c with walk := w }) ht hf x.2
          rw [hj] at hy
          cases hy
        exact ⟨_, _, _, loop_over n hround, hmet nofun,
          passes_panic hd hv hps hraises (hpanic m rfl) hne⟩

end Cursor
end RedBlack
