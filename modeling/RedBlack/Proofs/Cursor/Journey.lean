import RedBlack.Element.Comparators
import RedBlack.Element.Condition
import RedBlack.Proofs.Cursor.Tour
import RedBlack.Proofs.OrderedSet.Reference
import RedBlack.Proofs.Version
import RedBlack.Workspace.Session

set_option autoImplicit false

namespace RedBlack
variable {α π : Type}

inductive Cursor.Action (α π : Type) where
  | filter (p : π)
  | takeWhile (p : π)
  | call (k : Cursor.Call)
  | operate (op : Operation α π)

namespace Cursor.Action

def filter? : Action α π → Option π
  | filter p => some p
  | takeWhile _ | call _ | operate _ => none

def takeWhile? : Action α π → Option π
  | takeWhile p => some p
  | filter _ | call _ | operate _ => none

end Cursor.Action

variable [Predicate π α]

/-- Actions on a tour of the elements `vs`, and the answers of the calls. A start is answered with
no element. -/
inductive Tour.Run (vs : List α) : Tour α π → List (Cursor.Action α π) →
    List (Except Failure (Option α)) → Tour α π → Prop
  | nil {t : Tour α π} : Run vs t [] [] t
  | filter {t u : Tour α π} {p : π} {as : List (Cursor.Action α π)}
      {rs : List (Except Failure (Option α))} :
    Run vs { t with filters := t.filters ++ [p] } as rs u → Run vs t (.filter p :: as) rs u
  | takeWhile {t u : Tour α π} {p : π} {as : List (Cursor.Action α π)}
      {rs : List (Except Failure (Option α))} :
    Run vs { t with takeWhiles := t.takeWhiles ++ [p] } as rs u →
      Run vs t (.takeWhile p :: as) rs u
  | start {t u : Tour α π} {as : List (Cursor.Action α π)}
      {rs : List (Except Failure (Option α))} :
    Run vs { t with ahead := vs } as rs u → Run vs t (.call .start :: as) (.ok none :: rs) u
  | next {t t' u : Tour α π} {r : Except Failure (Option α)} {as : List (Cursor.Action α π)}
      {rs : List (Except Failure (Option α))} :
    t.Next r t' → Run vs t' as rs u → Run vs t (.call .next :: as) (r :: rs) u
  | operate {t u : Tour α π} {op : Operation α π} {as : List (Cursor.Action α π)}
      {rs : List (Except Failure (Option α))} :
    Run vs t as rs u → Run vs t (.operate op :: as) rs u

namespace Tour
variable {vs : List α} {t u : Tour α π} {as : List (Cursor.Action α π)}
  {rs : List (Except Failure (Option α))}

theorem Run.ahead_eq (h : Run vs t as rs u) (ht : t.ahead = vs) (hn : .call .next ∉ as) :
    u.ahead = vs := by
  induction h with
  | nil => exact ht
  | start _ ih => exact ih rfl (by simpa using hn)
  | next _ _ _ => simp at hn
  | filter _ ih | takeWhile _ ih | operate _ ih => exact ih ht (by simpa using hn)

/-- At the end of a tour nothing changes until it is started again, but for predicates that are
still attached. -/
theorem Run.ended (h : Run vs t as rs u) (ht : t.ahead = []) (hs : .call .start ∉ as) :
    u.ahead = [] ∧ (∀ r ∈ rs, r = .ok none) ∧
      u.takeWhiles = t.takeWhiles ++ as.filterMap Cursor.Action.takeWhile? ∧
      u.filters = t.filters ++ as.filterMap Cursor.Action.filter? := by
  induction h with
  | nil => simp [ht]
  | start _ _ => simp at hs
  | next hn _ ih =>
    obtain ⟨rfl, rfl⟩ := hn.eq_self ht
    obtain ⟨hu, hr, hp, hq⟩ := ih ht (by simpa using hs)
    refine ⟨hu, ?_, ?_, ?_⟩
    · simpa using hr
    · simpa [List.filterMap_cons, Cursor.Action.takeWhile?] using hp
    · simpa [List.filterMap_cons, Cursor.Action.filter?] using hq
  | filter _ ih | takeWhile _ ih | operate _ ih =>
    obtain ⟨hu, hr, hp, hq⟩ := ih ht (by simpa using hs)
    refine ⟨hu, hr, ?_, ?_⟩
    · simpa [List.filterMap_cons, Cursor.Action.takeWhile?] using hp
    · simpa [List.filterMap_cons, Cursor.Action.filter?] using hq

/-- A cursor on a tour of its set, in the version that it was created in. -/
structure Guides (t : Tour α π) (d : Direction) (s : OrderedSet α) (c : Cursor π) : Prop where
  setId_eq : c.setId = s.id
  version_eq : c.version = s.version
  direction_eq : c.walk.direction = d
  valid : c.state ≠ .invalidated
  exhausted : c.state = .exhausted → t.ahead = []
  visits : ∃ xs, c.walk.Visits s.tree xs ∧ t = c.tour (xs.map Prod.snd)
  length_le : t.ahead.length ≤ s.size

end Tour

namespace Tour.Guides
variable {t : Tour α π} {d : Direction} {s : OrderedSet α} {c : Cursor π} {vs : List α}

omit [Predicate π α] in
theorem of_active (hid : c.setId = s.id) (hv : c.version = s.version)
    (hd : c.walk.direction = d) (hst : c.state = .active)
    (hx : ∃ xs, c.walk.Visits s.tree xs ∧ t = c.tour (xs.map Prod.snd))
    (hl : t.ahead.length ≤ s.size) : t.Guides d s c :=
  ⟨hid, hv, hd, by simp [hst], by simp [hst], hx, hl⟩

omit [Predicate π α] in
theorem filter (h : t.Guides d s c) (p : π) :
    Guides { t with filters := t.filters ++ [p] } d s (c.filter p) := by
  obtain ⟨xs, hv, rfl⟩ := h.visits
  exact ⟨h.setId_eq, h.version_eq, h.direction_eq, h.valid, h.exhausted, ⟨xs, hv, rfl⟩,
    h.length_le⟩

omit [Predicate π α] in
theorem takeWhile (h : t.Guides d s c) (p : π) :
    Guides { t with takeWhiles := t.takeWhiles ++ [p] } d s (c.takeWhile p) := by
  obtain ⟨xs, hv, rfl⟩ := h.visits
  exact ⟨h.setId_eq, h.version_eq, h.direction_eq, h.valid, h.exhausted, ⟨xs, hv, rfl⟩,
    h.length_le⟩

omit [Predicate π α] in
theorem validate (h : t.Guides d s c) : c.validate s = .done (.ok (), c) [] :=
  Cursor.validate_fresh h.setId_eq h.version_eq h.valid

theorem start (h : t.Guides d s c) (hs : s.IsSound) (hvs : s.elements = .ok vs) :
    ∃ c' es, c.call s .start = .done (.ok none, c') es ∧
      Guides { t with ahead := d.arrange vs } d s c' := by
  obtain ⟨w, xs, hw, hd, hv, hx⟩ := hs.exists_start c.walk.direction
  obtain ⟨us, hus, hl⟩ := hs.exists_elements
  cases hvs.symm.trans hus
  refine ⟨{ c with walk := w, state := .active }, [], ?_, ?_⟩
  · simp [Cursor.call, Cursor.restart, h.validate, hw, Traced.pure_eq, Except.map]
  · obtain ⟨ys, -, rfl⟩ := h.visits
    have hxs : xs.map Prod.snd = d.arrange vs := h.direction_eq ▸ hx vs hvs
    exact .of_active h.setId_eq h.version_eq (hd.trans h.direction_eq) rfl
      ⟨xs, hv, by rw [hxs]; rfl⟩ (by simp [hl])

theorem next (h : t.Guides d s c) :
    ∃ r c' t', c.call s .next = .done (r, c') [] ∧ t.Next r t' ∧ t'.Guides d s c' := by
  obtain ⟨xs, hv, rfl⟩ := h.visits
  by_cases he : c.state = .exhausted
  · obtain rfl : xs = [] := List.map_eq_nil_iff.1 (h.exhausted he)
    refine ⟨.ok none, c, c.tour [], ?_, .atEnd, h⟩
    simp [Cursor.call, Cursor.next, h.validate, he, Traced.pure_eq]
  · have hlt : xs.length < s.size + 1 := by
      have hle := h.length_le
      simp only [Cursor.tour, List.length_map] at hle
      omega
    obtain ⟨r, c', ys, hl, hv', hnext⟩ := Cursor.exists_tour hv hlt
    obtain ⟨r₁, c₁, _, hl₁, -, hp⟩ := Cursor.exists_search hv hlt
    cases hl.symm.trans hl₁
    have hseek : c.seek s.tree = .ok (r, c') := hl
    refine ⟨r, c', _, ?_, hnext, hp.setId_eq.trans h.setId_eq, hp.version_eq.trans h.version_eq,
      hp.direction_eq.trans h.direction_eq, ?_, ?_, ⟨ys, hv', rfl⟩, ?_⟩
    · simp [Cursor.call, Cursor.next, h.validate, he, hseek, Traced.pure_eq]
    · by_cases hr : r = .ok none
      · simp [hp.exhausted hr]
      · rw [hp.state_eq hr]
        exact h.valid
    · intro he'
      by_cases hr : r = .ok none
      · exact hnext.ended hr
      · exact absurd (hp.state_eq hr ▸ he') he
    · exact hnext.isSuffix.length_le.trans h.length_le

end Tour.Guides

theorem Tour.Guides.exists_drainWithin {h : Holder α} {t : Tour α π} {d : Direction}
    {c : Cursor π} {answer : π → α → Bool} {n : Nat} (hg : t.Guides d h.inner c)
    (hp : Predicate.Stateless answer t.takeWhiles) (hq : Predicate.Stateless answer t.filters)
    (hn : (t.rest answer).length < n) :
    ∃ c' es, h.drainWithin c n = .done ((t.rest answer).map fun v => .ok (some v), c') es := by
  induction n generalizing t c with
  | zero => omega
  | succ n ih =>
    obtain ⟨_, ha⟩ := h.exists_acquire
    obtain ⟨r, c₁, t₁, e₁, hnext, hg₁⟩ := hg.next
    obtain ⟨rfl, hrest, htw, hf⟩ := hnext.eq_of_stateless hp hq
    have hcall : h.next c = .done (.ok (t.rest answer).head?, c₁) _ := Traced.bind_done ha e₁
    cases hr : t.rest answer with
    | nil =>
      rw [hr] at hcall
      exact ⟨c₁, _, Traced.bind_done hcall rfl⟩
    | cons v vs =>
      rw [hr] at hcall hrest hn
      obtain ⟨c₂, _, e₂⟩ := ih hg₁ (htw ▸ hp) (hf ▸ hq) (by simpa [hrest] using hn)
      rw [hrest] at e₂
      exact ⟨c₂, _, Traced.bind_done hcall (Traced.bind_done e₂ rfl)⟩

variable [Render α]

/-- Actions one after the other, with the answers of the calls. -/
def Cursor.run (h : Holder α) (c : Cursor π) : List (Cursor.Action α π) →
    Traced Event (List (Except Failure (Option α)) × Holder α × Cursor π)
  | [] => return ([], h, c)
  | .filter p :: as => run h (c.filter p) as
  | .takeWhile p :: as => run h (c.takeWhile p) as
  | .call k :: as => do
    let (r, c) ← c.call (← h.acquire) k
    let (rs, h, c) ← run h c as
    return (r :: rs, h, c)
  | .operate op :: as => do
    let (_, h) ← h.perform op
    run h c as

namespace Cursor
variable {h : Holder α} {c : Cursor π}

theorem exists_run_stale (hs : h.IsSound) (hid : c.setId = h.inner.id)
    (hst : c.state = .invalidated ∨ c.version < h.inner.version)
    (as : List (Cursor.Action α π)) :
    ∃ rs h' c' es, c.run h as = .done (rs, h', c') es ∧
      h.inner.version ≤ h'.inner.version := by
  induction as generalizing h c with
  | nil => exact ⟨[], h, c, [], rfl, Nat.le_refl _⟩
  | cons a as ih =>
    cases a with
    | filter p => exact ih hs (c := c.filter p) hid hst
    | takeWhile p => exact ih hs (c := c.takeWhile p) hid hst
    | call k =>
      obtain ⟨_, ha⟩ := h.exists_acquire
      obtain ⟨c₁, _, e₁, hid₁, -, -, hi₁, -⟩ :=
        exists_call_stale hid (hst.imp_right Nat.ne_of_lt) k
      obtain ⟨rs, h', c', _, e, hle⟩ := ih hs (hid₁.trans hid) (.inl hi₁)
      exact ⟨_, h', c', _, Traced.bind_done ha (Traced.bind_done e₁ (Traced.bind_done e rfl)), hle⟩
    | operate op =>
      obtain ⟨r, h₁, _, e₁, hb⟩ := hs.exists_perform op
      have hle₁ : h.inner.version ≤ h₁.inner.version := by
        rw [hb.version_eq]
        omega
      obtain ⟨rs, h', c', _, e, hle⟩ := ih (h := h₁) (c := c) hb.isSound
        (hid.trans hb.id_eq.symm) (hst.imp_right fun hlt => Nat.lt_of_lt_of_le hlt hle₁)
      exact ⟨rs, h', c', _, Traced.bind_done e₁ e, Nat.le_trans hle₁ hle⟩

end Cursor

theorem Tour.Guides.exists_run {h : Holder α} {t : Tour α π} {d : Direction} {c : Cursor π}
    {vs : List α} (hg : t.Guides d h.inner c) (hs : h.IsSound) (hvs : h.inner.elements = .ok vs)
    (as : List (Cursor.Action α π)) :
    ∃ rs h' c' es, c.run h as = .done (rs, h', c') es ∧ h.inner.version ≤ h'.inner.version ∧
      (h'.inner.version = h.inner.version → h'.inner = h.inner ∧
        ∃ u, Run (d.arrange vs) t as rs u ∧ u.Guides d h'.inner c') := by
  induction as generalizing h t c with
  | nil => exact ⟨[], h, c, [], rfl, Nat.le_refl _, fun _ => ⟨rfl, t, .nil, hg⟩⟩
  | cons a as ih =>
    cases a with
    | filter p =>
      obtain ⟨rs, h', c', es, e, hle, hrun⟩ := ih (hg.filter p) hs hvs
      refine ⟨rs, h', c', es, e, hle, fun hv => ?_⟩
      obtain ⟨hh, u, hu, hg'⟩ := hrun hv
      exact ⟨hh, u, .filter hu, hg'⟩
    | takeWhile p =>
      obtain ⟨rs, h', c', es, e, hle, hrun⟩ := ih (hg.takeWhile p) hs hvs
      refine ⟨rs, h', c', es, e, hle, fun hv => ?_⟩
      obtain ⟨hh, u, hu, hg'⟩ := hrun hv
      exact ⟨hh, u, .takeWhile hu, hg'⟩
    | call k =>
      obtain ⟨_, ha⟩ := h.exists_acquire
      cases k with
      | start =>
        obtain ⟨c₁, _, e₁, hg₁⟩ := hg.start hs hvs
        obtain ⟨rs, h', c', _, e, hle, hrun⟩ := ih hg₁ hs hvs
        refine ⟨_, h', c', _, Traced.bind_done ha (Traced.bind_done e₁ (Traced.bind_done e rfl)),
          hle, fun hv => ?_⟩
        obtain ⟨hh, u, hu, hg'⟩ := hrun hv
        exact ⟨hh, u, .start hu, hg'⟩
      | next =>
        obtain ⟨r, c₁, t₁, e₁, hnext, hg₁⟩ := hg.next
        obtain ⟨rs, h', c', _, e, hle, hrun⟩ := ih hg₁ hs hvs
        refine ⟨_, h', c', _, Traced.bind_done ha (Traced.bind_done e₁ (Traced.bind_done e rfl)),
          hle, fun hv => ?_⟩
        obtain ⟨hh, u, hu, hg'⟩ := hrun hv
        exact ⟨hh, u, .next hnext hu, hg'⟩
    | operate op =>
      obtain ⟨r, h₁, _, e₁, hb⟩ := hs.exists_perform op
      have hver := hb.version_eq
      by_cases hn : Deed.count ⟨h.inner, op, r⟩ = 0
      · have hh₁ := hb.unchanged hn
        obtain ⟨rs, h', c', _, e, hle, hrun⟩ := ih (h := h₁) (hh₁ ▸ hg) hb.isSound (hh₁ ▸ hvs)
        rw [hh₁] at hle hrun
        refine ⟨rs, h', c', _, Traced.bind_done e₁ e, hle, fun hv => ?_⟩
        obtain ⟨hh, u, hu, hg'⟩ := hrun hv
        exact ⟨hh, u, .operate hu, hg'⟩
      · have hlt : c.version < h₁.inner.version := by
          rw [hver, hg.version_eq]
          omega
        obtain ⟨rs, h', c', _, e, hle⟩ := Cursor.exists_run_stale (h := h₁) hb.isSound
          (hg.setId_eq.trans hb.id_eq.symm) (.inr hlt) as
        refine ⟨rs, h', c', _, Traced.bind_done e₁ e, by omega, fun hv => ?_⟩
        omega

/-- A cursor at a point of its tour, and what it goes on to do with its set. -/
structure Tour.Describes (t : Tour α π) (h : Holder α) (c : Cursor π) : Prop where
  takeWhiles_eq : c.takeWhiles = t.takeWhiles
  filters_eq : c.filters = t.filters
  /-- A drain finds what predicates that never change let through. -/
  drain (answer : π → α → Bool) : Predicate.Stateless answer t.takeWhiles →
    Predicate.Stateless answer t.filters →
      ∃ c' es, h.drain c = .done ((t.rest answer).map fun v => .ok (some v), c') es
  /-- At the end no predicate is asked any more, unless there is another start. -/
  ended (as : List (Cursor.Action α π)) : t.ahead = [] → .call .start ∉ as →
    ∃ rs h' c' es, c.run h as = .done (rs, h', c') es ∧
      (h'.inner.version = h.inner.version → (∀ r ∈ rs, r = .ok none) ∧
        c'.takeWhiles = c.takeWhiles ++ as.filterMap Cursor.Action.takeWhile? ∧
        c'.filters = c.filters ++ as.filterMap Cursor.Action.filter?)

theorem Tour.Guides.describes {h : Holder α} {t : Tour α π} {d : Direction} {c : Cursor π}
    (hg : t.Guides d h.inner c) (hs : h.IsSound) : t.Describes h c := by
  obtain ⟨vs, hvs, -⟩ := OrderedSet.IsSound.exists_elements hs
  obtain ⟨xs, -, ht⟩ := hg.visits
  refine ⟨by rw [ht]; rfl, by rw [ht]; rfl, fun answer hp hq => ?_, fun as ha hstart => ?_⟩
  · have hle : (t.rest answer).length ≤ t.ahead.length :=
      (List.filter_sublist.trans (List.takeWhile_sublist _)).length_le
    have hsize := hg.length_le
    exact hg.exists_drainWithin hp hq (by omega)
  · obtain ⟨rs, h', c', es, e, -, hrun⟩ := hg.exists_run hs hvs as
    refine ⟨rs, h', c', es, e, fun hv => ?_⟩
    obtain ⟨-, u, hu, hg'⟩ := hrun hv
    obtain ⟨ys, -, hu'⟩ := hg'.visits
    obtain ⟨-, hr, hp, hq⟩ := hu.ended ha hstart
    rw [ht, hu'] at hp hq
    exact ⟨hr, hp, hq⟩

/-- A cursor of any set, whatever predicates it is given, is on a tour of all elements in its order.
The tour says which predicates see which elements and what every call answers, as long as the set
keeps its version. -/
theorem Holder.journey {h : Holder α} (hs : h.inner.Reached) (d : Direction)
    (as : List (Cursor.Action α π)) :
    ∃ vs c, h.inner.elements = .ok vs ∧ h.inner.cursor d = .ok c ∧
      ∃ rs h' c' es, c.run h as = .done (rs, h', c') es ∧
        (h'.inner.version = h.inner.version → h'.inner = h.inner ∧
          ∃ t, Tour.Run (d.arrange vs) ⟨d.arrange vs, [], []⟩ as rs t ∧
            (.call .next ∉ as → t.ahead = d.arrange vs) ∧ t.Describes h' c') := by
  have hsound : h.IsSound := hs.isSound
  obtain ⟨vs, hvs, hl⟩ := OrderedSet.IsSound.exists_elements hsound
  obtain ⟨w, xs, hw, hd, hv, hx⟩ := OrderedSet.IsSound.exists_start hsound d
  have hcursor : h.inner.cursor d =
      .ok (⟨h.inner.id, h.inner.version, w, .active, [], []⟩ : Cursor π) := by
    simp only [OrderedSet.cursor, hw, ok_bind]
    rfl
  have hg : Tour.Guides ⟨d.arrange vs, [], []⟩ d h.inner
      (⟨h.inner.id, h.inner.version, w, .active, [], []⟩ : Cursor π) :=
    .of_active rfl rfl hd rfl ⟨xs, hv, by rw [hx vs hvs]; rfl⟩ (by simp [hl])
  obtain ⟨rs, h', c', es, e, -, hrun⟩ := hg.exists_run hsound hvs as
  refine ⟨vs, _, hvs, hcursor, rs, h', c', es, e, fun hver => ?_⟩
  obtain ⟨hh, t, ht, hg'⟩ := hrun hver
  have hsound' : h'.IsSound := by
    rw [IsSound, hh]
    exact hsound
  exact ⟨hh, t, ht, ht.ahead_eq rfl, hg'.describes hsound'⟩

/-- The odd ones of five numbers, from the greatest down to the first that is not greater than
one. -/
theorem Holder.journey_greater :
    ∃ (s : OrderedSet Element) (c c' : Cursor Condition) (es : List Event),
      s.elements = .ok [.int 1, .int 2, .int 3, .int 4, .int 5] ∧
        s.cursor .descending = .ok c ∧
          (plain s).drain ((c.filter (.congruent 2 1)).takeWhile (.greater (.int 1))) =
            .done ([.ok (some (.int 5)), .ok (some (.int 3))], c') es := by
  have hempty : (OrderedSet.empty 0 ⟨.natural Element, none, false⟩).Refines Ord.compare [] :=
    OrderedSet.refines_empty ..
  obtain ⟨s, es, e, hs⟩ := hempty.insertMany [.int 4, .int 2, .int 5, .int 1, .int 3]
  have hu : (OrderedSet.empty 0 ⟨.natural Element, none, false⟩).update (π := Condition)
      (.insertMany [.int 4, .int 2, .int 5, .int 1, .int 3]) = .done (.ok (.number 5), s) es := by
    simp [OrderedSet.update, e, Traced.done_bind, Traced.pure_eq]
    rfl
  have hreached : (plain s).inner.Reached := .update (.empty ..) hu
  obtain ⟨vs, c, hvs, hc, rs, h', c', es', e', hrun⟩ := journey hreached .descending
    [.filter (Condition.congruent 2 1), .takeWhile (Condition.greater (.int 1))]
  cases hvs.symm.trans hs.elements
  cases e'
  obtain ⟨-, t, ht, -, hd⟩ := hrun rfl
  obtain rfl : t = ⟨[.int 5, .int 4, .int 3, .int 2, .int 1], [.greater (.int 1)],
      [.congruent 2 1]⟩ := by
    cases ht with
    | filter ht =>
      cases ht with
      | takeWhile ht =>
        cases ht
        rfl
  let answer (p : Condition) (v : Element) : Bool := (Predicate.test p v).1 == .accept
  have hstateless {p : Condition} (h : ∀ v, ∃ b, Predicate.test p v = (.ofBool b, p)) :
      Predicate.Stateless answer [p] := by
    intro q hq v
    obtain rfl := List.mem_singleton.1 hq
    obtain ⟨b, hb⟩ := h v
    simp only [answer, hb]
    cases b <;> rfl
  obtain ⟨c₁, es₁, e₁⟩ := hd.drain answer (hstateless fun v => ⟨_, rfl⟩)
    (hstateless fun v => ⟨_, rfl⟩)
  exact ⟨s, c, c₁, es₁, hs.elements, hc, e₁⟩

end RedBlack
