import RedBlack.Proofs.Cursor.Search

set_option autoImplicit false

namespace RedBlack
variable {α π : Type}

def Direction.arrange (d : Direction) (vs : List α) : List α :=
  match d with
  | .ascending => vs
  | .descending => vs.reverse

@[simp] theorem Direction.length_arrange (d : Direction) (vs : List α) :
    (d.arrange vs).length = vs.length := by
  cases d <;> simp [arrange]

theorem Tree.listFrom_firstSide (t : Tree α) (d : Direction) :
    t.listFrom d.firstSide = d.arrange t.toList := by
  cases d <;> rfl

theorem OrderedSet.IsSound.exists_elements {s : OrderedSet α} (h : s.IsSound) :
    ∃ vs, s.elements = .ok vs ∧ vs.length = s.size := by
  obtain ⟨t, ht⟩ := h
  exact ⟨t.toList, ht.elements, ht.size_eq.symm⟩

theorem OrderedSet.IsSound.exists_start {s : OrderedSet α} (h : s.IsSound) (d : Direction) :
    ∃ w xs, Walk.start s.tree d = .ok w ∧ w.direction = d ∧ w.Visits s.tree xs ∧
      ∀ vs, s.elements = .ok vs → xs.map Prod.snd = d.arrange vs := by
  obtain ⟨t, ht⟩ := h
  have he := ht.elements
  obtain ⟨u, hu, rfl⟩ := ht.shows
  obtain ⟨w, hw, hd, hv⟩ := hu.start d
  refine ⟨w, _, hw, hd, hv, fun vs hvs => ?_⟩
  rw [← Except.ok.inj (he.symm.trans hvs), ← Tree.listFrom_map, Tree.listFrom_firstSide]

/-- What has been walked over of a set, and what is still ahead, make up a prefix of its elements.
It is all of them as long as no predicate can end the walk early. -/
structure Cursor.Ahead (c : Cursor π) (s : OrderedSet α) (walked : List α)
    (xs : List (Nat × α)) : Prop where
  visits : c.walk.Visits s.tree xs
  isPrefix (vs : List α) : s.elements = .ok vs →
    walked ++ xs.map Prod.snd <+: c.walk.direction.arrange vs
  complete (vs : List α) : s.elements = .ok vs → c.takeWhiles = [] →
    walked ++ xs.map Prod.snd = c.walk.direction.arrange vs
  exhausted : c.state = .exhausted → xs = []

def Cursor.Follows (c : Cursor π) (s : OrderedSet α) (walked : List α) : Prop :=
  ∃ xs, c.Ahead s walked xs

theorem Cursor.ahead_start {c : Cursor π} {s : OrderedSet α} {xs : List (Nat × α)}
    (hv : c.walk.Visits s.tree xs) (ha : c.state = .active)
    (hx : ∀ vs, s.elements = .ok vs → xs.map Prod.snd = c.walk.direction.arrange vs) :
    c.Follows s [] := by
  refine ⟨xs, hv, fun vs hvs => ?_, fun vs hvs _ => hx vs hvs, fun he => ?_⟩
  · exact hx vs hvs ▸ List.prefix_rfl
  · rw [ha] at he
    cases he

theorem OrderedSet.IsSound.exists_cursor {s : OrderedSet α} (h : s.IsSound) (d : Direction) :
    ∃ c : Cursor π, s.cursor d = .ok c ∧ c.setId = s.id ∧ c.version = s.version ∧
      c.state = .active ∧ c.walk.direction = d ∧ c.Follows s [] := by
  obtain ⟨w, xs, hw, rfl, hv, hx⟩ := h.exists_start d
  refine ⟨⟨s.id, s.version, w, .active, [], []⟩, ?_, rfl, rfl, rfl, rfl, ?_⟩
  · simp only [OrderedSet.cursor, hw, ok_bind]
    rfl
  · exact Cursor.ahead_start hv rfl hx

namespace Cursor
variable {c c' : Cursor π} {s : OrderedSet α} {walked vs : List α} {xs : List (Nat × α)}

theorem Follows.isPrefix (h : c.Follows s walked) (he : s.elements = .ok vs) :
    walked <+: c.walk.direction.arrange vs := by
  obtain ⟨xs, hx⟩ := h
  exact (List.prefix_append ..).trans (hx.isPrefix vs he)

theorem Follows.filter (h : c.Follows s walked) (p : π) : (c.filter p).Follows s walked := by
  obtain ⟨xs, hx⟩ := h
  exact ⟨xs, hx.visits, hx.isPrefix, hx.complete, hx.exhausted⟩

theorem Follows.takeWhile (h : c.Follows s walked) (p : π) :
    (c.takeWhile p).Follows s walked := by
  obtain ⟨xs, hx⟩ := h
  refine ⟨xs, hx.visits, hx.isPrefix, fun vs hvs hn => ?_, hx.exhausted⟩
  simp [Cursor.takeWhile] at hn

theorem Ahead.length_lt (h : c.Ahead s walked xs) (hs : s.IsSound) : xs.length < s.size + 1 := by
  obtain ⟨vs, hvs, hl⟩ := hs.exists_elements
  have hle := (h.isPrefix vs hvs).length_le
  simp only [List.length_append, List.length_map, Direction.length_arrange] at hle
  omega

theorem validate_foreign (h : c.setId ≠ s.id) :
    c.validate s = .done (.error .foreignCursor, c) [] := by
  rw [validate, if_pos h]
  rfl

theorem validate_stale (h : c.setId = s.id) (hs : c.state = .invalidated ∨ c.version ≠ s.version) :
    ∃ es, c.validate s = .done (.error (.modified c.version s.version),
      if c.state = .invalidated then c else c.stop .invalidated) es := by
  rw [validate, if_neg (not_not_intro h)]
  by_cases hi : c.state = .invalidated
  · rw [if_pos hi, if_pos hi]
    exact ⟨[], rfl⟩
  · rw [if_neg hi, if_neg hi, if_pos (hs.resolve_left hi)]
    exact ⟨_, rfl⟩

theorem validate_fresh (h : c.setId = s.id) (hv : c.version = s.version)
    (hs : c.state ≠ .invalidated) : c.validate s = .done (.ok (), c) [] := by
  rw [validate, if_neg (not_not_intro h), if_neg hs, if_neg (not_not_intro hv)]
  rfl

inductive Call where
  | start | next
  deriving DecidableEq

variable [Predicate π α]

/-- A start yields nothing. -/
def call (c : Cursor π) (s : OrderedSet α) :
    Call → Traced Event (Except Failure (Option α) × Cursor π)
  | .start => do
    let (r, c) ← c.restart s
    return (r.map fun _ => none, c)
  | .next => c.next s

theorem call_of_error {c' : Cursor π} {f : Failure} {es : List Event}
    (h : c.validate s = .done (.error f, c') es) (k : Call) :
    c.call s k = .done (.error f, c') es := by
  cases k <;> simp [call, restart, next, h, Traced.done_bind, Traced.pure_eq, Except.map]

theorem call_foreign (h : c.setId ≠ s.id) (k : Call) :
    c.call s k = .done (.error .foreignCursor, c) [] :=
  call_of_error (validate_foreign h) k

theorem exists_call_stale (h : c.setId = s.id)
    (hs : c.state = .invalidated ∨ c.version ≠ s.version) (k : Call) :
    ∃ c' es, c.call s k = .done (.error (.modified c.version s.version), c') es ∧
      c'.setId = c.setId ∧ c'.version = c.version ∧ c'.walk.direction = c.walk.direction ∧
      c'.state = .invalidated ∧ ∀ f, c'.Raises f → c.Raises f := by
  obtain ⟨es, e⟩ := validate_stale h hs
  refine ⟨_, es, call_of_error e k, ?_⟩
  split
  · exact ⟨rfl, rfl, rfl, by assumption, fun _ => id⟩
  · exact ⟨rfl, rfl, rfl, rfl, fun _ => id⟩

theorem exists_start_fresh (hs : s.IsSound) (h : c.setId = s.id) (hv : c.version = s.version)
    (hi : c.state ≠ .invalidated) :
    ∃ c' es, c.call s .start = .done (.ok none, c') es ∧ c'.setId = c.setId ∧
      c'.version = c.version ∧ c'.state = .active ∧ c'.walk.direction = c.walk.direction ∧
      c'.Follows s [] ∧ ∀ f, c'.Raises f → c.Raises f := by
  obtain ⟨w, xs, hw, hd, hv', hx⟩ := hs.exists_start c.walk.direction
  refine ⟨{ c with walk := w, state := .active }, [], ?_, rfl, rfl, rfl, hd, ?_, fun _ => id⟩
  · simp [call, restart, validate_fresh h hv hi, hw, Traced.pure_eq, Except.map]
  · rw [← hd] at hx
    exact ahead_start hv' rfl hx

/-- What a call for the next element comes to: a cursor `c` that has walked over the elements
`walked` of its set becomes `c'` and has walked over `walked'`. -/
structure Moves (c : Cursor π) (s : OrderedSet α) (walked walked' : List α)
    (r : Except Failure (Option α)) (c' : Cursor π) : Prop where
  isPrefix : walked <+: walked'
  yielded (v : α) : r = .ok (some v) → walked.length < walked'.length ∧ walked'.getLast? = some v
  /-- A cursor that has found no more elements finds none until it is started again. -/
  ended : r = .ok none → c'.state = .exhausted
  exhausted : c.state = .exhausted → r = .ok none ∧ walked' = walked
  /-- The walk ends early only if a predicate ends it. -/
  complete : r = .ok none → c.takeWhiles = [] → ∀ vs, s.elements = .ok vs →
    walked' = c.walk.direction.arrange vs
  plain : c.takeWhiles = [] → c.filters = [] → ∀ vs, s.elements = .ok vs →
    r = .ok (c.walk.direction.arrange vs)[walked.length]?
  panicked (e : Failure) : r = .error e → c.Raises e

theorem Ahead.moves_exhausted (h : c.Ahead s walked []) (he : c.state = .exhausted) :
    c.Moves s walked walked (.ok none) c where
  isPrefix := List.prefix_rfl
  yielded := nofun
  ended _ := he
  exhausted _ := ⟨rfl, rfl⟩
  complete _ ht vs hvs := by simpa using h.complete vs hvs ht
  plain ht _ vs hvs := by
    have hw : walked = c.walk.direction.arrange vs := by simpa using h.complete vs hvs ht
    rw [← hw, List.getElem?_eq_none (Nat.le_refl _)]
  panicked := nofun

theorem Ahead.moves {r : Except Failure (Option α)} (h : c.Ahead s walked xs)
    (hp : Passes s.tree c xs vs r c') (hn : c.state ≠ .exhausted) :
    c.Moves s walked (walked ++ vs) r c' where
  isPrefix := List.prefix_append ..
  yielded v hr := by
    have hlast := hp.yielded v hr
    have hne : vs ≠ [] := by
      rintro rfl
      cases hlast
    have hpos := List.length_pos_iff.2 hne
    refine ⟨?_, by rw [List.getLast?_append, hlast]; rfl⟩
    rw [List.length_append]
    omega
  ended := hp.exhausted
  exhausted he := absurd he hn
  complete hr ht us hus := by
    obtain ⟨ys, -, -, hall, hend⟩ := hp.ahead
    obtain rfl := hend hr
    rw [← h.complete us hus ht, ← hall ht, List.map_nil, List.append_nil]
  plain ht hf us hus := by
    rw [hp.plain ht hf, ← h.complete us hus ht, List.getElem?_append_right (Nat.le_refl _),
      Nat.sub_self, List.head?_eq_getElem?]
  panicked := hp.panicked

theorem Ahead.follows {r : Except Failure (Option α)} (h : c.Ahead s walked xs)
    (hp : Passes s.tree c xs vs r c') (hn : c.state ≠ .exhausted) :
    c'.Follows s (walked ++ vs) := by
  obtain ⟨ys, hy, hpre, hall, hend⟩ := hp.ahead
  refine ⟨ys, hy, fun us hus => ?_, fun us hus ht => ?_, fun he => ?_⟩
  · rw [hp.direction_eq, List.append_assoc]
    exact ((List.prefix_append_right_inj walked).2 hpre).trans (h.isPrefix us hus)
  · have ht' : c.takeWhiles = [] := by
      rw [← List.length_eq_zero_iff, ← hp.takeWhiles_length, ht, List.length_nil]
    rw [hp.direction_eq, List.append_assoc, hall ht', h.complete us hus ht']
  · by_contra hne
    refine hn ?_
    rw [← hp.state_eq fun hr => hne (hend hr), he]

theorem exists_next_fresh (hs : s.IsSound) (h : c.setId = s.id) (hv : c.version = s.version)
    (hi : c.state ≠ .invalidated) (hf : c.Follows s walked) :
    ∃ r c' es vs, c.call s .next = .done (r, c') es ∧ c.met s.tree (s.size + 1) = .ok vs ∧
      c'.setId = c.setId ∧ c'.version = c.version ∧ c'.state ≠ .invalidated ∧
      c'.walk.direction = c.walk.direction ∧ c'.Follows s (walked ++ vs) ∧
      c.Moves s walked (walked ++ vs) r c' ∧ ∀ f, c'.Raises f → c.Raises f := by
  obtain ⟨xs, hx⟩ := hf
  obtain ⟨r, c', vs, hl, hm, hp⟩ := exists_search hx.visits (hx.length_lt hs)
  by_cases he : c.state = .exhausted
  · obtain rfl := hx.exhausted he
    obtain ⟨ys, -, hpre, -, -⟩ := hp.ahead
    obtain rfl : vs = [] := (List.append_eq_nil_iff.1 (List.prefix_nil.1 hpre)).1
    refine ⟨.ok none, c, [], [], ?_, hm, rfl, rfl, hi, rfl, ?_, ?_, fun _ => id⟩
    · simp [call, next, validate_fresh h hv hi, he, Traced.pure_eq]
    · rw [List.append_nil]
      exact ⟨[], hx⟩
    · rw [List.append_nil]
      exact hx.moves_exhausted he
  · have hseek : c.seek s.tree = .ok (r, c') := hl
    refine ⟨r, c', [], vs, ?_, hm, hp.setId_eq, hp.version_eq, ?_, hp.direction_eq,
      hx.follows hp he, hx.moves hp he, hp.raises⟩
    · simp [call, next, validate_fresh h hv hi, he, hseek, Traced.pure_eq]
    · by_cases hr : r = .ok none
      · rw [hp.exhausted hr]
        nofun
      · rwa [hp.state_eq hr]

end Cursor
end RedBlack
