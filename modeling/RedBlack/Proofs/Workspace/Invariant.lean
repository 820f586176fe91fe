import RedBlack.Proofs.Container
import RedBlack.Proofs.Cursor.Calls
import RedBlack.Workspace.Session

/-!
Sound workspaces: sets of different identities, and cursors that can be used with any of them. A
request is carried out without a fault in a sound workspace and leaves a sound one, and the panics
on the way are those that its user asked for.
-/

set_option autoImplicit false

namespace RedBlack
variable {α π : Type}

/-- A cursor that can be used with a set of its own identity, as long as the versions agree. -/
structure Cursor.Suits (c : Cursor π) (s : OrderedSet α) : Prop where
  version_le : c.version ≤ s.version
  exists_follows : c.version = s.version → c.state ≠ .invalidated → ∃ walked, c.Follows s walked

namespace Cursor
variable [Predicate π α] {c c' c'' : Cursor π} {s s' : OrderedSet α}

omit [Predicate π α] in
theorem Suits.change {n : Nat} (h : c.Suits s) (hb : s.Becomes s' n) : c.Suits s' := by
  have hle := h.version_le
  have hv := hb.version_eq
  refine ⟨by omega, fun he hi => ?_⟩
  obtain rfl : n = 0 := by omega
  obtain rfl := hb.unchanged rfl
  exact h.exists_follows he hi

omit [Predicate π α] in
theorem Suits.filter (h : c.Suits s) (p : π) : (c.filter p).Suits s :=
  ⟨h.version_le, fun hv hi => (h.exists_follows hv hi).imp fun _ hf => hf.filter p⟩

omit [Predicate π α] in
theorem Suits.takeWhile (h : c.Suits s) (p : π) : (c.takeWhile p).Suits s :=
  ⟨h.version_le, fun hv hi => (h.exists_follows hv hi).imp fun _ hf => hf.takeWhile p⟩

/-- What calls with a set leave of a cursor. A cursor of another set is left as it was, and the
predicates are the same ones as before. -/
structure Remains (c c' : Cursor π) (s : OrderedSet α) : Prop where
  setId_eq : c'.setId = c.setId
  foreign : c.setId ≠ s.id → c' = c
  suits : c.setId = s.id → c'.Suits s
  raises (f : Failure) : c'.Raises f → c.Raises f

theorem remains_self (h : c.setId = s.id → c.Suits s) : c.Remains c s :=
  ⟨rfl, fun _ => rfl, h, fun _ => id⟩

theorem Remains.trans (h : c.Remains c' s) (h' : c'.Remains c'' s) : c.Remains c'' s where
  setId_eq := h'.setId_eq.trans h.setId_eq
  foreign hn := by rw [h'.foreign (h.setId_eq ▸ hn), h.foreign hn]
  suits he := h'.suits (h.setId_eq.trans he)
  raises f hf := h.raises f (h'.raises f hf)

end Cursor

namespace Workspace
variable {w w' : Workspace α π} {name : String} {c : Container α} {s s' : OrderedSet α}

def Holds (w : Workspace α π) (name : String) (s : OrderedSet α) : Prop :=
  ∃ h, w.sets.get? name = some (.ordered h) ∧ h.inner = s

structure Sound (w : Workspace α π) : Prop where
  isSound {name : String} {s : OrderedSet α} : w.Holds name s → s.IsSound
  lt_nextId {name : String} {s : OrderedSet α} : w.Holds name s → s.id < w.nextId
  distinct {n m : String} {s s' : OrderedSet α} :
    w.Holds n s → w.Holds m s' → s.id = s'.id → n = m
  cursor_lt {name : String} {c : Cursor π} : w.cursors.get? name = some c → c.setId < w.nextId
  suits {x name : String} {c : Cursor π} {s : OrderedSet α} :
    w.cursors.get? x = some c → w.Holds name s → c.setId = s.id → c.Suits s

theorem Holds.eq (h : w.Holds name s) (h' : w.Holds name s') : s = s' := by
  obtain ⟨x, hx, rfl⟩ := h
  obtain ⟨y, hy, rfl⟩ := h'
  rw [hx] at hy
  cases hy
  rfl

theorem Holds.of_put {n : String} (h : w'.Holds n s) (hw : w'.sets = w.sets.put name c) :
    (n = name ∧ ∃ h, c = .ordered h ∧ h.inner = s) ∨ (n ≠ name ∧ w.Holds n s) := by
  obtain ⟨x, hx, hs⟩ := h
  rw [hw] at hx
  by_cases hn : n = name
  · rw [hn, Store.get?_put_self] at hx
    exact .inl ⟨hn, x, Option.some.inj hx, hs⟩
  · rw [Store.get?_put_other _ _ hn] at hx
    exact .inr ⟨hn, x, hx, hs⟩

theorem Holds.of_erase {n : String} (h : w'.Holds n s) (hw : w'.sets = w.sets.erase name) :
    n ≠ name ∧ w.Holds n s := by
  obtain ⟨x, hx, hs⟩ := h
  rw [hw] at hx
  by_cases hn : n = name
  · rw [hn, Store.get?_erase_self] at hx
    cases hx
  · rw [Store.get?_erase_other _ hn] at hx
    exact ⟨hn, x, hx, hs⟩

theorem sound_empty : (empty : Workspace α π).Sound where
  isSound := by rintro _ _ ⟨_, h, -⟩; cases h
  lt_nextId := by rintro _ _ ⟨_, h, -⟩; cases h
  distinct := by rintro _ _ _ _ ⟨_, h, -⟩; cases h
  cursor_lt := nofun
  suits := nofun

theorem Sound.isSound_get? (hw : w.Sound) (h : w.sets.get? name = some c) : c.IsSound := by
  cases c with
  | ordered x => exact hw.isSound ⟨x, h, rfl⟩
  | sorted | unordered => trivial

/-- A workspace with a container in a slot that it is fit for: no other slot holds a set of its
identity, and every cursor can be used with it. -/
theorem Sound.put {m : Nat} (hw : w.Sound) (hm : w.nextId ≤ m)
    (hc : ∀ h, c = .ordered h → h.IsSound ∧ h.inner.id < m ∧
      (∀ n s, n ≠ name → w.Holds n s → s.id ≠ h.inner.id) ∧
      ∀ x cur, w.cursors.get? x = some cur → cur.setId = h.inner.id → cur.Suits h.inner) :
    Sound { w with sets := w.sets.put name c, nextId := m } where
  isSound h := by
    rcases h.of_put rfl with ⟨-, x, hx, rfl⟩ | ⟨-, h⟩
    · exact (hc x hx).1
    · exact hw.isSound h
  lt_nextId h := by
    rcases h.of_put rfl with ⟨-, x, hx, rfl⟩ | ⟨-, h⟩
    · exact (hc x hx).2.1
    · exact Nat.lt_of_lt_of_le (hw.lt_nextId h) hm
  distinct h h' hid := by
    rcases h.of_put rfl with ⟨hn, x, hx, rfl⟩ | ⟨hn, hs⟩
    · rcases h'.of_put rfl with ⟨hn', -⟩ | ⟨hn', hs'⟩
      · rw [hn, hn']
      · exact absurd hid.symm ((hc x hx).2.2.1 _ _ hn' hs')
    · rcases h'.of_put rfl with ⟨-, y, hy, rfl⟩ | ⟨-, hs'⟩
      · exact absurd hid ((hc y hy).2.2.1 _ _ hn hs)
      · exact hw.distinct hs hs' hid
  cursor_lt h := Nat.lt_of_lt_of_le (hw.cursor_lt h) hm
  suits hcur h hid := by
    rcases h.of_put rfl with ⟨-, x, hx, rfl⟩ | ⟨-, h⟩
    · exact (hc x hx).2.2.2 _ _ hcur hid
    · exact hw.suits hcur h hid

theorem Sound.erase (hw : w.Sound) (name : String) :
    Sound { w with sets := w.sets.erase name } where
  isSound h := hw.isSound (h.of_erase rfl).2
  lt_nextId h := hw.lt_nextId (h.of_erase rfl).2
  distinct h h' := hw.distinct (h.of_erase rfl).2 (h'.of_erase rfl).2
  cursor_lt := hw.cursor_lt
  suits hcur h := hw.suits hcur (h.of_erase rfl).2

theorem Sound.put_new (hw : w.Sound)
    (hc : ∀ h, c = .ordered h → h.IsSound ∧ h.inner.id = w.nextId) :
    Sound { w with sets := w.sets.put name c, nextId := w.nextId + 1 } := by
  refine hw.put (Nat.le_succ _) fun h hx => ?_
  obtain ⟨hs, hid⟩ := hc h hx
  refine ⟨hs, by omega, fun n s _ hn => ?_, fun x cur hcur he => ?_⟩
  · rw [hid]
    exact Nat.ne_of_lt (hw.lt_nextId hn)
  · rw [hid] at he
    exact absurd he (Nat.ne_of_lt (hw.cursor_lt hcur))

theorem Sound.store (hw : w.Sound) (hc : ∀ h', c = .ordered h' →
      ∃ s n, w.Holds name s ∧ s.Becomes h'.inner n) :
    (w.store name c).Sound := by
  refine hw.put (Nat.le_refl _) fun h hx => ?_
  obtain ⟨s, n, hs, hb⟩ := hc h hx
  refine ⟨hb.isSound, ?_, fun m t hm ht => ?_, fun x cur hcur he => ?_⟩
  · rw [hb.id_eq]
    exact hw.lt_nextId hs
  · rw [hb.id_eq]
    exact fun he => hm (hw.distinct ht hs he)
  · rw [hb.id_eq] at he
    exact (hw.suits hcur hs he).change hb

theorem Sound.relocate (hw : w.Sound) (name target : String)
    (hc : ∀ h, c = .ordered h → w.Holds name h.inner) : (w.relocate name target c).Sound := by
  refine (hw.erase name).put (Nat.le_refl _) fun h hx => ?_
  have hs := hc h hx
  refine ⟨hw.isSound hs, hw.lt_nextId hs, fun m t _ ht he => ?_, fun x cur hcur he => ?_⟩
  · obtain ⟨hm, ht⟩ := ht.of_erase rfl
    exact hm (hw.distinct ht hs he)
  · exact hw.suits hcur hs he

theorem Sound.keep {cur : Cursor π} (hw : w.Sound) (hid : cur.setId < w.nextId)
    (hc : ∀ n s, w.Holds n s → cur.setId = s.id → cur.Suits s) : (w.keep name cur).Sound where
  isSound := hw.isSound
  lt_nextId := hw.lt_nextId
  distinct := hw.distinct
  cursor_lt {x} c h := by
    by_cases hx : x = name
    · rw [hx] at h
      rw [← Option.some.inj ((Store.get?_put_self ..).symm.trans h)]
      exact hid
    · exact hw.cursor_lt ((Store.get?_put_other _ _ hx).symm.trans h)
  suits {x n c s} h hn := by
    by_cases hx : x = name
    · rw [hx] at h
      rw [← Option.some.inj ((Store.get?_put_self ..).symm.trans h)]
      exact hc n s hn
    · exact hw.suits ((Store.get?_put_other _ _ hx).symm.trans h) hn

theorem Sound.keep_remains [Predicate π α] {n x : String} {cur cur' : Cursor π} (hw : w.Sound)
    (hcur : w.cursors.get? x = some cur) (hn : w.Holds n s) (hr : cur.Remains cur' s) :
    (w.keep x cur').Sound := by
  refine hw.keep ?_ fun m t hm he => ?_
  · rw [hr.setId_eq]
    exact hw.cursor_lt hcur
  · by_cases hid : cur.setId = s.id
    · have hts : t.id = s.id := by rw [← he, hr.setId_eq, hid]
      obtain rfl := hw.distinct hm hn hts
      obtain rfl := hm.eq hn
      exact hr.suits hid
    · obtain rfl := hr.foreign hid
      exact hw.suits hcur hm he

end Workspace

def Response.failures : Response α → List Failure
  | .yields ys => ys.filterMap fun y => match y with
    | .ok _ => none
    | .error f => some f
  | .replacement attempt force _ => [attempt, force]
  | _ => []

def Outcome.failures : Outcome α → List Failure
  | .responded r => r.failures
  | .refused _ => []
  | .failed f => [f]

/-- The predicate that a request shows elements to. -/
def SetTask.Asks : SetTask α π → π → Prop
  | .update (some (.retain p)), q | .visit (some p), q => q = p
  | _, _ => False

def CursorTask.Asks : CursorTask α π → Prop
  | .next _ | .drain | .replace _ => True
  | _ => False

/-- A computation that is done and leads to a sound workspace; all panics satisfy `P`. -/
def Traced.Proper (P : Failure → Prop) (x : Traced Event (Workspace.Step α π)) : Prop :=
  ∃ outcome w es, x = .done (outcome, w) es ∧ w.Sound ∧
    ∀ f ∈ outcome.failures, f.isPanic = true → P f

namespace Workspace
variable {w : Workspace α π} {P : Failure → Prop}

theorem Sound.proper {outcome : Outcome α} {es : List Event} (hw : w.Sound)
    (ho : ∀ f ∈ outcome.failures, f.isPanic = true → P f) :
    (Traced.done (outcome, w) es).Proper P :=
  ⟨outcome, w, es, rfl, hw, ho⟩

theorem Sound.proper_replied {r : Reply α} {es : List Event} (hw : w.Sound) :
    (Traced.done (Outcome.replied r, w) es).Proper P :=
  hw.proper nofun

theorem Sound.proper_ofExcept {r : Except Failure (Reply α)} {es : List Event} (hw : w.Sound)
    (hr : ∀ f, r = .error f → f.isPanic = true → P f) :
    (Traced.done (Outcome.ofExcept r, w) es).Proper P := by
  refine hw.proper ?_
  cases r with
  | ok r => exact nofun
  | error f =>
    intro g hg
    obtain rfl := List.mem_singleton.1 hg
    exact hr g rfl

theorem Sound.proper_yields {ys : List (Except Failure (Option α))} {es : List Event}
    (hw : w.Sound) (h : ∀ f, .error f ∈ ys → f.isPanic = true → P f) :
    (Traced.done (Outcome.responded (.yields ys), w) es).Proper P := by
  refine hw.proper fun f hf => ?_
  obtain ⟨y, hy, he⟩ := List.mem_filterMap.1 hf
  cases y with
  | ok v => cases he
  | error g =>
    cases he
    exact h f hy

theorem proper_bind {β : Type} {x : Traced Event β} {go : β → Traced Event (Step α π)} {b : β}
    {es : List Event} (hx : x = .done b es) (hgo : (go b).Proper P) : (x >>= go).Proper P := by
  obtain ⟨outcome, w, es', e, h⟩ := hgo
  exact ⟨outcome, w, _, Traced.bind_done hx e, h⟩

theorem proper_lift {β : Type} {x : Except Fault β} {go : β → Traced Event (Step α π)} {b : β}
    (hx : x = .ok b) (hgo : (go b).Proper P) : ((liftM x : Traced Event β) >>= go).Proper P :=
  proper_bind (Traced.liftM_eq_done hx) hgo

theorem Sound.proper_refuse (hw : w.Sound) (r : Refusal) : (w.refuse r).Proper P :=
  hw.proper nofun

theorem Sound.proper_withSet {name : Option String}
    {go : String → Container α → Traced Event (Step α π)} (hw : w.Sound)
    (h : ∀ n c, name = some n → w.sets.get? n = some c → (go n c).Proper P) :
    (w.withSet name go).Proper P := by
  cases name with
  | none => exact hw.proper_refuse _
  | some n =>
    cases hc : w.sets.get? n with
    | none =>
      simp only [withSet, hc]
      exact hw.proper_refuse _
    | some c =>
      simp only [withSet, hc]
      exact h n c rfl hc

theorem Sound.proper_withPart {β : Type} {part : Option β} {go : β → Traced Event (Step α π)}
    (hw : w.Sound) (h : ∀ b, part = some b → (go b).Proper P) : (w.withPart part go).Proper P := by
  cases part with
  | none => exact hw.proper_refuse _
  | some b => exact h b rfl

theorem Sound.proper_withHolder {c : Container α} {go : Holder α → Traced Event (Step α π)}
    (hw : w.Sound) (h : ∀ x, c = .ordered x → (go x).Proper P) : (w.withHolder c go).Proper P := by
  cases c with
  | ordered x => exact h x rfl
  | sorted | unordered => exact hw.proper_refuse _

theorem Sound.proper_withCursor {name : String} {go : Cursor π → Traced Event (Step α π)}
    (hw : w.Sound)
    (h : ∀ c, w.cursors.get? name = some c → (go c).Proper P) :
    (w.withCursor name go).Proper P := by
  cases hc : w.cursors.get? name with
  | none =>
    simp only [withCursor, hc]
    exact hw.proper_refuse _
  | some c =>
    simp only [withCursor, hc]
    exact h c hc

end Workspace
end RedBlack
