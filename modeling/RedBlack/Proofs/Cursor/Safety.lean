import RedBlack.Element.Condition
import RedBlack.Proofs.Cursor.World

set_option autoImplicit false

namespace RedBlack

namespace World
variable {α π : Type} {w w' w'' : World α π} {k : Nat} {e : Entry α} {p : Probe α π}

structure Sound (w : World α π) : Prop where
  isSound : ∀ e ∈ w.entries, e.holder.IsSound
  nodup : (w.entries.map fun e => e.inner.id).Nodup
  lt_nextId : ∀ e ∈ w.entries, e.inner.id < w.nextId
  fits : ∀ p ∈ w.probes, ∃ e, w.entries[p.origin]? = some e ∧ p.Fits e

/-- Sets and cursors keep their places, and the changes of a set are never taken back. -/
structure Extends (w w' : World α π) : Prop where
  entries (k : Nat) (e : Entry α) : w.entries[k]? = some e →
    ∃ e', w'.entries[k]? = some e' ∧ e.changes ≤ e'.changes
  probes (i : Nat) (p : Probe α π) : w.probes[i]? = some p →
    ∃ p', w'.probes[i]? = some p' ∧ p.Continues p'

theorem extends_self (w : World α π) : w.Extends w :=
  ⟨fun _ e h => ⟨e, h, Nat.le_refl _⟩, fun _ p h => ⟨p, h, p.continues_self⟩⟩

theorem Extends.trans (h : w.Extends w') (h' : w'.Extends w'') : w.Extends w'' where
  entries k e hk := by
    obtain ⟨e', he', hle⟩ := h.entries k e hk
    obtain ⟨e'', he'', hle'⟩ := h'.entries k e' he'
    exact ⟨e'', he'', Nat.le_trans hle hle'⟩
  probes i p hi := by
    obtain ⟨p', hp', hc⟩ := h.probes i p hi
    obtain ⟨p'', hp'', hc'⟩ := h'.probes i p' hp'
    exact ⟨p'', hp'', hc.trans hc'⟩

theorem sound_empty : (empty : World α π).Sound := ⟨nofun, .nil, nofun, nofun⟩

theorem Sound.id_ne {j : Nat} {e' : Entry α} (hw : w.Sound) (hj : w.entries[j]? = some e)
    (hk : w.entries[k]? = some e') (hne : j ≠ k) : e.inner.id ≠ e'.inner.id := by
  intro hid
  obtain ⟨hlt, -⟩ := List.getElem?_eq_some_iff.1 hj
  refine hne ((List.getElem?_inj (by simpa using hlt) hw.nodup).1 ?_)
  rw [List.getElem?_map, List.getElem?_map, hj, hk, Option.map_some, Option.map_some, hid]

theorem Sound.add {h : Holder α} (hw : w.Sound) (hs : h.IsSound) (hid : h.inner.id = w.nextId) :
    (w.add h).Sound ∧ w.Extends (w.add h) := by
  have hold (j : Nat) (e : Entry α) (he : w.entries[j]? = some e) :
      (w.add h).entries[j]? = some e := by
    obtain ⟨hlt, -⟩ := List.getElem?_eq_some_iff.1 he
    rw [World.add, List.getElem?_append_left hlt, he]
  refine ⟨⟨?_, ?_, ?_, ?_⟩, ?_, fun i p hi => ⟨p, hi, p.continues_self⟩⟩
  · intro e he
    rcases List.mem_append.1 he with he | he
    · exact hw.isSound e he
    · rw [List.mem_singleton.1 he]
      exact hs
  · simp only [World.add, List.map_append, List.nodup_append]
    refine ⟨hw.nodup, List.nodup_singleton _, fun x hx y hy => ?_⟩
    obtain ⟨e, he, rfl⟩ := List.mem_map.1 hx
    obtain rfl : y = w.nextId := by simpa [Entry.inner, hid] using hy
    exact Nat.ne_of_lt (hw.lt_nextId e he)
  · intro e he
    rcases List.mem_append.1 he with he | he
    · exact Nat.lt_succ_of_lt (hw.lt_nextId e he)
    · rw [List.mem_singleton.1 he]
      exact Nat.lt_succ_of_le (Nat.le_of_eq hid)
  · intro p hp
    obtain ⟨e, he, hf⟩ := hw.fits p hp
    exact ⟨e, hold _ e he, hf⟩
  · exact fun k e he => ⟨e, hold k e he, Nat.le_refl _⟩

theorem Sound.set_entry {h : Holder α} {n : Nat} (hw : w.Sound) (hk : w.entries[k]? = some e)
    (hb : e.inner.Becomes h.inner n) :
    let w' := { w with entries := w.entries.set k ⟨h, e.changes + n⟩ }
    w'.Sound ∧ w.Extends w' := by
  obtain ⟨hlt, rfl⟩ := List.getElem?_eq_some_iff.1 hk
  have hmem := List.getElem_mem hlt
  have hset (j : Nat) (e' : Entry α) (he : w.entries[j]? = some e') (hj : j ≠ k) :
      (w.entries.set k ⟨h, w.entries[k].changes + n⟩)[j]? = some e' := by
    rw [List.getElem?_set_ne (Ne.symm hj), he]
  have hself := List.getElem?_set_self (a := Entry.mk h (w.entries[k].changes + n)) hlt
  refine ⟨⟨?_, ?_, ?_, ?_⟩, ?_, fun i p hi => ⟨p, hi, p.continues_self⟩⟩
  · intro x hx
    rcases List.mem_or_eq_of_mem_set hx with hx | rfl
    · exact hw.isSound x hx
    · exact hb.isSound
  · have hid : h.inner.id = w.entries[k].inner.id := hb.id_eq
    have hmap : (w.entries.set k ⟨h, w.entries[k].changes + n⟩).map (fun e => e.inner.id) =
        w.entries.map fun e => e.inner.id := by
      have hlt' : k < (w.entries.map fun e => e.inner.id).length := by simpa using hlt
      have hset := List.set_getElem_self hlt'
      rw [List.getElem_map, ← hid] at hset
      rwa [List.map_set]
    exact hmap ▸ hw.nodup
  · intro x hx
    rcases List.mem_or_eq_of_mem_set hx with hx | rfl
    · exact hw.lt_nextId x hx
    · exact Nat.lt_of_le_of_lt (Nat.le_of_eq hb.id_eq) (hw.lt_nextId _ hmem)
  · intro p hp
    obtain ⟨e', he, hf⟩ := hw.fits p hp
    by_cases hj : p.origin = k
    · rw [hj] at he
      obtain ⟨_, rfl⟩ := List.getElem?_eq_some_iff.1 he
      exact ⟨_, hj ▸ hself, hf.change hb⟩
    · exact ⟨e', hset _ e' he hj, hf⟩
  · intro j e' he
    by_cases hj : j = k
    · subst hj
      obtain ⟨_, rfl⟩ := List.getElem?_eq_some_iff.1 he
      exact ⟨_, hself, Nat.le_add_right ..⟩
    · exact ⟨e', hset j e' he hj, Nat.le_refl _⟩

theorem Sound.exists_change (hw : w.Sound) {f : Holder α → Traced Event (Holder α × Nat)}
    (hf : ∀ h, h.IsSound → ∃ h' n es, f h = .done (h', n) es ∧ h.inner.Becomes h'.inner n) :
    ∃ w' es, w.change k f = .done w' es ∧ w'.Sound ∧ w.Extends w' := by
  unfold World.change
  cases hk : w.entries[k]? with
  | none => exact ⟨w, [], rfl, hw, w.extends_self⟩
  | some e =>
    obtain ⟨h', n, es, hd, hb⟩ := hf e.holder (hw.isSound e (List.mem_of_getElem? hk))
    exact ⟨_, _, Traced.bind_done hd rfl, hw.set_entry hk hb⟩

theorem Sound.exists_grow (hw : w.Sound) {f : Holder α → Traced Event (Holder α)}
    (hf : ∀ h, h.IsSound → ∃ h' es, f h = .done h' es ∧ h'.IsSound ∧ h'.inner.id = w.nextId) :
    ∃ w' es, w.grow k f = .done w' es ∧ w'.Sound ∧ w.Extends w' := by
  unfold World.grow
  cases hk : w.entries[k]? with
  | none => exact ⟨w, [], rfl, hw, w.extends_self⟩
  | some e =>
    obtain ⟨h', es, hd, hs, hid⟩ := hf e.holder (hw.isSound e (List.mem_of_getElem? hk))
    exact ⟨_, _, Traced.bind_done hd rfl, hw.add hs hid⟩

theorem Sound.exists_look (hw : w.Sound) {f : Holder α → Traced Event Unit}
    (hf : ∀ h, h.IsSound → ∃ es, f h = .done () es) :
    ∃ w' es, w.look k f = .done w' es ∧ w'.Sound ∧ w.Extends w' := by
  unfold World.look
  cases hk : w.entries[k]? with
  | none => exact ⟨w, [], rfl, hw, w.extends_self⟩
  | some e =>
    obtain ⟨es, hd⟩ := hf e.holder (hw.isSound e (List.mem_of_getElem? hk))
    exact ⟨w, _, Traced.bind_done hd rfl, hw, w.extends_self⟩

theorem Extends.changes_lt {i : Nat} (hx : w.Extends w') (hw : w'.Sound)
    (hi : w.probes[i]? = some p) (he : w.entries[p.origin]? = some e)
    (hc : p.changes < e.changes) :
    ∃ p' e', w'.probes[i]? = some p' ∧ w'.entries[p.origin]? = some e' ∧ p'.Fits e' ∧
      p.Continues p' ∧ p'.changes < e'.changes := by
  obtain ⟨p', hi', hcont⟩ := hx.probes i p hi
  obtain ⟨e', he', hle⟩ := hx.entries p.origin e he
  obtain ⟨e'', he'', hp⟩ := hw.fits p' (List.mem_of_getElem? hi')
  rw [hcont.origin_eq, he'] at he''
  cases he''
  refine ⟨p', e', hi', he', hp, hcont, ?_⟩
  rw [hcont.changes_eq]
  exact Nat.lt_of_lt_of_le hc hle

theorem Sound.set_probe {i : Nat} {p' : Probe α π} (hw : w.Sound) (hi : w.probes[i]? = some p)
    (hc : p.Continues p') (hf : ∀ e, w.entries[p.origin]? = some e → p'.Fits e) :
    let w' := { w with probes := w.probes.set i p' }
    w'.Sound ∧ w.Extends w' := by
  obtain ⟨hlt, rfl⟩ := List.getElem?_eq_some_iff.1 hi
  refine ⟨⟨hw.isSound, hw.nodup, hw.lt_nextId, fun q hq => ?_⟩,
    fun k e he => ⟨e, he, Nat.le_refl _⟩, fun j q hq => ?_⟩
  · rcases List.mem_or_eq_of_mem_set hq with hq | rfl
    · exact hw.fits q hq
    · obtain ⟨e, he, -⟩ := hw.fits _ (List.getElem_mem hlt)
      exact ⟨e, hc.origin_eq ▸ he, hf e he⟩
  · by_cases hj : j = i
    · subst hj
      obtain ⟨_, rfl⟩ := List.getElem?_eq_some_iff.1 hq
      exact ⟨p', List.getElem?_set_self hlt, hc⟩
    · exact ⟨q, by rw [← hq]; exact List.getElem?_set_ne (Ne.symm hj), q.continues_self⟩

theorem Sound.adapt {i : Nat} {f : Cursor π → Cursor π} (hw : w.Sound)
    (hf : ∀ (p : Probe α π) e, p.Fits e → Probe.Fits { p with cursor := f p.cursor } e) :
    (w.adapt i f).Sound ∧ w.Extends (w.adapt i f) := by
  unfold World.adapt
  cases hi : w.probes[i]? with
  | none => exact ⟨hw, w.extends_self⟩
  | some p =>
    refine hw.set_probe hi ⟨rfl, rfl, rfl, rfl⟩ fun e he => hf p e ?_
    obtain ⟨e', he', hp⟩ := hw.fits p (List.mem_of_getElem? hi)
    rw [he] at he'
    cases he'
    exact hp

theorem Sound.add_probe (hw : w.Sound) (hk : w.entries[p.origin]? = some e) (hp : p.Fits e) :
    let w' := { w with probes := w.probes ++ [p] }
    w'.Sound ∧ w.Extends w' := by
  refine ⟨⟨hw.isSound, hw.nodup, hw.lt_nextId, fun q hq => ?_⟩,
    fun k e he => ⟨e, he, Nat.le_refl _⟩, fun j q hq => ⟨q, ?_, q.continues_self⟩⟩
  · rcases List.mem_append.1 hq with hq | hq
    · exact hw.fits q hq
    · rw [List.mem_singleton.1 hq]
      exact ⟨e, hk, hp⟩
  · obtain ⟨hlt, -⟩ := List.getElem?_eq_some_iff.1 hq
    simpa [List.getElem?_append_left hlt] using hq

theorem Sound.isSound_operand {other : Right α} {o : Operand α} (hw : w.Sound)
    (ho : w.operand? other = some o) : o.IsSound := by
  cases other with
  | itself =>
    cases ho
    trivial
  | entry k =>
    obtain ⟨e, he, rfl⟩ := Option.map_eq_some_iff.1 ho
    exact hw.isSound e (List.mem_of_getElem? he)
  | sorted s =>
    cases ho
    trivial
  | unordered s =>
    cases ho
    trivial

section Call
variable [Predicate π α]

theorem Sound.exists_call {i : Nat} (hw : w.Sound) (hi : w.probes[i]? = some p)
    (hk : w.entries[k]? = some e) (c : Cursor.Call) :
    ∃ r p' es, p.call e.inner c = .done (r, p') es ∧ p.Behaves k e c r p' ∧ p.Continues p' ∧
      ∀ e', w.entries[p.origin]? = some e' → p'.Fits e' := by
  obtain ⟨e', he', hp⟩ := hw.fits p (List.mem_of_getElem? hi)
  by_cases ho : k = p.origin
  · subst ho
    rw [hk] at he'
    cases he'
    obtain ⟨r, p', es, hc, hp', hcont, hb⟩ :=
      hp.exists_call (hw.isSound e (List.mem_of_getElem? hk)) c
    refine ⟨r, p', es, hc, hb, hcont, fun e' he' => ?_⟩
    rw [hk] at he'
    cases he'
    exact hp'
  · have hid := hw.id_ne he' hk (Ne.symm ho)
    rw [← hp.setId_eq] at hid
    refine ⟨_, p, [], Probe.call_foreign hid c, Probe.behaves_foreign ho c, p.continues_self, ?_⟩
    intro e'' he''
    rw [he'] at he''
    cases he''
    exact hp

variable [BEq α] [Render α]

theorem Sound.exists_step (hw : w.Sound) (a : Action α π) :
    ∃ w' es, w.step a = .done w' es ∧ w'.Sound ∧ w.Extends w' := by
  cases a with
  | create settings locked =>
    have hs := OrderedSet.isSound_empty w.nextId settings
    refine ⟨_, [], rfl, ?_⟩
    cases locked <;> exact hw.add hs rfl
  | update k u =>
    rw [World.step]
    refine hw.exists_change fun h hs => ?_
    obtain ⟨_, h', _, e, hb, -⟩ := Holder.IsSound.exists_update hs u
    exact ⟨h', _, _, Traced.bind_done e rfl, hb⟩
  | insertMany k vs =>
    rw [World.step]
    refine hw.exists_change fun h hs => ?_
    obtain ⟨n, h', _, e, hb, hn⟩ := hs.exists_insertMany vs
    refine ⟨h', _, _, Traced.bind_done e rfl, ?_⟩
    rwa [hn, Nat.add_sub_cancel_left]
  | ask k q =>
    rw [World.step]
    refine hw.exists_look fun h hs => ?_
    obtain ⟨_, _, e, -⟩ := hs.exists_ask q
    exact ⟨_, Traced.bind_done e rfl⟩
  | derive k d =>
    rw [World.step]
    refine hw.exists_grow fun h hs => ?_
    obtain ⟨_, e⟩ := h.exists_acquire
    refine ⟨_, _, Traced.bind_done e rfl, ?_, ?_⟩
    · cases d with
      | clone => exact OrderedSet.IsSound.clone hs _
      | deepClone => exact OrderedSet.IsSound.deepClone hs _
      | emptyLike => exact OrderedSet.IsSound.emptyLike h.inner _
    · cases d <;> rfl
  | combine k kind other =>
    rw [World.step]
    cases ho : w.operand? other with
    | none => exact ⟨w, [], rfl, hw, w.extends_self⟩
    | some o =>
      refine hw.exists_grow fun h hs => ?_
      obtain ⟨h', es, n, e, hb⟩ := hs.exists_combine kind w.nextId (hw.isSound_operand ho)
      exact ⟨h', es, e, hb.isSound, hb.id_eq⟩
  | share k =>
    refine hw.exists_change fun h hs => ⟨h.share, 0, [], rfl, ?_⟩
    rw [h.inner_share]
    exact OrderedSet.IsSound.becomes_self hs
  | unshare k =>
    exact hw.exists_change fun h hs => ⟨h.unshare, 0, [], rfl, OrderedSet.IsSound.becomes_self hs⟩
  | poison k =>
    rw [World.step]
    refine hw.exists_change fun h hs =>
      ⟨h.hold h.inner true, 0, _, Traced.bind_done h.poison_eq rfl, ?_⟩
    rw [h.inner_hold]
    exact OrderedSet.IsSound.becomes_self hs
  | cursor k d =>
    rw [World.step]
    cases hk : w.entries[k]? with
    | none => exact ⟨w, [], rfl, hw, w.extends_self⟩
    | some e =>
      obtain ⟨_, ha⟩ := e.holder.exists_acquire
      obtain ⟨c, hc, hid, hv, hact, hd, hf⟩ :=
        OrderedSet.IsSound.exists_cursor (hw.isSound e (List.mem_of_getElem? hk)) d
      have hl : (liftM _ : Traced Event _) = .done c [] := Traced.liftM_eq_done hc
      refine ⟨_, _, Traced.bind_done ha (Traced.bind_done hl rfl), ?_⟩
      subst hd
      exact hw.add_probe hk (Probe.fits_new k hid hv hact hf)
  | filter i p => exact ⟨_, [], rfl, hw.adapt fun _ _ hp => hp.filter p⟩
  | takeWhile i p => exact ⟨_, [], rfl, hw.adapt fun _ _ hp => hp.takeWhile p⟩
  | call i k c =>
    rw [World.step]
    cases hi : w.probes[i]? with
    | none => exact ⟨w, [], rfl, hw, w.extends_self⟩
    | some p =>
      cases hk : w.entries[k]? with
      | none => exact ⟨w, [], rfl, hw, w.extends_self⟩
      | some e =>
        obtain ⟨_, ha⟩ := e.holder.exists_acquire
        obtain ⟨r, p', es, hc, -, hcont, hf⟩ := hw.exists_call hi hk c
        exact ⟨_, _, Traced.bind_done ha (Traced.bind_done hc rfl), hw.set_probe hi hcont hf⟩

theorem Sound.exists_run (hw : w.Sound) (as : List (Action α π)) :
    ∃ w' es, w.run as = .done w' es ∧ w'.Sound ∧ w.Extends w' := by
  induction as generalizing w with
  | nil => exact ⟨w, [], rfl, hw, w.extends_self⟩
  | cons a as ih =>
    obtain ⟨w₁, _, e₁, h₁, hx₁⟩ := hw.exists_step a
    obtain ⟨w₂, _, e₂, h₂, hx₂⟩ := ih h₁
    exact ⟨w₂, _, Traced.bind_done e₁ e₂, h₂, hx₁.trans hx₂⟩

end Call
variable [Predicate π α]

/-- Every run of actions is done. Wherever it leads, every call of every cursor with every set
behaves. Once the set that created a cursor has changed, every call of the cursor with it fails for
that reason, and so it will after any further actions. -/
theorem calls_behave [BEq α] [Render α] (as : List (Action α π)) :
    ∃ w es, (empty : World α π).run as = .done w es ∧
      ∀ i : Fin w.probes.length, ∃ o : Fin w.entries.length, o.val = w.probes[i].origin ∧
        (∀ (k : Fin w.entries.length) (c : Cursor.Call), ∃ r p es,
          w.probes[i].call w.entries[k].inner c = .done (r, p) es ∧
            w.probes[i].Behaves k w.entries[k] c r p) ∧
        (w.probes[i].changes < w.entries[o].changes → ∀ later, ∃ w' es p e,
          w.run later = .done w' es ∧ w'.probes[i.val]? = some p ∧ w'.entries[o.val]? = some e ∧
            w.probes[i].version < e.inner.version ∧
            ∀ c, ∃ p' es, p.call e.inner c =
              .done (.error (.modified w.probes[i].version e.inner.version), p') es) := by
  obtain ⟨w, es, hrun, hw, -⟩ := sound_empty.exists_run as
  refine ⟨w, es, hrun, fun i => ?_⟩
  have hi : w.probes[i.val]? = some w.probes[i] := List.getElem?_eq_getElem i.isLt
  obtain ⟨e, he, -⟩ := hw.fits w.probes[i] (List.getElem_mem i.isLt)
  obtain ⟨ho, rfl⟩ := List.getElem?_eq_some_iff.1 he
  refine ⟨⟨_, ho⟩, rfl, fun k c => ?_, fun hc later => ?_⟩
  · have hk : w.entries[k.val]? = some w.entries[k] := List.getElem?_eq_getElem k.isLt
    obtain ⟨r, p, es, hcall, hb, -, -⟩ := hw.exists_call hi hk c
    exact ⟨r, p, es, hcall, hb⟩
  · obtain ⟨w', es', hrun', hw', hx⟩ := hw.exists_run later
    obtain ⟨p, e, hp, he', hfit, hcont, hlt⟩ := hx.changes_lt hw' hi he hc
    have hcall := hfit.exists_call_stale hlt
    rw [hcont.version_eq] at hcall
    refine ⟨w', es', p, e, hrun', hp, he', ?_, fun c => ?_⟩
    · obtain ⟨-, -, -, -, -, hv⟩ := hcall .start
      exact hv
    · obtain ⟨p', es, h, -⟩ := hcall c
      exact ⟨p', es, h⟩

def strayActions : List (Action Element Condition) :=
  [.create ⟨.natural Element, none, false⟩ true, .insertMany 0 [.int 1, .int 2, .int 3],
    .derive 0 .clone, .cursor 0 .ascending, .call 0 0 .next, .update 0 (.insert (.int 4))]

/-- The cursor refuses the clone, which has all three elements that the set had, and the set as it
is now. -/
theorem calls_behave_strayActions :
    ∃ a b p es, (empty : World Element Condition).run strayActions = .done ⟨[a, b], [p], 2⟩ es ∧
      b.inner.size = 3 ∧ p.walked = [.int 1] ∧
      (∃ es, p.call b.inner .next = .done (.error .foreignCursor, p) es) ∧
      (∃ p' es, p.call a.inner .next = .done (.error (.modified 3 4), p') es) ∧
      ∀ later, ∃ w es p' e, (World.mk [a, b] [p] 2).run later = .done w es ∧
        w.probes[0]? = some p' ∧ w.entries[0]? = some e ∧ ∀ c, ∃ p'' es,
          p'.call e.inner c = .done (.error (.modified 3 e.inner.version), p'') es := by
  obtain ⟨w, es, hrun, hcalls⟩ := calls_behave strayActions
  obtain ⟨a, b, p, es₀, hrun₀, hb, hwalked, horigin, hpc, hpv, hac, hav⟩ : ∃ a b p es,
      (empty : World Element Condition).run strayActions = .done ⟨[a, b], [p], 2⟩ es ∧
        b.inner.size = 3 ∧ p.walked = [.int 1] ∧ p.origin = 0 ∧
          p.changes = 3 ∧ p.version = 3 ∧ a.changes = 4 ∧ a.inner.version = 4 :=
    ⟨_, _, _, _, rfl, rfl, rfl, rfl, rfl, rfl, rfl, rfl⟩
  cases hrun.symm.trans hrun₀
  obtain ⟨⟨o, ho⟩, ho', hcall, hstale⟩ := hcalls ⟨0, Nat.one_pos⟩
  obtain rfl : o = 0 := ho'.trans horigin
  have hlt : p.changes < a.changes := by omega
  obtain ⟨r, p₁, es₁, e₁, h₁⟩ := hcall ⟨1, Nat.one_lt_two⟩ .next
  obtain ⟨r₂, p₂, es₂, e₂, h₂⟩ := hcall ⟨0, Nat.two_pos⟩ .next
  have hne : 1 ≠ p.origin := by omega
  obtain rfl := h₁.foreign_iff.2 hne
  rw [h₁.foreign_eq hne] at e₁
  obtain ⟨x, y, rfl⟩ := h₂.modified_iff.2 ⟨horigin.symm, hlt⟩
  obtain ⟨hx, hy, -⟩ := h₂.modified x y rfl
  obtain rfl : x = 3 := hx.trans hpv
  obtain rfl : y = 4 := hy.trans hav
  refine ⟨a, b, p, es, hrun, hb, hwalked, ⟨es₁, e₁⟩, ⟨p₂, es₂, e₂⟩, fun later => ?_⟩
  obtain ⟨w', es', p', e, hrun', hp', he, -, hforever⟩ := hstale hlt later
  exact ⟨w', es', p', e, hrun', hp', he, hpv ▸ hforever⟩

end World
end RedBlack
