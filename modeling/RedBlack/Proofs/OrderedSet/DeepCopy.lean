import RedBlack.Proofs.Arena.Mapping
import RedBlack.Proofs.Lock.Warnings
import RedBlack.Proofs.OrderedSet.Reached
import RedBlack.Workspace.Session

/-!
Deep copies. A copy has the shape of its set, whatever the copies of the values are. If comparisons
come out for the copies as they do for the values, so does every run of updates: a tree depends on
the answers of the comparator and on nothing else about its values.
-/

set_option autoImplicit false

namespace RedBlack
variable {α β π ρ : Type} {f : α → β}

namespace Predicate
variable [Predicate π α] [Predicate ρ β] {p : π} {q : ρ}

def verdicts (p : π) : List α → List Verdict
  | [] => []
  | v :: vs => (test p v).1 :: verdicts (test p v).2 vs

/-- The second predicate answers about images of values as the first one does about the values. -/
def Mirrors (f : α → β) (p : π) (q : ρ) : Prop :=
  ∀ vs : List α, verdicts q (vs.map f) = verdicts p vs

theorem Mirrors.test (h : Mirrors f p q) (v : α) :
    (Predicate.test q (f v)).1 = (Predicate.test p v).1 ∧
      Mirrors f (Predicate.test p v).2 (Predicate.test q (f v)).2 :=
  ⟨List.head_eq_of_cons_eq (h [v]), fun vs => List.tail_eq_of_cons_eq (h (v :: vs))⟩

theorem mirrors_of_stateless (answer : α → Bool) (answer' : β → Bool)
    (hp : ∀ v, Predicate.test p v = (.ofBool (answer v), p))
    (hq : ∀ w, Predicate.test q w = (.ofBool (answer' w), q))
    (h : ∀ v, answer' (f v) = answer v) : Mirrors f p q := by
  intro vs
  induction vs with
  | nil => rfl
  | cons v vs ih => simp only [List.map_cons, verdicts, hp, hq, h, ih]

end Predicate

/-- Two updates of which the second has images in place of the values of the first. -/
inductive Update.Matches [Predicate π α] [Predicate ρ β] (f : α → β) :
    Update α π → Update β ρ → Prop
  | insert (v : α) : Matches f (.insert v) (.insert (f v))
  | insertMany (vs : List α) : Matches f (.insertMany vs) (.insertMany (vs.map f))
  | extend (vs : List α) : Matches f (.extend vs) (.extend (vs.map f))
  | remove (v : α) : Matches f (.remove v) (.remove (f v))
  | take (v : α) : Matches f (.take v) (.take (f v))
  | pop (side : Side) : Matches f (.pop side) (.pop side)
  | clear : Matches f .clear .clear
  | retain {p : π} {q : ρ} : Predicate.Mirrors f p q → Matches f (.retain p) (.retain q)

inductive Reply.Matches (f : α → β) :
    Except Failure (Reply α) → Except Failure (Reply β) → Prop
  | failed (e : Failure) : Matches f (.error e) (.error e)
  | done : Matches f (.ok .done) (.ok .done)
  | flag (b : Bool) : Matches f (.ok (.flag b)) (.ok (.flag b))
  | number (n : Nat) : Matches f (.ok (.number n)) (.ok (.number n))
  | element (v : Option α) : Matches f (.ok (.element v)) (.ok (.element (v.map f)))

namespace Arena
variable {a b : Arena α}

/-- Below two links are trees of one shape, with the same colours and values. -/
inductive Alike (a b : Arena α) : Link → Link → Prop
  | none : Alike a b none none
  | some {i j : Nat} {n m : Node α} :
    a.nodes[i]? = some n → b.nodes[j]? = some m → m.color = n.color → m.value = n.value →
      Alike a b n.left m.left → Alike a b n.right m.right → Alike a b (some i) (some j)

theorem Lays.alike {p q : Path (Nat × α)} {t u : Layout α} (h : a.Lays p t) (h' : b.Lays q u)
    (e : u.map Prod.snd = t.map Prod.snd) : a.Alike b t.link u.link := by
  induction t generalizing p q u with
  | nil =>
    cases u with
    | nil => exact .none
    | node => cases e
  | node c l x r hl hr =>
    cases u with
    | nil => cases e
    | node d l' y r' =>
      simp only [Tree.map_node, Tree.node.injEq] at e
      obtain ⟨rfl, el, ev, er⟩ := e
      refine .some (node_eq_ok_iff.1 h.node) (node_eq_ok_iff.1 h'.node) rfl ev ?_ ?_
      · exact hl (p := ⟨.left, d, x, r⟩ :: p) (q := ⟨.left, d, y, r'⟩ :: q) (lays_cons.2 h)
          (lays_cons.2 h') el
      · exact hr (p := ⟨.right, d, x, l⟩ :: p) (q := ⟨.right, d, y, l'⟩ :: q) (lays_cons.2 h)
          (lays_cons.2 h') er

theorem Shows.alike {t : Tree α} (h : a.Shows t) (h' : b.Shows t) : a.Alike b a.root b.root := by
  obtain ⟨u, hu, rfl⟩ := h
  obtain ⟨w, hw, e⟩ := h'
  have hr : a.root = u.link := Holds.root_eq hu
  have hr' : b.root = w.link := Holds.root_eq hw
  rw [hr, hr']
  exact hu.alike hw e

end Arena

theorem Workspace.derive_deepClone (w : Workspace α π) (c : Holder α) (target : String) :
    ∃ w', w.derive c (some target) .deepClone = .done (.replied .done, w') c.warnings ∧
      w'.sets.get? target = some (.ordered (.plain (c.inner.deepClone w.nextId))) := by
  refine ⟨{ w.store target (.ordered (.plain (c.inner.deepClone w.nextId))) with
    nextId := w.nextId + 1 }, ?_, Store.get?_put_self ..⟩
  simp only [Workspace.derive, Workspace.withPart, c.acquire_bind, Traced.after_pure]

namespace OrderedSet

/-- Updates one after the other, with what comes of each. -/
def updateAll [Predicate π α] (s : OrderedSet α) :
    List (Update α π) → Traced Event (List (Except Failure (Reply α)) × OrderedSet α)
  | [] => return ([], s)
  | u :: us => do
    let (r, s) ← s.update u
    let (rs, s) ← s.updateAll us
    return (r :: rs, s)

/-- The second set has the nodes of the first with images in place of the values, and its
comparisons of images come out like those of the values. -/
structure Images (f : α → β) (s : OrderedSet α) (s' : OrderedSet β) : Prop where
  compare_eq : ∀ a b, s'.compare (f a) (f b) = s.compare a b
  tree_eq : s'.tree = s.tree.map f
  isSound : s.IsSound

namespace Images
variable {s s₁ : OrderedSet α} {s' s₁' : OrderedSet β}

theorem touch (h : Images f s s') : Images f s.touch s'.touch :=
  ⟨h.compare_eq, h.tree_eq, h.isSound.imp fun _ ht => ht.congr rfl⟩

theorem emptied (h : Images f s s') :
    Images f { s with tree := .empty } { s' with tree := .empty } :=
  ⟨h.compare_eq, by simp [Arena.empty, Arena.map], .nil, Arena.shows_empty, Tree.isRedBlack_nil⟩

theorem size_eq (h : Images f s s') : s'.size = s.size := by
  rw [OrderedSet.size, OrderedSet.size, h.tree_eq, Arena.size_map]

theorem place (h : Images f s s') (v : α) :
    ∃ new a a' es, s.place v = .done (new, { s with tree := a }) es ∧
      s'.place (f v) = .done (new, { s' with tree := a' }) es ∧
        Images f { s with tree := a } { s' with tree := a' } := by
  obtain ⟨new, a, es, e, ha, -⟩ := h.isSound.exists_place v
  have he : s'.place (f v) =
      (fun x => (x.1, { s' with tree := x.2.tree.map f })) <$> s.place v := by
    simp [OrderedSet.place, h.tree_eq, Arena.map_insert h.compare_eq]
  rw [e, Traced.map_done] at he
  exact ⟨new, a, a.map f, es, e, he, h.compare_eq, rfl, ha⟩

theorem insert (h : Images f s s') (v : α) :
    ∃ new s₁ s₁' es, s.insert v = .done (new, s₁) es ∧ s'.insert (f v) = .done (new, s₁') es ∧
      Images f s₁ s₁' := by
  obtain ⟨new, a, a', es, hp, hp', ha⟩ := h.place v
  cases new with
  | false =>
    refine ⟨false, { s with tree := a }, { s' with tree := a' }, es, ?_, ?_, ha⟩
    · simp [OrderedSet.insert, hp, Traced.done_bind, Traced.pure_eq]
    · simp [OrderedSet.insert, hp', Traced.done_bind, Traced.pure_eq]
  | true =>
    refine ⟨true, _, _, es, ?_, ?_, ha.touch⟩
    · simp [OrderedSet.insert, hp, Traced.done_bind, Traced.pure_eq]
    · simp [OrderedSet.insert, hp', Traced.done_bind, Traced.pure_eq]

theorem insertMany (h : Images f s s') (vs : List α) :
    ∃ n s₁ s₁' es, s.insertMany vs = .done (n, s₁) es ∧
      s'.insertMany (vs.map f) = .done (n, s₁') es ∧ Images f s₁ s₁' := by
  induction vs generalizing s s' with
  | nil => exact ⟨0, s, s', [], rfl, rfl, h⟩
  | cons v vs ih =>
    obtain ⟨new, s₁, s₁', es₁, e₁, e₁', h₁⟩ := h.insert v
    obtain ⟨n, s₂, s₂', es₂, e₂, e₂', h₂⟩ := ih h₁
    refine ⟨if new then n + 1 else n, s₂, s₂', es₁ ++ es₂, ?_, ?_, h₂⟩
    · simp [OrderedSet.insertMany, e₁, e₂, Traced.done_bind, Traced.pure_eq]
    · simp [OrderedSet.insertMany, e₁', e₂', Traced.done_bind, Traced.pure_eq]

/-- A removal from the second set that follows one from the first. -/
def follow (f : α → β) (s' : OrderedSet β) (x : Option α × OrderedSet α) :
    Option β × OrderedSet β :=
  (x.1.map f, if x.1.isSome then { s' with tree := x.2.tree.map f }.touch else s')

theorem followed {v : Option α} (h : Images f s s') (hb : s.Becomes s₁ v.isSome.toNat) :
    Images f s₁ (follow f s' (v, s₁)).2 := by
  cases v with
  | none => exact hb.unchanged rfl ▸ h
  | some v =>
    refine ⟨fun a b => ?_, rfl, hb.isSound⟩
    rw [compare, compare, hb.settings_eq]
    exact h.compare_eq a b

theorem removeAt_eq (h : Images f s s') (i : Nat) :
    s'.removeAt i =
      (fun x => (f x.1, { s' with tree := x.2.tree.map f }.touch)) <$> s.removeAt i := by
  simp [OrderedSet.removeAt, h.tree_eq, Arena.map_removeNode, OrderedSet.touch]

theorem take (h : Images f s s') (key : α) :
    ∃ v s₁ s₁' es, s.take key = .done (v, s₁) es ∧
      s'.take (f key) = .done (v.map f, s₁') es ∧ Images f s₁ s₁' := by
  obtain ⟨v, s₁, es, e, hb, -⟩ := h.isSound.exists_take key
  have he : s'.take (f key) = follow f s' <$> s.take key := by
    simp only [OrderedSet.take, h.tree_eq, Arena.map_lookup (h.compare_eq key), map_bind]
    congr 1
    funext l
    cases l with
    | none => rfl
    | some i => simp [h.removeAt_eq, follow]
  rw [e, Traced.map_done] at he
  exact ⟨v, s₁, _, es, e, he, h.followed hb⟩

theorem pop (h : Images f s s') (side : Side) :
    ∃ v s₁ s₁' es, s.pop side = .done (v, s₁) es ∧
      s'.pop side = .done (v.map f, s₁') es ∧ Images f s₁ s₁' := by
  obtain ⟨v, s₁, es, e, hb, -⟩ := h.isSound.exists_pop side
  have he : s'.pop side = follow f s' <$> s.pop side := by
    simp only [OrderedSet.pop, h.tree_eq, Arena.map_extreme, map_bind]
    congr 1
    funext l
    cases l with
    | none => rfl
    | some i => simp [h.removeAt_eq, follow]
  rw [e, Traced.map_done] at he
  exact ⟨v, s₁, _, es, e, he, h.followed hb⟩

theorem remove (h : Images f s s') (key : α) :
    ∃ found s₁ s₁' es, s.remove key = .done (found, s₁) es ∧
      s'.remove (f key) = .done (found, s₁') es ∧ Images f s₁ s₁' := by
  obtain ⟨v, s₁, s₁', es, e, e', h₁⟩ := h.take key
  refine ⟨v.isSome, s₁, s₁', es, ?_, ?_, h₁⟩
  · simp [OrderedSet.remove, e, Traced.done_bind, Traced.pure_eq]
  · simp [OrderedSet.remove, e', Traced.done_bind, Traced.pure_eq]

theorem clear (h : Images f s s') :
    ∃ s₁ s₁' es, s.clear = .done s₁ es ∧ s'.clear = .done s₁' es ∧ Images f s₁ s₁' := by
  refine ⟨_, _, [.cleared s.size], rfl, ?_, h.emptied.touch⟩
  rw [← h.size_eq]
  rfl

theorem placeMany (h : Images f s s') (vs : List α) :
    ∃ a a' es, s.placeMany vs = .done { s with tree := a } es ∧
      s'.placeMany (vs.map f) = .done { s' with tree := a' } es ∧
        Images f { s with tree := a } { s' with tree := a' } := by
  induction vs generalizing s s' with
  | nil => exact ⟨s.tree, s'.tree, [], rfl, rfl, h⟩
  | cons v vs ih =>
    obtain ⟨new, a₁, a₁', es₁, e₁, e₁', h₁⟩ := h.place v
    obtain ⟨a₂, a₂', es₂, e₂, e₂', h₂⟩ := ih h₁
    refine ⟨a₂, a₂', es₁ ++ es₂, ?_, ?_, h₂⟩
    · simp [OrderedSet.placeMany, e₁, e₂, Traced.done_bind]
    · simp [OrderedSet.placeMany, e₁', e₂', Traced.done_bind]

section Retain
variable [Predicate π α] [Predicate ρ β] {p : π} {q : ρ}

theorem sift (h : Images f s s') (hp : Predicate.Mirrors f p q) (vs : List α) :
    ∃ r r' es, s.sift p vs = .done r es ∧ s'.sift q (vs.map f) = .done r' es ∧
      r'.panic = r.panic ∧ Images f r.set r'.set := by
  induction vs generalizing s s' p q with
  | nil => exact ⟨⟨s, p, none⟩, ⟨s', q, none⟩, [], rfl, rfl, rfl, h⟩
  | cons v vs ih =>
    obtain ⟨hv, hnext⟩ := hp.test v
    cases ht : Predicate.test p v with
    | mk verdict p' =>
      cases ht' : Predicate.test q (f v) with
      | mk verdict' q' =>
        rw [ht, ht'] at hv hnext
        obtain rfl : verdict' = verdict := hv
        cases verdict' with
        | accept =>
          obtain ⟨new, a, a', es₁, e₁, e₁', h₁⟩ := h.place v
          obtain ⟨r, r', es₂, e₂, e₂', hpanic, hr⟩ := ih h₁ hnext
          refine ⟨r, r', es₁ ++ es₂, ?_, ?_, hpanic, hr⟩
          · simp [OrderedSet.sift, ht, e₁, e₂, Traced.done_bind]
          · simp [OrderedSet.sift, ht', e₁', e₂', Traced.done_bind]
        | reject =>
          obtain ⟨r, r', es, e, e', hpanic, hr⟩ := ih h hnext
          refine ⟨r, r', es, ?_, ?_, hpanic, hr⟩
          · simp [OrderedSet.sift, ht, e]
          · simp [OrderedSet.sift, ht', e']
        | panic m =>
          obtain ⟨a, a', es, e, e', ha⟩ := h.placeMany (v :: vs)
          rw [List.map_cons] at e'
          refine ⟨⟨_, p', some m⟩, ⟨_, q', some m⟩, es, ?_, ?_, rfl, ha⟩
          · simp [OrderedSet.sift, ht, e, Traced.done_bind, Traced.pure_eq]
          · simp [OrderedSet.sift, ht', e', Traced.done_bind, Traced.pure_eq]

theorem exists_retain (h : Images f s s') (hp : Predicate.Mirrors f p q) :
    ∃ r r' es, s.retain p = .done r es ∧ s'.retain q = .done r' es ∧ r'.outcome = r.outcome ∧
      Images f r.set r'.set := by
  have hsize := h.size_eq
  cases he : s.isEmpty with
  | true =>
    have he' : s'.isEmpty = true := by rw [isEmpty, hsize]; exact he
    refine ⟨⟨s, p, .ok 0⟩, ⟨s', q, .ok 0⟩, [], ?_, ?_, rfl, h⟩
    · simp [OrderedSet.retain, he, Traced.pure_eq]
    · simp [OrderedSet.retain, he', Traced.pure_eq]
  | false =>
    have he' : s'.isEmpty = false := by rw [isEmpty, hsize]; exact he
    obtain ⟨t, hr⟩ := h.isSound
    have hsorted := hr.shows.takeSorted
    have hsorted' := (hr.shows.map f).takeSorted
    rw [Tree.toList_map, ← h.tree_eq] at hsorted'
    obtain ⟨r, r', es, e, e', hpanic, hset⟩ := h.touch.emptied.sift hp t.toList
    have hsize' := hset.size_eq
    obtain ⟨x, es', hx, -⟩ := hr.isSound.exists_retain p
    cases hm : r.panic with
    | some m =>
      rw [hm] at hpanic
      refine ⟨⟨r.set, r.predicate, .error (.predicate m)⟩,
        ⟨r'.set, r'.predicate, .error (.predicate m)⟩, es, ?_, ?_, rfl, hset⟩
      · simp [OrderedSet.retain, he, hsorted, e, hm, Traced.done_bind, Traced.pure_eq]
      · simp [OrderedSet.retain, he', hsorted', e', hpanic, Traced.done_bind, Traced.pure_eq]
    | none =>
      rw [hm] at hpanic
      have hle : r.set.size ≤ s.size := by
        by_contra hn
        simp [OrderedSet.retain, he, hsorted, e, hm, hn, Traced.done_bind] at hx
      have hle' : r'.set.size ≤ s'.size := by omega
      refine ⟨⟨r.set, r.predicate, .ok (s.size - r.set.size)⟩,
        ⟨r'.set, r'.predicate, .ok (s'.size - r'.set.size)⟩, es, ?_, ?_, ?_, hset⟩
      · simp [OrderedSet.retain, he, hsorted, e, hm, hle, Traced.done_bind, Traced.pure_eq]
      · simp [OrderedSet.retain, he', hsorted', e', hpanic, hle', Traced.done_bind, Traced.pure_eq]
      · dsimp only
        rw [hsize, hsize']

end Retain

variable [Predicate π α] [Predicate ρ β] {u : Update α π} {u' : Update β ρ}

theorem update (h : Images f s s') (hu : u.Matches f u') :
    ∃ r r' s₁ s₁' es, s.update u = .done (r, s₁) es ∧ s'.update u' = .done (r', s₁') es ∧
      Reply.Matches f r r' ∧ Images f s₁ s₁' := by
  cases hu with
  | insert v =>
    obtain ⟨new, s₁, s₁', es, e, e', h₁⟩ := h.insert v
    refine ⟨_, _, s₁, s₁', es, ?_, ?_, .flag new, h₁⟩ <;>
      simp [OrderedSet.update, e, e', Traced.done_bind, Traced.pure_eq]
  | insertMany vs =>
    obtain ⟨n, s₁, s₁', es, e, e', h₁⟩ := h.insertMany vs
    refine ⟨_, _, s₁, s₁', es, ?_, ?_, .number n, h₁⟩ <;>
      simp [OrderedSet.update, e, e', Traced.done_bind, Traced.pure_eq]
  | extend vs =>
    obtain ⟨n, s₁, s₁', es, e, e', h₁⟩ := h.insertMany vs
    refine ⟨_, _, s₁, s₁', es, ?_, ?_, .done, h₁⟩ <;>
      simp [OrderedSet.update, e, e', Traced.done_bind, Traced.pure_eq]
  | remove v =>
    obtain ⟨found, s₁, s₁', es, e, e', h₁⟩ := h.remove v
    refine ⟨_, _, s₁, s₁', es, ?_, ?_, .flag found, h₁⟩ <;>
      simp [OrderedSet.update, e, e', Traced.done_bind, Traced.pure_eq]
  | take v =>
    obtain ⟨w, s₁, s₁', es, e, e', h₁⟩ := h.take v
    refine ⟨_, _, s₁, s₁', es, ?_, ?_, .element w, h₁⟩ <;>
      simp [OrderedSet.update, e, e', Traced.done_bind, Traced.pure_eq]
  | pop side =>
    obtain ⟨w, s₁, s₁', es, e, e', h₁⟩ := h.pop side
    refine ⟨_, _, s₁, s₁', es, ?_, ?_, .element w, h₁⟩ <;>
      simp [OrderedSet.update, e, e', Traced.done_bind, Traced.pure_eq]
  | clear =>
    obtain ⟨s₁, s₁', es, e, e', h₁⟩ := h.clear
    refine ⟨_, _, s₁, s₁', es, ?_, ?_, .done, h₁⟩ <;>
      simp [OrderedSet.update, e, e', Traced.done_bind, Traced.pure_eq]
  | retain hp =>
    obtain ⟨r, r', es, e, e', ho, h₁⟩ := h.exists_retain hp
    refine ⟨r.outcome.map .number, r'.outcome.map .number, r.set, r'.set, es, ?_, ?_, ?_, h₁⟩
    · simp [OrderedSet.update, e, Traced.done_bind, Traced.pure_eq]
    · simp [OrderedSet.update, e', Traced.done_bind, Traced.pure_eq]
    · rw [ho]
      cases r.outcome with
      | ok n => exact .number n
      | error e => exact .failed e

theorem updateAll {us : List (Update α π)} {us' : List (Update β ρ)} (h : Images f s s')
    (hu : List.Forall₂ (Update.Matches f) us us') :
    ∃ rs rs' s₁ s₁' es, s.updateAll us = .done (rs, s₁) es ∧
      s'.updateAll us' = .done (rs', s₁') es ∧ List.Forall₂ (Reply.Matches f) rs rs' ∧
        Images f s₁ s₁' ∧ s₁.settings = s.settings := by
  induction hu generalizing s s' with
  | nil => exact ⟨[], [], s, s', [], rfl, rfl, .nil, h, rfl⟩
  | @cons u u' us us' hu _ ih =>
    obtain ⟨r, r', s₁, s₁', es₁, e₁, e₁', hr, h₁⟩ := h.update hu
    obtain ⟨rs, rs', s₂, s₂', es₂, e₂, e₂', hrs, h₂, hset⟩ := ih h₁
    have hset₁ : s₁.settings = s.settings := by
      obtain ⟨_, _, _, e, hb, -⟩ := h.isSound.exists_update u
      cases e₁.symm.trans e
      exact hb.settings_eq
    refine ⟨r :: rs, r' :: rs', s₂, s₂', es₁ ++ es₂, ?_, ?_, .cons hr hrs, h₂, hset.trans hset₁⟩
    · simp [OrderedSet.updateAll, e₁, e₂, Traced.done_bind, Traced.pure_eq]
    · simp [OrderedSet.updateAll, e₁', e₂', Traced.done_bind, Traced.pure_eq]

end Images

variable {s : OrderedSet α} {t : Tree α}

theorem IsSound.images_deepClone (h : s.IsSound) (id : Nat)
    (hf : ∀ a b, s.compare (s.settings.copy a) (s.settings.copy b) = s.compare a b) :
    Images s.settings.copy s (s.deepClone id) :=
  ⟨hf, rfl, h⟩

theorem getElem?_deepClone (s : OrderedSet α) (id i : Nat) :
    (s.deepClone id).tree.nodes[i]? = s.tree.nodes[i]?.map (Node.map s.settings.copy) := by
  simp [OrderedSet.deepClone, Arena.map]

theorem Represents.elements_deepClone [Render α] (h : s.Represents t) (id : Nat) :
    s.ask .elements = .ok (.ok (.elements t.toList)) ∧
      s.ask .deepElements = .ok (.ok (.elements (t.toList.map s.settings.copy))) ∧
        (s.deepClone id).ask .elements = .ok (.ok (.elements (t.toList.map s.settings.copy))) := by
  simp only [OrderedSet.ask, h.elements, (h.deepClone id).elements, Tree.toList_map, ok_bind]
  exact ⟨rfl, rfl, rfl⟩

/-- A deep copy has the nodes of its set with copied values, in the same places, and making one
reports nothing but that a lock was poisoned. Its values are those that the set itself gives as deep
copies. If the comparator does not tell copies from values, then updates of the set and matching
ones of the copy come to the same, and so does a deep copy afterwards. -/
theorem Reached.deepClone_commutes (h : s.Reached) :
    (∀ id, (s.deepClone id).tree.root = s.tree.root ∧
      ∀ i : Nat, (s.deepClone id).tree.nodes[i]? =
        s.tree.nodes[i]?.map (Node.map s.settings.copy)) ∧
    (∀ (π : Type) (w : Workspace α π) (c : Holder α) (target : String), c.inner = s →
      ∃ w' es, w.derive c (some target) .deepClone = .done (.replied .done, w') es ∧
        w'.sets.get? target = some (.ordered (.plain (s.deepClone w.nextId))) ∧
          ∀ e ∈ es, e = .recovered) ∧
    (∀ [Render α] (id : Nat), ∃ vs, s.ask .elements = .ok (.ok (.elements vs)) ∧
      s.ask .deepElements = .ok (.ok (.elements (vs.map s.settings.copy))) ∧
        (s.deepClone id).ask .elements = .ok (.ok (.elements (vs.map s.settings.copy)))) ∧
    ((∀ a b, s.compare (s.settings.copy a) (s.settings.copy b) = s.compare a b) →
      ∀ (π ρ : Type) [Predicate π α] [Predicate ρ α] (us : List (Update α π))
        (us' : List (Update α ρ)) (id id' : Nat),
        List.Forall₂ (Update.Matches s.settings.copy) us us' →
          ∃ rs rs' s₁ s₂ es, s.updateAll us = .done (rs, s₁) es ∧
            (s.deepClone id).updateAll us' = .done (rs', s₂) es ∧
              List.Forall₂ (Reply.Matches s.settings.copy) rs rs' ∧
                (s₁.deepClone id').tree.Alike s₂.tree (s₁.deepClone id').tree.root
                  s₂.tree.root) := by
  obtain ⟨t, ht⟩ := h.isSound
  refine ⟨fun id => ⟨rfl, s.getElem?_deepClone id⟩, fun π w c target hc => ?_,
    fun id => ⟨t.toList, ht.elements_deepClone id⟩, fun hf π ρ _ _ us us' id id' hu => ?_⟩
  · obtain ⟨w', hw, hget⟩ := w.derive_deepClone c target
    exact ⟨w', c.warnings, hw, hc ▸ hget, fun e he => (List.mem_replicate.1 he).2⟩
  · obtain ⟨rs, rs', s₁, s₂, es, e, e', hr, hi, hset⟩ :=
      (h.isSound.images_deepClone id hf).updateAll hu
    obtain ⟨t', ht'⟩ := hi.isSound
    have htree : (s₁.deepClone id').tree = s₂.tree := by
      rw [hi.tree_eq, ← hset]
      rfl
    refine ⟨rs, rs', s₁, s₂, es, e, e', hr, ?_⟩
    rw [← htree]
    exact (ht'.deepClone id').shows.alike (ht'.deepClone id').shows

/-- Makes the tag of a pair longer and keeps its key. -/
def retag : Element → Element
  | .pair k tag => .pair k (tag ++ "+")
  | v => v

theorem num_retag (v : Element) : (retag v).num = v.num := by
  cases v <;> rfl

def taggedRun : Traced Event (OrderedSet Element) :=
  filled ⟨⟨"Key", .custom, Element.byKey⟩, some retag, false⟩
    [.pair 2 "b", .pair 1 "a", .pair 3 "c"]

theorem mirrors_congruent (m r : Int) :
    Predicate.Mirrors retag (Condition.congruent m r) (Condition.congruent m r) :=
  Predicate.mirrors_of_stateless (fun v => decide (v.num % m = r)) (fun v => decide (v.num % m = r))
    (fun _ => rfl) (fun _ => rfl) fun v => by rw [num_retag]

theorem Reached.deepClone_commutes_taggedRun :
    ∃ s es rs rs' s₁ s₂ es', taggedRun = .done s es ∧ s.size = 3 ∧
      (∀ a b, s.compare (retag a) (retag b) = s.compare a b) ∧
      s.updateAll (π := Condition) [.take (.pair 2 ""), .insert (.pair 5 "e"),
        .retain (.congruent 2 1), .pop .right] = .done (rs, s₁) es' ∧
      (s.deepClone 1).updateAll (π := Condition) [.take (.pair 2 "+"), .insert (.pair 5 "e+"),
        .retain (.congruent 2 1), .pop .right] = .done (rs', s₂) es' ∧
      List.Forall₂ (Reply.Matches retag) rs rs' ∧
      (s₁.deepClone 2).tree.Alike s₂.tree (s₁.deepClone 2).tree.root s₂.tree.root := by
  obtain ⟨s, es, e, hsize, hcopy, hcompare⟩ : ∃ s es, taggedRun = .done s es ∧ s.size = 3 ∧
      s.settings.copy = retag ∧ s.compare = Element.byKey := ⟨_, _, rfl, rfl, rfl, rfl⟩
  have hkey : ∀ a b, s.compare (s.settings.copy a) (s.settings.copy b) = s.compare a b := by
    intro a b
    rw [hcopy, hcompare, Element.byKey, Element.byKey, num_retag, num_retag]
  obtain ⟨-, -, -, hrun⟩ := Reached.deepClone_commutes (reached_filled e)
  rw [hcopy] at hrun hkey
  obtain ⟨rs, rs', s₁, s₂, es', e₁, e₂, hr, ha⟩ := hrun hkey Condition Condition _ _ 1 2
    (.cons (.take (.pair 2 "")) (.cons (.insert (.pair 5 "e"))
      (.cons (.retain (mirrors_congruent 2 1)) (.cons (.pop .right) .nil))))
  exact ⟨s, es, rs, rs', s₁, s₂, es', e, hsize, hkey, e₁, e₂, hr, ha⟩

end OrderedSet
end RedBlack
