import RedBlack.OrderedSet.Action
import RedBlack.Proofs.Arena.Insertion
import RedBlack.Proofs.Arena.Removal
import RedBlack.Proofs.Arena.Walk
import RedBlack.Tree.Balance

set_option autoImplicit false

namespace RedBlack
variable {α π : Type}

/-- The nodes of a set are the nodes of a red-black tree. -/
structure OrderedSet.Represents (s : OrderedSet α) (t : Tree α) : Prop where
  shows : s.tree.Shows t
  balanced : t.IsRedBlack

def OrderedSet.IsSound (s : OrderedSet α) : Prop := ∃ t, s.Represents t

theorem Arena.shows_empty : (Arena.empty : Arena α).Shows .nil :=
  ⟨.nil, Arena.lays_nil.2 ⟨rfl, by simp [Tree.cells], rfl, by simp [Tree.cells]⟩, rfl⟩

theorem Arena.Shows.size_eq {a : Arena α} {t : Tree α} (h : a.Shows t) :
    a.size = t.toList.length := by
  obtain ⟨u, hu, rfl⟩ := h
  rw [hu.size_eq, Tree.toList_map, List.length_map, Tree.length_toList]

namespace OrderedSet
variable {s : OrderedSet α} {t : Tree α}

theorem represents_empty (id : Nat) (settings : Settings α) :
    (OrderedSet.empty id settings).Represents .nil :=
  ⟨Arena.shows_empty, Tree.isRedBlack_nil⟩

namespace Represents

theorem isSound (h : s.Represents t) : s.IsSound := ⟨t, h⟩

theorem size_eq (h : s.Represents t) : s.size = t.toList.length := h.shows.size_eq

theorem congr {s' : OrderedSet α} (h : s.Represents t) (e : s'.tree = s.tree) :
    s'.Represents t :=
  ⟨e ▸ h.shows, h.balanced⟩

theorem place (h : s.Represents t) (v : α) :
    ∃ r ts es a, t.insert? s.compare v = .done r ts ∧ Tells es ts ∧
      s.place v = .done (r.isSome, { s with tree := a }) es ∧
      OrderedSet.Represents { s with tree := a } (r.getD t) ∧ (r = none → a = s.tree) := by
  obtain ⟨r, ts, hr, hb⟩ := h.balanced.exists_insert? s.compare v
  obtain ⟨es, ht, hi⟩ := h.shows.insert hr
  cases r with
  | none =>
    refine ⟨none, ts, es, s.tree, hr, ht, ?_, h, fun _ => rfl⟩
    simp [OrderedSet.place, hi, Traced.done_bind, Traced.pure_eq]
  | some u =>
    obtain ⟨a, ha, hs⟩ := hi
    refine ⟨some u, ts, es, a, hr, ht, ?_, ⟨hs, hb u rfl⟩, nofun⟩
    simp [OrderedSet.place, ha, Traced.done_bind, Traced.pure_eq]

theorem insert (h : s.Represents t) (v : α) :
    ∃ r ts es s', t.insert? s.compare v = .done r ts ∧ Tells es ts ∧
      s.insert v = .done (r.isSome, s') es ∧ s'.Represents (r.getD t) ∧
      s' = if r.isSome then { s with tree := s'.tree }.touch else s := by
  obtain ⟨r, ts, es, a, hr, ht, hp, hs, ha⟩ := h.place v
  cases r with
  | none =>
    refine ⟨none, ts, es, s, hr, ht, ?_, h, rfl⟩
    rw [ha rfl] at hp
    simp [OrderedSet.insert, hp, Traced.done_bind, Traced.pure_eq]
  | some u =>
    refine ⟨some u, ts, es, { s with tree := a }.touch, hr, ht, ?_, hs.congr rfl, rfl⟩
    simp [OrderedSet.insert, hp, Traced.done_bind, Traced.pure_eq]

theorem take (h : s.Represents t) (key : α) :
    ∃ r ts es s', t.take? (s.compare key) = .done r ts ∧ Tells es ts ∧
      s.take key = .done (r.map Prod.fst, s') es ∧ s'.Represents ((r.map Prod.snd).getD t) ∧
      s' = if r.isSome then { s with tree := s'.tree }.touch else s := by
  obtain ⟨r, ts, hr, hb⟩ := h.balanced.exists_take? (s.compare key)
  have ht := h.shows.take hr
  cases r with
  | none =>
    obtain ⟨hl, rfl⟩ := ht
    refine ⟨none, [], [], s, hr, .nil, ?_, h, rfl⟩
    simp [OrderedSet.take, hl, Traced.pure_eq]
  | some x =>
    obtain ⟨v, u⟩ := x
    obtain ⟨i, a, es, hl, hd, ht, hs⟩ := ht
    refine ⟨some (v, u), ts, es, { s with tree := a }.touch, hr, ht, ?_, ⟨hs, hb _ rfl⟩, rfl⟩
    simp [OrderedSet.take, OrderedSet.removeAt, hl, hd, Traced.done_bind, Traced.pure_eq]

theorem pop (h : s.Represents t) (side : Side) :
    ∃ r ts es s', t.takeExtreme? side = .done r ts ∧ Tells es ts ∧
      s.pop side = .done (r.map Prod.fst, s') es ∧ s'.Represents ((r.map Prod.snd).getD t) ∧
      s' = if r.isSome then { s with tree := s'.tree }.touch else s := by
  obtain ⟨r, ts, hr, hb⟩ := h.balanced.exists_takeExtreme? side
  have ht := h.shows.takeExtreme hr
  cases r with
  | none =>
    obtain ⟨hl, rfl⟩ := ht
    refine ⟨none, [], [], s, hr, .nil, ?_, h, rfl⟩
    simp [OrderedSet.pop, hl, Traced.pure_eq]
  | some x =>
    obtain ⟨v, u⟩ := x
    obtain ⟨i, a, es, hl, hd, ht, hs⟩ := ht
    refine ⟨some (v, u), ts, es, { s with tree := a }.touch, hr, ht, ?_, ⟨hs, hb _ rfl⟩, rfl⟩
    simp [OrderedSet.pop, OrderedSet.removeAt, hl, hd, Traced.done_bind, Traced.pure_eq]

theorem clear (h : s.Represents t) :
    s.clear = .done ({ s with tree := .empty }.touch) [.cleared t.toList.length] ∧
      ({ s with tree := .empty }.touch).Represents .nil := by
  refine ⟨?_, Arena.shows_empty, Tree.isRedBlack_nil⟩
  rw [← h.size_eq]
  rfl

theorem clone (h : s.Represents t) (id : Nat) : (s.clone id).Represents t := h.congr rfl

theorem deepClone (h : s.Represents t) (id : Nat) :
    (s.deepClone id).Represents (t.map s.settings.copy) :=
  ⟨h.shows.map _, h.balanced.map _⟩

theorem get? (h : s.Represents t) (key : α) : s.get? key = .ok (t.find? (s.compare key)) := by
  have hl := h.shows.lookup (s.compare key)
  cases hf : t.find? (s.compare key) with
  | none =>
    simp only [hf] at hl
    simp only [OrderedSet.get?, hl, ok_bind]
    rfl
  | some v =>
    simp only [hf] at hl
    obtain ⟨i, hi, hv⟩ := hl
    simp only [OrderedSet.get?, hi, hv, ok_bind]
    rfl

theorem contains (h : s.Represents t) (key : α) :
    s.contains key = .ok (t.find? (s.compare key)).isSome := by
  have hl := h.shows.lookup (s.compare key)
  cases hf : t.find? (s.compare key) with
  | none =>
    simp only [hf] at hl
    simp only [OrderedSet.contains, hl, ok_bind]
    rfl
  | some v =>
    simp only [hf] at hl
    obtain ⟨i, hi, hv⟩ := hl
    simp only [OrderedSet.contains, hi, ok_bind]
    rfl

theorem extreme? (h : s.Represents t) (side : Side) :
    s.extreme? side = .ok ((t.extreme side).map fun x => x.1.value) := by
  have he := h.shows.extreme side
  cases hx : t.extreme side with
  | none =>
    simp only [hx] at he
    simp only [OrderedSet.extreme?, he, ok_bind]
    rfl
  | some x =>
    obtain ⟨f, p⟩ := x
    simp only [hx] at he
    obtain ⟨i, hi, hv⟩ := he
    simp only [OrderedSet.extreme?, hi, hv, ok_bind]
    rfl

end Represents
end OrderedSet
end RedBlack
