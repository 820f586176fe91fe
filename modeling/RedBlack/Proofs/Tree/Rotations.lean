import RedBlack.Tree.Insertion
import RedBlack.Tree.Removal

set_option autoImplicit false

namespace RedBlack
variable {α : Type} {f g : Frame α} {p q : Path α} {t u : Tree α} {s : Side} {c : Color}
  {es : List (Rotation α)}

theorem Frame.length_align (h : f.align s t = .done u es) : es.length ≤ 1 := by
  unfold Frame.align at h
  split at h
  · cases h
    exact Nat.zero_le 1
  · exact Nat.le_of_eq (Tree.length_rotate h)

theorem Frame.length_relieve_settled (h : f.relieve g t = .done (.settled u) es) :
    es.length ≤ 2 := by
  unfold Frame.relieve at h
  split at h
  · cases h
  · obtain ⟨upper, es₁, es₂, ha, hw, rfl⟩ := Traced.bind_eq_done_iff.1 h
    obtain ⟨w, es₃, es₄, hr, hu, rfl⟩ := Traced.bind_eq_done_iff.1 hw
    cases hu
    rw [List.append_nil, List.length_append]
    exact Nat.add_le_add (Frame.length_align ha) (Nat.le_of_eq (Tree.length_rotate hr))

/-- Only a change of colours hands a red pair on. -/
theorem Frame.events_relieve_raised (h : f.relieve g t = .done (.raised u) es) : es = [] := by
  unfold Frame.relieve at h
  split at h
  · cases h
    rfl
  · obtain ⟨_, _, _, -, hw, -⟩ := Traced.bind_eq_done_iff.1 h
    obtain ⟨_, _, _, -, hu, -⟩ := Traced.bind_eq_done_iff.1 hw
    cases hu

theorem Path.length_repairRed (h : Path.repairRed p t = .done u es) : es.length ≤ 2 := by
  fun_induction Path.repairRed p t generalizing u es with
  | case1 t =>
    cases h
    exact Nat.zero_le 2
  | case2 f t hf =>
    cases h
    exact Nat.zero_le 2
  | case3 f t hf => cases h
  | case4 f g rest t hf =>
    cases h
    exact Nat.zero_le 2
  | case5 f g rest t hf ih =>
    obtain ⟨r, es₁, es₂, hr, hu, rfl⟩ := Traced.bind_eq_done_iff.1 h
    cases r with
    | settled w =>
      cases hu
      rw [List.append_nil]
      exact Frame.length_relieve_settled hr
    | raised w =>
      rw [Frame.events_relieve_raised hr, List.nil_append]
      exact ih w hu

theorem Tree.length_insert? {compare : α → α → Ordering} {v : α} {r : Option (Tree α)}
    (h : t.insert? compare v = .done r es) : es.length ≤ 2 ∧ (r = none → es = []) := by
  unfold Tree.insert? at h
  split at h
  · obtain ⟨w, es₁, es₂, hw, hu, rfl⟩ := Traced.bind_eq_done_iff.1 h
    cases hu
    rw [List.append_nil]
    exact ⟨Path.length_repairRed hw, nofun⟩
  · cases h
    exact ⟨Nat.zero_le 2, fun _ => rfl⟩

theorem Tree.length_expose (h : t.expose s = .done u es) : es.length ≤ 1 := by
  unfold Tree.expose at h
  split at h
  · cases h
    exact Nat.zero_le 1
  · exact Nat.le_of_eq (Tree.length_rotate h)

theorem Frame.length_borrow {r : Option (Frame α × Frame α)} (h : f.borrow = .done r es) :
    es.length ≤ 2 := by
  unfold Frame.borrow at h
  split at h
  · cases h
  · split at h
    · obtain ⟨upper, es₁, es₂, he, hx, rfl⟩ := Traced.bind_eq_done_iff.1 h
      obtain ⟨x, es₃, es₄, hr, hy, rfl⟩ := Traced.bind_eq_done_iff.1 hx
      cases hy
      rw [List.append_nil, List.length_append]
      exact Nat.add_le_add (Tree.length_expose he) (Nat.le_of_eq (Frame.length_rotate hr))
    · cases h
      exact Nat.zero_le 2

theorem Frame.length_refund {r : Refund α} (h : f.refund = .done r es) : es.length ≤ 3 := by
  unfold Frame.refund at h
  split at h
  · obtain ⟨x, es₁, es₂, hr, hx, rfl⟩ := Traced.bind_eq_done_iff.1 h
    obtain ⟨y, es₃, es₄, hb, hy, rfl⟩ := Traced.bind_eq_done_iff.1 hx
    have he : es₄ = [] := by cases y <;> cases hy <;> rfl
    rw [he, List.append_nil, List.length_append]
    exact Nat.add_le_add (Nat.le_of_eq (Frame.length_rotate hr)) (Frame.length_borrow hb)
  · obtain ⟨y, es₃, es₄, hb, hy, rfl⟩ := Traced.bind_eq_done_iff.1 h
    have he : es₄ = [] := by
      cases y with
      | none => cases hc : f.color <;> simp only [hc] at hy <;> cases hy <;> rfl
      | some y => cases hy; rfl
    rw [he, List.append_nil]
    exact Nat.le_trans (Frame.length_borrow hb) (by omega)

/-- A shortage is handed on from a black frame only, after a change of colours and nothing else. A
sibling that was red is out of the question: the rotation that replaced it left the frame red. -/
theorem Frame.events_refund_raised (h : f.refund = .done (.raised g) es) :
    f.sibling.isRed = false ∧ f.color = .black ∧ g = f.cede ∧ es = [] := by
  unfold Frame.refund at h
  split at h
  · obtain ⟨_, _, _, -, hx, -⟩ := Traced.bind_eq_done_iff.1 h
    obtain ⟨y, _, _, -, hy, -⟩ := Traced.bind_eq_done_iff.1 hx
    cases y <;> cases hy
  · rename_i hred
    obtain ⟨y, es₁, es₂, hb, hy, rfl⟩ := Traced.bind_eq_done_iff.1 h
    cases y with
    | none =>
      obtain ⟨rfl, -⟩ := Frame.hasRedChild_of_borrow_none hb
      cases hc : f.color with
      | red =>
        simp only [hc] at hy
        cases hy
      | black =>
        simp only [hc] at hy
        cases hy
        exact ⟨by simpa using hred, rfl, rfl, rfl⟩
    | some y => cases hy

theorem Path.length_repairDeficit (h : Path.repairDeficit p = .done q es) : es.length ≤ 3 := by
  induction p generalizing q es with
  | nil =>
    cases h
    exact Nat.zero_le 3
  | cons f rest ih =>
    obtain ⟨r, es₁, es₂, hr, hu, rfl⟩ := Traced.bind_eq_done_iff.1 h
    cases r with
    | settled frames =>
      cases hu
      rw [List.append_nil]
      exact Frame.length_refund hr
    | raised g =>
      obtain ⟨-, -, -, rfl⟩ := Frame.events_refund_raised hr
      obtain ⟨q', es₃, es₄, hq, he, rfl⟩ := Traced.bind_eq_done_iff.1 hu
      cases he
      rw [List.nil_append, List.append_nil]
      exact ih hq

theorem Path.length_splice (h : Path.splice p c t = .done u es) : es.length ≤ 3 := by
  unfold Path.splice at h
  split at h
  · cases h
    exact Nat.zero_le 3
  · obtain ⟨q, es₁, es₂, hq, hu, rfl⟩ := Traced.bind_eq_done_iff.1 h
    cases hu
    rw [List.append_nil]
    exact Path.length_repairDeficit hq
  · cases h
    exact Nat.zero_le 3

theorem Path.length_erase {l r : Tree α} (h : Path.erase p c l r = .done u es) :
    es.length ≤ 3 := by
  unfold Path.erase at h
  split at h
  · exact Path.length_splice h
  · split at h <;> exact Path.length_splice h

theorem Tree.length_take? {cut : α → Ordering} {r : Option (α × Tree α)}
    (h : t.take? cut = .done r es) : es.length ≤ 3 ∧ (r = none → es = []) := by
  unfold Tree.take? at h
  split at h
  · cases h
    exact ⟨Nat.zero_le 3, fun _ => rfl⟩
  · obtain ⟨u, es₁, es₂, hu, hr, rfl⟩ := Traced.bind_eq_done_iff.1 h
    cases hr
    rw [List.append_nil]
    exact ⟨Path.length_erase hu, nofun⟩

theorem Tree.length_takeExtreme? {r : Option (α × Tree α)}
    (h : t.takeExtreme? s = .done r es) : es.length ≤ 3 ∧ (r = none → es = []) := by
  unfold Tree.takeExtreme? at h
  split at h
  · cases h
    exact ⟨Nat.zero_le 3, fun _ => rfl⟩
  · obtain ⟨u, es₁, es₂, hu, hr, rfl⟩ := Traced.bind_eq_done_iff.1 h
    cases hr
    rw [List.append_nil]
    exact ⟨Path.length_splice hu, nofun⟩

end RedBlack
