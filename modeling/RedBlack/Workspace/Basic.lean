import RedBlack.Workspace.Request

/-!
Workspaces: containers and cursors in named slots, and requests about them. A request names its
slots first, then the kind of container decides whether it can be carried out, and last its other
parts have to make sense; the first of these that is wrong refuses it.
-/

set_option autoImplicit false

namespace RedBlack

structure Store (β : Type) where
  slots : List (String × β)

namespace Store
variable {β : Type}

def empty : Store β := ⟨[]⟩

def get? (s : Store β) (name : String) : Option β := s.slots.lookup name

def erase (s : Store β) (name : String) : Store β := ⟨s.slots.filter fun slot => slot.1 != name⟩

def put (s : Store β) (name : String) (b : β) : Store β := ⟨(name, b) :: (s.erase name).slots⟩

theorem get?_put_self (s : Store β) (name : String) (b : β) :
    (s.put name b).get? name = some b := by simp [put, get?]

theorem get?_erase_other (s : Store β) {name other : String} (h : other ≠ name) :
    (s.erase name).get? other = s.get? other := by
  obtain ⟨slots⟩ := s
  simp only [erase, get?]
  induction slots with
  | nil => rfl
  | cons slot slots ih =>
    obtain ⟨key, b⟩ := slot
    by_cases hk : key = name
    · subst hk
      have ho : (other == key) = false := by simpa using h
      simpa [List.lookup_cons, ho] using ih
    · simp [List.lookup_cons, hk, ih]

theorem get?_put_other (s : Store β) {name other : String} (b : β) (h : other ≠ name) :
    (s.put name b).get? other = s.get? other := by
  have ho : (other == name) = false := by simpa using h
  rw [← get?_erase_other s h]
  simp [put, get?, List.lookup_cons, ho]

theorem get?_erase_self (s : Store β) (name : String) : (s.erase name).get? name = none := by
  simp only [erase, get?, List.lookup_eq_none_iff, List.mem_filter, bne_iff_ne]
  intro slot h
  simpa using Ne.symm h.2

end Store

structure Workspace (α π : Type) where
  sets : Store (Container α)
  cursors : Store (Cursor π)
  /-- The identity of the next set. -/
  nextId : Nat

namespace Workspace
variable {α π : Type}

def empty : Workspace α π := ⟨.empty, .empty, 0⟩

abbrev Step (α π : Type) := Outcome α × Workspace α π

def refuse (w : Workspace α π) (r : Refusal) : Traced Event (Step α π) := return (.refused r, w)

def reply (w : Workspace α π) (r : Reply α) : Traced Event (Step α π) := return (.replied r, w)

def store (w : Workspace α π) (name : String) (c : Container α) : Workspace α π :=
  { w with sets := w.sets.put name c }

def relocate (w : Workspace α π) (source target : String) (c : Container α) : Workspace α π :=
  { w with sets := (w.sets.erase source).put target c }

def withSet (w : Workspace α π) (name : Option String)
    (go : String → Container α → Traced Event (Step α π)) : Traced Event (Step α π) :=
  match name with
  | none => w.refuse .badInput
  | some name =>
    match w.sets.get? name with
    | none => w.refuse .noSuchSet
    | some c => go name c

def withPart {β : Type} (w : Workspace α π) (part : Option β) (go : β → Traced Event (Step α π)) :
    Traced Event (Step α π) :=
  match part with
  | none => w.refuse .badInput
  | some b => go b

def withHolder (w : Workspace α π) (c : Container α) (go : Holder α → Traced Event (Step α π)) :
    Traced Event (Step α π) :=
  match c.holder? with
  | none => w.refuse .unsupported
  | some h => go h

/-- Makes a container and fills it. Only ordered sets take an order of their own. -/
def create [BEq α] (w : Workspace α π) (name : String) (r : Recipe α) : Traced Event (Step α π) :=
  let empty? : Option (Container α) :=
    match r.kind, r.settings.comparator.family with
    | .plain, _ => some (.ordered (.plain (.empty w.nextId r.settings)))
    | .shared, _ => some (.ordered (.shared (.share (.empty w.nextId r.settings))))
    | .sorted, .natural => some (.sorted ⟨r.settings.comparator, []⟩)
    | .unordered, .natural => some (.unordered ⟨[]⟩)
    | _, .custom => none
  w.withPart empty? fun c => do
    let (_, c) ← c.insertMany r.items
    return (.replied .done, { w.store name c with nextId := w.nextId + 1 })

def visited [Predicate π α] (p : π) : List α → Except Failure (List α)
  | [] => .ok []
  | v :: vs =>
    match Predicate.test p v with
    | (.accept, p) => (visited p vs).map (v :: ·)
    | (.reject, _) => .ok [v]
    | (.panic m, _) => .error (.predicate m)

def removeEach [Predicate π α] (h : Holder α) : List α → Traced Event (List Char × Holder α)
  | [] => return ([], h)
  | v :: vs => do
    let (outcome, h) ← h.update (π := π) (.remove v)
    let (marks, h) ← removeEach h vs
    match outcome with
    | .ok (.flag true) => return ('1' :: marks, h)
    | _ => return ('0' :: marks, h)

def content [Render α] (h : Holder α) : Detail → Except Fault (Content α)
  | .sizes => .ok .none
  | .items => h.inner.elements.map .items
  | .drawing => return .drawing ((← h.record).render .compact)

def portrait [Render α] (h : Holder α) (d : Detail) : Except Fault (Portrait α) :=
  (content h d).map fun c => ⟨h.inner.size, h.inner.version, c⟩

def query [Render α] (w : Workspace α π) (h : Holder α) (q : Query α) :
    Traced Event (Step α π) := do
  return (.ofExcept (← h.ask q), w)

def askEach [Render α] (h : Holder α) :
    List (Query α) → Traced Event (Except Failure (List (Reply α)))
  | [] => return .ok []
  | q :: qs => do
    match ← h.ask q with
    | .error e => return .error e
    | .ok r => return (← askEach h qs).map (r :: ·)

end Workspace
end RedBlack
