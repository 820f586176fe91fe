/-!
Lines of a text, and records with named fields as text. A line ends before a line feed, or before a
carriage return and a line feed; what follows the last line feed is a line only if it is not empty.
`lines_unlines` says which lines are found again after they have been put together.
-/

set_option autoImplicit false

namespace RedBlack

namespace Text

def lines : List Char → List (List Char)
  | [] => []
  | '\n' :: cs => [] :: lines cs
  | '\r' :: '\n' :: cs => [] :: lines cs
  | c :: cs =>
    match lines cs with
    | [] => [[c]]
    | l :: ls => (c :: l) :: ls

def unlines (ls : List (List Char)) : List Char := List.intercalate ['\n'] ls

def markLines (mark : List Char) (cs : List Char) : List Char :=
  unlines ((lines cs).map (mark ++ ·))

/-- Puts a mark after every line feed that is not the last character. -/
def hang (mark : List Char) : List Char → List Char
  | [] => []
  | c :: cs => if c = '\n' ∧ cs ≠ [] then c :: (mark ++ hang mark cs) else c :: hang mark cs

/-- A text that is one line: there is something in it, no line feed, and no carriage return at its
end, which would go with the line feed behind it. -/
def IsLine (l : List Char) : Prop := l ≠ [] ∧ '\n' ∉ l ∧ l.getLast? ≠ some '\r'

theorem IsLine.append_left {l : List Char} (h : IsLine l) {mark : List Char} (hm : '\n' ∉ mark) :
    IsLine (mark ++ l) := by
  obtain ⟨hne, hn, hr⟩ := h
  refine ⟨by simp [hne], by simp [hm, hn], ?_⟩
  simpa [List.getLast?_append, List.getLast?_eq_some_getLast hne] using hr

theorem lines_cons {c : Char} {cs l : List Char} {ls : List (List Char)} (hc : c ≠ '\n')
    (hr : c = '\r' → cs.head? ≠ some '\n') (h : lines cs = l :: ls) :
    lines (c :: cs) = (c :: l) :: ls := by
  rw [lines]
  · rw [h]
  · exact hc
  · rintro cs' rfl rfl
    exact hr rfl rfl

theorem exists_lines_cons {c : Char} (hc : c ≠ '\n') (hr : c ≠ '\r') (cs : List Char) :
    ∃ l ls, lines (c :: cs) = (c :: l) :: ls := by
  cases h : lines cs with
  | nil =>
    refine ⟨[], [], ?_⟩
    rw [lines]
    · rw [h]
    · exact hc
    · exact fun _ e => absurd e hr
  | cons l ls => exact ⟨l, ls, lines_cons hc (fun e => absurd e hr) h⟩

theorem lines_append_cons {m cs l : List Char} {ls : List (List Char)} (hn : '\n' ∉ m)
    (hr : '\r' ∉ m) (h : lines cs = l :: ls) : lines (m ++ cs) = (m ++ l) :: ls := by
  induction m with
  | nil => exact h
  | cons c m ih =>
    obtain ⟨hc, hm⟩ : '\n' ≠ c ∧ '\n' ∉ m := by simpa using hn
    obtain ⟨hcr, hmr⟩ : '\r' ≠ c ∧ '\r' ∉ m := by simpa using hr
    exact lines_cons (Ne.symm hc) (fun e => absurd e.symm hcr) (ih hm hmr)

theorem lines_append {l cs : List Char} {ls : List (List Char)} (h : IsLine l)
    (hend : ∀ c, c ≠ '\n' → c ≠ '\r' → lines (c :: cs) = [c] :: ls) :
    lines (l ++ cs) = l :: ls := by
  obtain ⟨hne, hn, hr⟩ := h
  induction l with
  | nil => exact absurd rfl hne
  | cons c l ih =>
    simp only [List.mem_cons, not_or] at hn
    obtain ⟨hc, hn⟩ := hn
    cases l with
    | nil => exact hend c (Ne.symm hc) (by simpa using hr)
    | cons d l =>
      have hd : d ≠ '\n' := fun hd => hn (hd ▸ List.mem_cons_self ..)
      exact lines_cons (Ne.symm hc) (fun _ => by simpa using hd)
        (ih (List.cons_ne_nil d l) hn (by simpa using hr))

theorem lines_append_newline {l : List Char} (h : IsLine l) (cs : List Char) :
    lines (l ++ '\n' :: cs) = l :: lines cs :=
  lines_append h fun _ hc hr => lines_cons hc (fun h => absurd h hr) rfl

theorem unlines_cons_cons (l m : List Char) (ls : List (List Char)) :
    unlines (l :: m :: ls) = l ++ '\n' :: unlines (m :: ls) := by
  simp [unlines, List.intercalate_cons_cons]

theorem unlines_append {ls ms : List (List Char)} (hl : ls ≠ []) (hm : ms ≠ []) :
    unlines (ls ++ ms) = unlines ls ++ '\n' :: unlines ms := by
  induction ls with
  | nil => exact absurd rfl hl
  | cons l ls ih =>
    cases ls with
    | nil =>
      obtain ⟨m, ms, rfl⟩ := List.exists_cons_of_ne_nil hm
      simp [unlines, List.intercalate_cons_cons]
    | cons k ls =>
      have hk := ih (List.cons_ne_nil k ls)
      simp only [List.cons_append] at hk ⊢
      rw [unlines_cons_cons, unlines_cons_cons, hk]
      simp

theorem lines_unlines {ls : List (List Char)} (h : ∀ l ∈ ls, IsLine l) :
    lines (unlines ls) = ls := by
  induction ls with
  | nil => rfl
  | cons l ls ih =>
    obtain ⟨hl, hls⟩ := List.forall_mem_cons.1 h
    cases ls with
    | nil =>
      have he : unlines [l] = l ++ [] := by simp [unlines]
      rw [he]
      refine lines_append hl fun c hc _ => ?_
      rw [lines]
      · rfl
      · exact hc
      · nofun
    | cons m ls => rw [unlines_cons_cons, lines_append_newline hl, ih hls]

theorem lines_unlines_newline {ls : List (List Char)} (h : ∀ l ∈ ls, IsLine l) (hne : ls ≠ [])
    (cs : List Char) : lines (unlines ls ++ '\n' :: cs) = ls ++ lines cs := by
  induction ls with
  | nil => exact absurd rfl hne
  | cons l ls ih =>
    obtain ⟨hl, hls⟩ := List.forall_mem_cons.1 h
    cases ls with
    | nil =>
      have he : unlines [l] = l := by simp [unlines]
      rw [he, lines_append_newline hl]
      rfl
    | cons m ls =>
      rw [unlines_cons_cons, List.append_assoc, List.cons_append, lines_append_newline hl,
        ih hls (List.cons_ne_nil m ls)]
      rfl

theorem hang_append (mark : List Char) {l : List Char} (h : '\n' ∉ l) (cs : List Char) :
    hang mark (l ++ cs) = l ++ hang mark cs := by
  induction l with
  | nil => rfl
  | cons c l ih =>
    obtain ⟨hc, hl⟩ : '\n' ≠ c ∧ '\n' ∉ l := by simpa using h
    simp [hang, Ne.symm hc, ih hl]

theorem hang_newline (mark : List Char) {cs : List Char} (h : cs ≠ []) :
    hang mark ('\n' :: cs) = '\n' :: (mark ++ hang mark cs) := by
  simp [hang, h]

theorem hang_unlines (mark : List Char) {ls : List (List Char)} {cs : List Char}
    (h : ∀ l ∈ ls, '\n' ∉ l) (hne : ls ≠ []) (hcs : cs ≠ []) :
    mark ++ hang mark (unlines ls ++ '\n' :: cs) =
      unlines (ls.map (mark ++ ·)) ++ '\n' :: (mark ++ hang mark cs) := by
  induction ls with
  | nil => exact absurd rfl hne
  | cons l ls ih =>
    obtain ⟨hl, hls⟩ := List.forall_mem_cons.1 h
    cases ls with
    | nil => simp [unlines, hang_append mark hl, hang_newline mark hcs]
    | cons m ls =>
      have hm := ih hls (List.cons_ne_nil m ls)
      simp only [List.map_cons, unlines_cons_cons, List.append_assoc, List.cons_append] at hm ⊢
      rw [hang_append mark hl, hang_newline mark (by simp), hm]

inductive Style where
  | compact | expanded
  deriving DecidableEq

structure Record where
  name : String
  fields : List (String × String)

def indent : List Char := "    ".toList

/-- One field on lines of its own; every line of its value moves in with it. -/
def Record.fieldLines (f : String × String) : String :=
  String.ofList (indent ++ hang indent (f.1 ++ ": " ++ f.2 ++ ",\n").toList)

def Record.render (r : Record) : Style → String
  | .compact =>
    r.name ++ " \x7b " ++ ", ".intercalate (r.fields.map fun f => f.1 ++ ": " ++ f.2) ++ " \x7d"
  | .expanded => r.name ++ " \x7b\n" ++ String.join (r.fields.map fieldLines) ++ "\x7d"

def escape (c : Char) : List Char :=
  match c with
  | '"' => ['\\', '"']
  | '\\' => ['\\', '\\']
  | '\n' => ['\\', 'n']
  | '\r' => ['\\', 'r']
  | '\t' => ['\\', 't']
  | '\x00' => ['\\', '0']
  | c => [c]

def quoted (s : String) : String := String.ofList ('"' :: s.toList.flatMap escape ++ ['"'])

end Text

class Render (α : Type) where
  plain : α → String
  debug : α → String

end RedBlack
