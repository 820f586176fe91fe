import RedBlack.Arena.Traversal
import RedBlack.OrderedSet.Action
import RedBlack.Proofs.Arena.InOrder
import RedBlack.Proofs.OrderedSet.Reached
import RedBlack.Text

/-!
What the text of a set that draws its tree tells about the tree. Every line of a drawing is that of
one place in the tree, a node or an absent link: a mark for every turn on the way there, and then
what is there. The line of the root is the only one without a mark, so it tells the lines of the two
subtrees apart.
-/

set_option autoImplicit false

namespace RedBlack

namespace Text

def Style.margin : Style → List Char
  | .compact => []
  | .expanded => indent

def Record.opening (name : String) : Style → List Char
  | .compact => (name ++ " \x7b ").toList
  | .expanded => (name ++ " \x7b\n").toList ++ indent

theorem Record.toList_fieldLines {key : String} {ls : List (List Char)} (hkey : '\n' ∉ key.toList)
    (hls : ∀ l ∈ ls, '\n' ∉ l) (hne : ls ≠ []) :
    (fieldLines (key, "\n" ++ String.ofList (unlines ls) ++ "\n")).toList =
      indent ++ (key.toList ++ [':', ' ', '\n'] ++
        (unlines (ls.map (indent ++ ·)) ++ '\n' :: (indent ++ [',', '\n']))) := by
  have hk : '\n' ∉ key.toList ++ [':', ' '] := by simp [hkey]
  have h := hang_append indent hk ('\n' :: (unlines ls ++ ['\n', ',', '\n']))
  rw [hang_newline _ (by simp), hang_unlines indent hls hne (by simp)] at h
  simpa [fieldLines, hang] using h

theorem Record.exists_render {r : Record} {key : String} {ls : List (List Char)}
    {f : String × String} {fs : List (String × String)}
    (hr : r.fields = (key, "\n" ++ String.ofList (unlines ls) ++ "\n") :: f :: fs)
    (hkey : '\n' ∉ key.toList) (hls : ∀ l ∈ ls, '\n' ∉ l) (hne : ls ≠ []) (style : Style) :
    ∃ rest, (r.render style).toList = opening r.name style ++ (key.toList ++ [':', ' ', '\n'] ++
      (unlines (ls.map (style.margin ++ ·)) ++ '\n' :: (style.margin ++ ',' :: rest))) := by
  cases style with
  | compact => exact ⟨_, by simp [render, hr, Style.margin, opening]; rfl⟩
  | expanded =>
    have h := toList_fieldLines hkey hls hne
    exact ⟨_, by simp [render, hr, Style.margin, opening, h]; rfl⟩

/-- The lines up to one that starts with a comma, without their margin. -/
def readField (style : Style) (cs : List Char) : List (List Char) :=
  ((lines cs).map (List.drop style.margin.length)).takeWhile fun l => l.head? ≠ some ','

theorem readField_unlines {ls : List (List Char)} (h : ∀ l ∈ ls, IsLine l)
    (hc : ∀ l ∈ ls, l.head? ≠ some ',') (hne : ls ≠ []) (style : Style) (rest : List Char) :
    readField style (unlines (ls.map (style.margin ++ ·)) ++
      '\n' :: (style.margin ++ ',' :: rest)) = ls := by
  have hn : '\n' ∉ style.margin := by cases style <;> decide
  have hr : '\r' ∉ style.margin := by cases style <;> decide
  have hls : ∀ l ∈ ls.map (style.margin ++ ·), IsLine l := by
    intro l hl
    obtain ⟨k, hk, rfl⟩ := List.mem_map.1 hl
    exact (h k hk).append_left hn
  obtain ⟨k, ks, hcomma⟩ := exists_lines_cons (c := ',') (by decide) (by decide) rest
  have hdrop : (ls.map (style.margin ++ ·)).map (List.drop style.margin.length) = ls := by
    simp [Function.comp_def]
  rw [readField, lines_unlines_newline hls (by simpa using hne), lines_append_cons hn hr hcomma,
    List.map_append, hdrop, List.takeWhile_append_of_pos (by simpa using hc)]
  simp

end Text

variable {α β : Type}

open Text

def Drawing.line (text : α → String) : List Side × Option (Color × α) → List Char
  | (way, none) => way.flatMap mark ++ ['-']
  | (way, some (c, v)) => way.flatMap mark ++ label text c v

namespace Drawing
variable {text : α → String} {text' : β → String}

theorem line_cons (s : Side) (x : List Side × Option (Color × α)) :
    line text (s :: x.1, x.2) = mark s ++ line text x := by
  obtain ⟨way, _ | ⟨c, v⟩⟩ := x <;> simp [line]

theorem newline_notMem_mark (s : Side) : '\n' ∉ mark s := by
  cases s <;> decide

theorem isLine_label {v : α} (h : '\n' ∉ (text v).toList) (c : Color) :
    IsLine (label text c v) := by
  refine ⟨by simp [label], ?_, by simp [label, List.getLast?_cons, List.getLast?_append]⟩
  cases c <;> simp [label, h, Color.letter]

theorem isLine_line {x : List Side × Option (Color × α)}
    (h : ∀ y ∈ x.2, '\n' ∉ (text y.2).toList) : IsLine (line text x) := by
  obtain ⟨way, y⟩ := x
  have hway : '\n' ∉ way.flatMap mark := by
    intro hm
    obtain ⟨s, -, hs⟩ := List.mem_flatMap.1 hm
    exact newline_notMem_mark s hs
  cases y with
  | none => exact IsLine.append_left ⟨by simp, by decide, by decide⟩ hway
  | some y => exact (isLine_label (h y rfl) y.1).append_left hway

/-- The colour is the last letter but one, whatever stands in the text before it. -/
theorem label_inj {c d : Color} {v : α} {w : β} (h : label text c v = label text' d w) :
    c = d ∧ text v = text' w := by
  obtain ⟨ht, hc⟩ := List.append_inj' (List.tail_eq_of_cons_eq h) rfl
  refine ⟨?_, String.toList_injective ht⟩
  cases c <;> cases d <;> simp_all [Color.letter]

theorem label_notMem_map_mark (text : α → String) (c : Color) (v : α) (s : Side)
    (ls : List (List Char)) : label text c v ∉ ls.map (mark s ++ ·) := by
  intro h
  obtain ⟨l, -, hl⟩ := List.mem_map.1 h
  cases s <;> exact absurd (List.cons.inj hl).1 (by decide)

theorem head?_line (text : α → String) (x : List Side × Option (Color × α)) :
    (line text x).head? ≠ some ',' := by
  obtain ⟨_ | ⟨_ | _, way⟩, _ | ⟨c, v⟩⟩ := x <;> simp [line, label, mark]

end Drawing

namespace Tree
variable {text : α → String} {text' : β → String} {t : Tree α} {u : Tree β}

theorem isLine_of_mem_places (h : ∀ v ∈ t.toList, '\n' ∉ (text v).toList)
    {x : List Side × Option (Color × α)} (hx : x ∈ t.places) : IsLine (Drawing.line text x) := by
  obtain ⟨way, y⟩ := x
  refine Drawing.isLine_line ?_
  rintro ⟨c, v⟩ rfl
  exact h v (mem_toList_of_mem_places hx)

/-- The lines of a tree's places. -/
def rows (text : α → String) (t : Tree α) : List (List Char) :=
  t.places.map (Drawing.line text)

theorem rows_node (c : Color) (l : Tree α) (v : α) (r : Tree α) :
    (node c l v r).rows text = (l.rows text).map (Drawing.mark .left ++ ·) ++
      Drawing.label text c v :: (r.rows text).map (Drawing.mark .right ++ ·) := by
  simp only [rows, places, List.map_append, List.map_cons, List.map_map]
  have h (s : Side) : (Drawing.line text ∘ fun x => (s :: x.1, x.2)) =
      (Drawing.mark s ++ ·) ∘ Drawing.line text := funext fun x => Drawing.line_cons s x
  rw [h, h]
  rfl

theorem rows_ne_nil (t : Tree α) : t.rows text ≠ [] := by
  cases t <;> simp [rows, places]

theorem isLine_rows (h : ∀ v ∈ t.toList, '\n' ∉ (text v).toList) : ∀ l ∈ t.rows text, IsLine l := by
  intro l hl
  obtain ⟨x, hx, rfl⟩ := List.mem_map.1 hl
  exact isLine_of_mem_places h hx

/-- A drawing is put together of the lines of the places, if no text goes on to another line. -/
theorem draw_eq_unlines (h : ∀ v ∈ t.toList, '\n' ∉ (text v).toList) :
    t.draw text = unlines (t.rows text) := by
  induction t with
  | nil => rfl
  | node c l v r hl hr =>
    have h₁ : ∀ v ∈ l.toList, '\n' ∉ (text v).toList := fun v hv => h v (by simp [hv])
    have h₂ : ∀ v ∈ r.toList, '\n' ∉ (text v).toList := fun v hv => h v (by simp [hv])
    have e₁ : (l.rows text).map (Drawing.mark .left ++ ·) ≠ [] := by simp [rows_ne_nil]
    have e₂ : (r.rows text).map (Drawing.mark .right ++ ·) ≠ [] := by simp [rows_ne_nil]
    obtain ⟨m, ms, hm⟩ := List.exists_cons_of_ne_nil e₂
    rw [draw, Drawing.join, markLines, markLines, hl h₁, hr h₂, lines_unlines (isLine_rows h₁),
      lines_unlines (isLine_rows h₂), rows_node, unlines_append e₁ (by simp), hm, unlines_cons_cons]
    simp

theorem lines_draw (h : ∀ v ∈ t.toList, '\n' ∉ (text v).toList) :
    lines (t.draw text) = t.rows text := by
  rw [draw_eq_unlines h, lines_unlines (isLine_rows h)]

theorem map_eq_of_rows_eq (h : t.rows text = u.rows text') : t.map text = u.map text' := by
  induction t generalizing u with
  | nil =>
    cases u with
    | nil => rfl
    | node d l' w r' =>
      have hlen := congrArg List.length h
      simp [rows, length_places, count] at hlen
  | node c l v r hl hr =>
    cases u with
    | nil =>
      have hlen := congrArg List.length h
      simp [rows, length_places, count] at hlen
    | node d l' w r' =>
      rw [rows_node, rows_node] at h
      have hroot := Drawing.label_notMem_map_mark text' d w
      obtain ⟨h₁, h₂, h₃⟩ := (List.append_cons_inj_of_notMem (hroot _ _) (hroot _ _)).1 h
      obtain ⟨rfl, hv⟩ := Drawing.label_inj h₂
      have hmark (s : Side) : Function.Injective (List.map (Drawing.mark s ++ ·)) :=
        List.map_injective_iff.2 (List.append_right_injective _)
      rw [map, map, hl (hmark .left h₁), hv, hr (hmark .right h₃)]

theorem map_eq_of_draw_eq (h : ∀ v ∈ t.toList, '\n' ∉ (text v).toList)
    (h' : ∀ v ∈ u.toList, '\n' ∉ (text' v).toList) (e : t.draw text = u.draw text') :
    t.map text = u.map text' := by
  refine map_eq_of_rows_eq ?_
  rw [← lines_draw h, ← lines_draw h', e]

end Tree

namespace OrderedSet
variable [Render α] [Render β] {s : OrderedSet α} {s' : OrderedSet β} {t : Tree α} {u : Tree β}

theorem exists_record (h : s.tree.Shows t) (hn : ∀ v ∈ t.toList, '\n' ∉ (Render.debug v).toList) :
    ∃ r, s.record = .ok r ∧ r.name = "OrderedSet" ∧
      r.fields.head? = some ("nodes", "\n" ++ String.ofList (t.draw Render.debug) ++ "\n") ∧
      ∀ style, ∃ cs,
        (r.render style).toList = Record.opening r.name style ++ ("nodes: \n".toList ++ cs) ∧
        readField style cs = t.rows Render.debug := by
  obtain ⟨r, hr, hname, hfields⟩ : ∃ r, s.record = .ok r ∧ r.name = "OrderedSet" ∧
      r.fields = [("nodes", "\n" ++ String.ofList (unlines (t.rows Render.debug)) ++ "\n"),
        ("len", toString s.size), ("version", toString s.version),
        ("concurrent", toString s.settings.concurrent)] := by
    rw [record, h.draw, ok_bind, Tree.draw_eq_unlines hn]
    exact ⟨_, rfl, rfl, rfl⟩
  have hls := Tree.isLine_rows hn
  refine ⟨r, hr, hname, by rw [hfields, Tree.draw_eq_unlines hn]; rfl, fun style => ?_⟩
  obtain ⟨rest, hrest⟩ := Record.exists_render hfields (by decide) (fun l hl => (hls l hl).2.1)
    t.rows_ne_nil style
  refine ⟨_, hrest, readField_unlines hls ?_ t.rows_ne_nil style rest⟩
  intro l hl
  obtain ⟨x, -, rfl⟩ := List.mem_map.1 hl
  exact Drawing.head?_line _ x

/-- Two trees of whatever shapes have one drawing, or sets with them one text, only if their shapes,
their colours and the texts of their values are the same. A drawing has a line for every place that
the links lead to, in order. -/
theorem faithful_drawing (h : s.tree.Shows t) (h' : s'.tree.Shows u)
    (hn : ∀ n ∈ s.tree.nodes, '\n' ∉ (Render.debug n.value).toList)
    (hn' : ∀ n ∈ s'.tree.nodes, '\n' ∉ (Render.debug n.value).toList) :
    ∃ d d' r r', s.tree.draw Render.debug = .ok d ∧ s'.tree.draw Render.debug = .ok d' ∧
      s.record = .ok r ∧ s'.record = .ok r' ∧
      r.fields.head? = some ("nodes", "\n" ++ String.ofList d ++ "\n") ∧
      (d = d' → t.map Render.debug = u.map Render.debug) ∧
      (∀ style, r.render style = r'.render style → t.map Render.debug = u.map Render.debug) ∧
      ∃ ps, s.tree.HasPlaces ps ∧ lines d = ps.map (Drawing.line Render.debug) := by
  have ht : ∀ v ∈ t.toList, '\n' ∉ (Render.debug v).toList := h.forall_mem_toList hn
  have hu : ∀ v ∈ u.toList, '\n' ∉ (Render.debug v).toList := h'.forall_mem_toList hn'
  obtain ⟨r, hr, hname, hfield, hread⟩ := exists_record h ht
  obtain ⟨r', hr', hname', -, hread'⟩ := exists_record h' hu
  refine ⟨_, _, r, r', h.draw _, h'.draw _, hr, hr', hfield, Tree.map_eq_of_draw_eq ht hu,
    fun style e => ?_, t.places, h.hasPlaces, Tree.lines_draw ht⟩
  obtain ⟨cs, hcs, hrows⟩ := hread style
  obtain ⟨cs', hcs', hrows'⟩ := hread' style
  have e' := congrArg String.toList e
  rw [hcs, hcs', hname, hname'] at e'
  have hsame : cs = cs' := List.append_cancel_left (List.append_cancel_left e')
  refine Tree.map_eq_of_rows_eq ?_
  rw [← hrows, ← hrows', hsame]

def pairsRun (vs : List Element) : Traced Event (OrderedSet Element) :=
  filled ⟨⟨"Key", .custom, Element.byKey⟩, none, false⟩ vs

/-- Tags that look like parts of a drawing, or end with a carriage return, put in two orders that
end with different arenas and one drawing. -/
theorem faithful_drawing_pairsRun :
    ∃ s s' es es' d t u,
      pairsRun [.pair 2 "┌    (", .pair 1 ": B)\r", .pair 3 "-"] = .done s es ∧
      pairsRun [.pair 1 ": B)\r", .pair 2 "┌    (", .pair 3 "-"] = .done s' es' ∧
      s.tree.root ≠ s'.tree.root ∧ s.tree.draw Render.debug = .ok d ∧
      s'.tree.draw Render.debug = .ok d ∧ (lines d).length = 7 ∧ s.tree.Shows t ∧
      s'.tree.Shows u ∧ t.map Render.debug = u.map Render.debug := by
  obtain ⟨s, s', es, es', d, e, e', hroot, hd, hd', hlen, hn, hn'⟩ :
      ∃ s s' es es' d,
        pairsRun [.pair 2 "┌    (", .pair 1 ": B)\r", .pair 3 "-"] = .done s es ∧
        pairsRun [.pair 1 ": B)\r", .pair 2 "┌    (", .pair 3 "-"] = .done s' es' ∧
        s.tree.root ≠ s'.tree.root ∧ s.tree.draw Render.debug = .ok d ∧
        s'.tree.draw Render.debug = .ok d ∧ (lines d).length = 7 ∧
        (∀ n ∈ s.tree.nodes, '\n' ∉ (Render.debug n.value).toList) ∧
        ∀ n ∈ s'.tree.nodes, '\n' ∉ (Render.debug n.value).toList :=
    ⟨_, _, _, _, _, rfl, rfl, by decide, rfl, rfl, by decide, by decide, by decide⟩
  obtain ⟨t, ht⟩ := (reached_filled e).isSound
  obtain ⟨u, hu⟩ := (reached_filled e').isSound
  obtain ⟨_, _, _, _, h₁, h₂, -, -, -, hsame, -⟩ := faithful_drawing ht.shows hu.shows hn hn'
  cases hd.symm.trans h₁
  cases hd'.symm.trans h₂
  exact ⟨s, s', es, es', d, t, u, e, e', hroot, hd, hd', hlen, ht.shows, hu.shows, hsame rfl⟩

end OrderedSet
end RedBlack
