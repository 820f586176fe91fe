import RedBlack.Settings
import RedBlack.Text

/-!
Elements: integers of 64 bits, strings, and pairs of an integer and a tag. Every integer comes
before every string, and every string before every pair. The last five comparators are no orders:
one that always gives the same answer, one that goes round in a circle, and one that looks at its
first argument alone.
-/

set_option autoImplicit false

namespace RedBlack

inductive Element where
  | int (n : Int64)
  | str (s : String)
  | pair (k : Int64) (tag : String)
  deriving DecidableEq

namespace Element

def num : Element → Int
  | int n => n.toInt
  | pair k _ => k.toInt
  | str s => s.utf8ByteSize

def text : Element → String
  | int n => toString n.toInt
  | str s => s
  | pair _ tag => tag

protected def compare : Element → Element → Ordering
  | int a, int b => compare a.toInt b.toInt
  | int _, _ => .lt
  | str _, int _ => .gt
  | str a, str b => compare a b
  | str _, pair .. => .lt
  | pair a s, pair b t => (compare a.toInt b.toInt).then (compare s t)
  | pair .., _ => .gt

instance : Ord Element := ⟨Element.compare⟩

instance : Render Element where
  plain
    | int n => toString n.toInt
    | str s => s
    | pair k tag => toString k.toInt ++ ":" ++ tag
  debug
    | int n => toString n.toInt
    | str s => Text.quoted s
    | pair k tag => toString k.toInt ++ ":" ++ tag

/-- The integers from `start` on, by steps of `step`, up to but without `stop`. There are none if a
step leads nowhere. -/
def range (start stop step : Int) : List Element :=
  if step = 0 then
    []
  else
    let distance := if 0 < step then stop - start else start - stop
    let count := (distance.toNat + (step.natAbs - 1)) / step.natAbs
    (List.range count).map fun (i : Nat) => int (start + i * step).toInt64

def byReverse (a b : Element) : Ordering := compare b a

def byAbs (a b : Element) : Ordering := compare a.num.natAbs b.num.natAbs

def byMod10 (a b : Element) : Ordering := compare (a.num % 10) (b.num % 10)

def byKey (a b : Element) : Ordering := compare a.num b.num

def byNocase (a b : Element) : Ordering :=
  compare (a.text.map Char.toLower) (b.text.map Char.toLower)

def byLength (a b : Element) : Ordering :=
  (compare a.text.utf8ByteSize b.text.utf8ByteSize).then (compare a.text b.text)

/-- Each remainder modulo three comes before the next one. -/
def byCycle (a b : Element) : Ordering :=
  match (b.num % 3 - a.num % 3) % 3 with
  | 0 => .eq
  | 1 => .lt
  | _ => .gt

/-- Different numbers are in the order that the parity of the first one says. -/
def byParity (a b : Element) : Ordering :=
  if a.num = b.num then .eq else if a.num % 2 = 0 then .lt else .gt

def comparators : List (String × Comparator Element) :=
  [("natural", .natural Element),
    ("reverse", ⟨"Reverse", .custom, byReverse⟩),
    ("abs", ⟨"Abs", .custom, byAbs⟩),
    ("mod10", ⟨"Mod10", .custom, byMod10⟩),
    ("key", ⟨"Key", .custom, byKey⟩),
    ("nocase", ⟨"Nocase", .custom, byNocase⟩),
    ("length", ⟨"Length", .custom, byLength⟩),
    ("equal", ⟨"Equal", .custom, fun _ _ => .eq⟩),
    ("less", ⟨"Less", .custom, fun _ _ => .lt⟩),
    ("greater", ⟨"Greater", .custom, fun _ _ => .gt⟩),
    ("cyclic", ⟨"Cyclic", .custom, byCycle⟩),
    ("lopsided", ⟨"Lopsided", .custom, byParity⟩)]

def rank : Element → Nat
  | int _ => 0
  | str _ => 1
  | pair .. => 2

def key : Element → Int
  | int n => n.toInt
  | str _ => 0
  | pair k _ => k.toInt

def label : Element → String
  | int _ => ""
  | str s => s
  | pair _ tag => tag

theorem compare_eq_lex : (Ord.compare : Element → Element → Ordering) =
    compareLex (compareOn rank) (compareLex (compareOn key) (compareOn label)) := by
  funext a b
  change Element.compare a b = _
  cases a <;> cases b <;> simp [Element.compare, compareLex, compareOn, rank, key, label] <;> rfl

instance : Std.TransOrd Element := by
  rw [Std.TransOrd, compare_eq_lex]
  infer_instance

instance : Std.LawfulEqOrd Element where
  eq_of_compare {a b} h := by
    change Element.compare a b = .eq at h
    cases a with
    | int m =>
      cases b with
      | int n => exact congrArg int (Int64.toInt_inj.1 (Std.LawfulEqOrd.eq_of_compare h))
      | str | pair => cases h
    | str s =>
      cases b with
      | str t => exact congrArg str (Std.LawfulEqOrd.eq_of_compare h)
      | int | pair => cases h
    | pair j s =>
      cases b with
      | pair k t =>
        obtain ⟨hk, ht⟩ := Ordering.then_eq_eq.1 h
        rw [Int64.toInt_inj.1 (Std.LawfulEqOrd.eq_of_compare hk),
          Std.LawfulEqOrd.eq_of_compare ht]
      | int | str => cases h

instance : Std.TransCmp byReverse :=
  inferInstanceAs (Std.TransCmp fun a b : Element => Ord.compare b a)

instance : Std.LawfulEqCmp byReverse where
  compare_self := Std.ReflCmp.compare_self
  eq_of_compare h := (Std.LawfulEqOrd.eq_of_compare h).symm

instance : Std.TransCmp byAbs :=
  inferInstanceAs (Std.TransCmp (compareOn fun a : Element => a.num.natAbs))

end Element
end RedBlack
