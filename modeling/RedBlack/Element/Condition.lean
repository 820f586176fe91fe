import RedBlack.Element.Comparators
import RedBlack.Settings

set_option autoImplicit false

namespace RedBlack

inductive Condition where
  | constant (answer : Bool)
  /-- The number leaves a remainder. -/
  | congruent (modulus remainder : Int)
  | less (bound : Element)
  | greater (bound : Element)
  | equal (value : Element)
  /-- Accepts every test whose number is a multiple of the period. -/
  | periodic (period tests : Nat)
  /-- Accepts the next so many tests. -/
  | initial (remaining : Nat)
  | negation (of : Condition)
  /-- Panics on a value. -/
  | refusing (value : Element) (of : Condition)

namespace Condition

def test : Condition → Element → Verdict × Condition
  | constant b, _ => (.ofBool b, constant b)
  | congruent m r, v => (.ofBool (v.num % m = r), congruent m r)
  | less b, v => (.ofBool (compare v b == .lt), less b)
  | greater b, v => (.ofBool (compare v b == .gt), greater b)
  | equal w, v => (.ofBool (v = w), equal w)
  | periodic k n, _ => (.ofBool ((n + 1) % k = 0), periodic k (n + 1))
  | initial n, _ => (.ofBool (0 < n), initial (n - 1))
  | negation c, v => ((c.test v).1.negate, negation (c.test v).2)
  | refusing w c, v =>
    if v = w then
      (.panic ("predicate refused " ++ Render.plain v), refusing w c)
    else
      ((c.test v).1, refusing w (c.test v).2)

instance : Predicate Condition Element := ⟨test⟩

def congruent? (modulus remainder : Int) : Option Condition :=
  if 0 < modulus then some (congruent modulus remainder) else none

def periodic? (period : Nat) : Option Condition :=
  if 0 < period then some (periodic period 0) else none

def initial? (count : Nat) : Option Condition :=
  if 0 < count then some (initial count) else none

end Condition
end RedBlack
