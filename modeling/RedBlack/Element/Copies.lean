import RedBlack.Element.Comparators

set_option autoImplicit false

namespace RedBlack.Element

/-- Adds one to an integer, around the end, and a stroke to a string or a tag. -/
def increment : Element → Element
  | int n => int (n + 1)
  | str s => str (s ++ "\x27")
  | pair k tag => pair k (tag ++ "\x27")

/-- Changes the sign of a number, around the end, and the direction of a string. -/
def invert : Element → Element
  | int n => int (-n)
  | str s => str (String.ofList s.toList.reverse)
  | pair k tag => pair (-k) tag

def copies : List (String × (Element → Element)) :=
  [("copy", id), ("inc", increment), ("neg", invert), ("const", fun _ => int 0)]

end RedBlack.Element
