/-!
# Columns of text
-/

namespace NoisyCover.Text

/-- A text with blanks before it up to a width. -/
def toRight (width : Nat) (s : String) : String :=
  String.ofList (List.replicate (width - s.length) ' ') ++ s

/-- A text with blanks after it up to a width. -/
def toLeft (width : Nat) (s : String) : String :=
  s ++ String.ofList (List.replicate (width - s.length) ' ')

def truth (b : Bool) : String := if b then "True" else "False"

end NoisyCover.Text
