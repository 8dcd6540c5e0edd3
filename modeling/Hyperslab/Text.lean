/-!
# Texts of lists

One spelling is shared by every message that shows a list: its members in square brackets,
separated by a comma and a blank.
-/

namespace Hyperslab

/-- The texts in square brackets, as in `[4, 0]`. -/
def bracketed (texts : List String) : String :=
  "[" ++ ", ".intercalate texts ++ "]"

/-- The numbers in square brackets. -/
def bracketedNats (ns : List Nat) : String :=
  bracketed (ns.map toString)

end Hyperslab
