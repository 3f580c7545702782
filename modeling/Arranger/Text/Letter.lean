/-!
# ASCII letters

The names of the library hold ASCII letters and digits.  They are compared without regard to case
by folding ASCII capitals; no other character folds to a letter that occurs in such a name.
-/

namespace Arranger.Text

def isLowerLetter (c : Char) : Bool := 'a' ≤ c && c ≤ 'z'

def isUpperLetter (c : Char) : Bool := 'A' ≤ c && c ≤ 'Z'

def isLetter (c : Char) : Bool := isLowerLetter c || isUpperLetter c

def asciiLower (c : Char) : Char :=
  if isUpperLetter c then Char.ofNat (c.toNat + 32) else c

def lowered (s : List Char) : List Char := s.map asciiLower

end Arranger.Text
