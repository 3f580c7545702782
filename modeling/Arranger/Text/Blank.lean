/-!
# Blanks

A token may be surrounded by blanks that do not belong to it, and a group of numbers is
separated by blanks and commas.  The blanks are the Unicode white space together with the
four information separators U+001C to U+001F.
-/

namespace Arranger.Text

def isBlank (c : Char) : Bool :=
  let n := c.toNat
  (0x09 ≤ n && n ≤ 0x0D) || (0x1C ≤ n && n ≤ 0x20) || n == 0x85 || n == 0xA0 ||
    n == 0x1680 || (0x2000 ≤ n && n ≤ 0x200A) || n == 0x2028 || n == 0x2029 ||
    n == 0x202F || n == 0x205F || n == 0x3000

/-- The Unicode white space, without the information separators. -/
def isWhiteSpace (c : Char) : Bool :=
  isBlank c && !(0x1C ≤ c.toNat && c.toNat ≤ 0x1F)

/-- Removes the characters of a class from both ends. -/
def trim (p : Char → Bool) (s : List Char) : List Char :=
  ((s.dropWhile p).reverse.dropWhile p).reverse

def strip (s : List Char) : List Char := trim isBlank s

/-- Cuts a text at every separator; neighbouring separators leave empty pieces. -/
def splitOn {α : Type} (p : α → Bool) : List α → List (List α)
  | [] => [[]]
  | c :: rest =>
      if p c then [] :: splitOn p rest
      else match splitOn p rest with
        | [] => [[c]]
        | piece :: pieces => (c :: piece) :: pieces

/-- The maximal runs of characters outside a class of separators, in order. -/
def wordsBy (p : Char → Bool) (s : List Char) : List (List Char) :=
  (splitOn p s).filter (!·.isEmpty)

theorem splitOn_ne_nil {α : Type} (p : α → Bool) (s : List α) : splitOn p s ≠ [] := by
  cases s with
  | nil => simp [splitOn]
  | cons c rest =>
      unfold splitOn
      split
      · simp
      · split <;> simp

end Arranger.Text
