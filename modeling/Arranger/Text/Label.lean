/-!
# Texts with surrogates

An escape sequence can put a code point into a text that is half of a surrogate pair and no
character.  Such a text is broken: it can be kept and compared, but no encoding writes it.  A label
is a text that may be broken.
-/

namespace Arranger

inductive CodePoint where
  | char (c : Char)
  /-- A surrogate, counted from the first one. -/
  | surrogate (half : Fin 0x800)
  deriving DecidableEq, Repr

namespace CodePoint

instance : Coe Char CodePoint := ⟨char⟩

def toNat : CodePoint → Nat
  | char c => c.toNat
  | surrogate half => 0xD800 + half.val

def isChar : CodePoint → Bool
  | char _ => true
  | surrogate _ => false

def char? : CodePoint → Option Char
  | char c => some c
  | surrogate _ => none

end CodePoint

/-- Characters as code points. -/
def pointsOf (s : List Char) : List CodePoint := s.map .char

@[simp]
theorem pointsOf_nil : pointsOf [] = [] := rfl

@[simp]
theorem pointsOf_cons (c : Char) (s : List Char) : pointsOf (c :: s) = .char c :: pointsOf s := rfl

@[simp]
theorem pointsOf_append (s t : List Char) : pointsOf (s ++ t) = pointsOf s ++ pointsOf t :=
  List.map_append

/-- A text with its first surrogate and what is in front of it. -/
structure BrokenText where
  front : String
  first : Fin 0x800
  rest : List CodePoint
  deriving DecidableEq, Repr

inductive Label where
  | text (s : String)
  | broken (t : BrokenText)
  deriving DecidableEq, Repr

namespace Label

instance : Coe String Label := ⟨text⟩

instance : Inhabited Label := ⟨text ""⟩

def text? : Label → Option String
  | text s => some s
  | broken _ => none

/-- The text in front of the first surrogate. -/
def front : Label → String
  | text s => s
  | broken t => t.front

def isEmpty : Label → Bool
  | text s => s.isEmpty
  | broken _ => false

/-- The code points in order. -/
def points : Label → List CodePoint
  | text s => pointsOf s.toList
  | broken t => pointsOf t.front.toList ++ .surrogate t.first :: t.rest

/-- The numbers of the code points, by which labels are ordered. -/
def codes (l : Label) : List Nat := l.points.map CodePoint.toNat

/-- Puts a code point in front. -/
def push (p : CodePoint) (l : Label) : Label :=
  match p, l with
  | .char c, text s => text (String.ofList (c :: s.toList))
  | .char c, broken t => broken { t with front := String.ofList (c :: t.front.toList) }
  | .surrogate half, l => broken ⟨"", half, l.points⟩

def ofPoints : List CodePoint → Label
  | [] => text ""
  | p :: rest => push p (ofPoints rest)

def append : Label → Label → Label
  | text s, text t => text (s ++ t)
  | text s, broken t => broken { t with front := s ++ t.front }
  | broken s, l => broken { s with rest := s.rest ++ l.points }

instance : Append Label := ⟨append⟩

/-- The text with three replacement characters for every surrogate. -/
def lossy (l : Label) : String :=
  String.ofList (l.points.flatMap fun
    | .char c => [c]
    | .surrogate _ => List.replicate 3 '\ufffd')

/-- The labels one after another. -/
def join (labels : List Label) : Label := labels.foldr append (text "")

theorem points_text (s : String) : (text s).points = pointsOf s.toList := rfl

theorem points_broken (t : BrokenText) :
    (broken t).points = pointsOf t.front.toList ++ .surrogate t.first :: t.rest := rfl

theorem text_append (s t : String) : text s ++ text t = text (s ++ t) := rfl

theorem join_map_text (texts : List String) :
    join (texts.map .text) = .text (String.join texts) := by
  induction texts with
  | nil => rfl
  | cons s rest ih =>
      rw [List.map_cons, join, List.foldr_cons, ← join, ih, String.join_cons]
      rfl

theorem points_append (a b : Label) : (a ++ b).points = a.points ++ b.points := by
  match a, b with
  | text s, text t => simp [text_append, points_text]
  | text s, broken t =>
      have happend : text s ++ broken t = broken { t with front := s ++ t.front } := rfl
      simp [happend, points]
  | broken s, l =>
      have happend : broken s ++ l = broken { s with rest := s.rest ++ l.points } := rfl
      simp [happend, points_broken]

theorem front_text_append (s : String) (l : Label) : (text s ++ l).front = s ++ l.front := by
  cases l <;> rfl

theorem points_push (p : CodePoint) (l : Label) : (push p l).points = p :: l.points := by
  cases p <;> cases l <;> simp [push, points]

theorem points_ofPoints (points : List CodePoint) : (ofPoints points).points = points := by
  induction points with
  | nil => rfl
  | cons p rest ih => rw [ofPoints, points_push, ih]

theorem ofPoints_chars (s : List Char) : ofPoints (pointsOf s) = text (String.ofList s) := by
  induction s with
  | nil => rfl
  | cons c rest ih => simp [ofPoints, ih, push]

theorem ofPoints_broken (s : List Char) (half : Fin 0x800) (rest : List CodePoint) :
    ofPoints (pointsOf s ++ .surrogate half :: rest) = broken ⟨String.ofList s, half, rest⟩ := by
  induction s with
  | nil =>
      have hrest : (ofPoints rest).points = rest := points_ofPoints rest
      simp [ofPoints, push, hrest]
  | cons c front ih => simp [ofPoints, ih, push]

/-- A label is determined by its code points. -/
theorem ofPoints_points (l : Label) : ofPoints l.points = l := by
  cases l with
  | text s => rw [points_text, ofPoints_chars, String.ofList_toList]
  | broken t => rw [points_broken, ofPoints_broken, String.ofList_toList]

theorem append_right_inj {a b c : Label} : a ++ b = a ++ c ↔ b = c := by
  constructor
  · intro h
    have hpoints : (a ++ b).points = (a ++ c).points := congrArg points h
    rw [points_append, points_append, List.append_cancel_left_eq] at hpoints
    rw [← ofPoints_points b, hpoints, ofPoints_points]
  · rintro rfl
    rfl

theorem append_assoc (a b c : Label) : a ++ b ++ c = a ++ (b ++ c) := by
  rw [← ofPoints_points (a ++ b ++ c), ← ofPoints_points (a ++ (b ++ c))]
  simp only [points_append, List.append_assoc]

end Label

end Arranger
