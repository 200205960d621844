/-!
# Code points

A text is a sequence of code points. Most of them are characters; a surrogate that
has lost its partner is none, and still it may stand in a text. Strings hold such
texts in a spelling of their own: U+D7FF, the last character before the surrogates,
announces a code point, and a private character behind it says which one.

Texts are handled as their spelling. The spelling of texts put together is their
spellings put together, different texts have different spellings, and they have the
order of their spellings. Only what looks at the single code points of a text has
to read the spelling.
-/

namespace CodeGraph.Text

inductive Point where
  | char (c : Char)
  /-- The surrogate at a place among the surrogates. -/
  | surrogate (place : Fin 0x800)
deriving DecidableEq, Repr

/-- The character that announces a code point. -/
def announcer : Char := Char.ofNat 0xD7FF

/-- The character that stands for the code point at a place, counted from U+D7FF. -/
def standIn (place : Nat) : Char := Char.ofNat (0xF0000 + place)

namespace Point

def code : Point → Nat
  | char c => c.toNat
  | surrogate place => 0xD800 + place

def ofCode (n : Nat) : Point :=
  if h : 0xD800 ≤ n ∧ n < 0xE000 then surrogate ⟨n - 0xD800, by omega⟩ else char (Char.ofNat n)

def spelling : Point → List Char
  | char c => if c = announcer then [announcer, standIn 0] else [c]
  | surrogate place => [announcer, standIn (place + 1)]

/-- The code point that a character stands for when it is announced. -/
def announced? (c : Char) : Option Point :=
  let place := c.toNat - 0xF0000
  if c.toNat < 0xF0000 then none
  else if place = 0 then some (char announcer)
  else if h : place - 1 < 0x800 then some (surrogate ⟨place - 1, h⟩)
  else none

/-- The bytes of a code point in the environment and in file names. Bytes that make no character
are kept there as surrogates; other surrogates have none. -/
def bytes? (p : Point) : Option (List UInt8) :=
  match p with
  | char c => some (String.utf8EncodeChar c)
  | surrogate _ => if 0xDC80 ≤ p.code ∧ p.code < 0xDD00 then some [UInt8.ofNat p.code] else none

end Point

def spelling (points : List Point) : List Char :=
  points.flatMap Point.spelling

def points : List Char → List Point
  | [] => []
  | [c] => [.char c]
  | c :: d :: rest =>
    match if c = announcer then Point.announced? d else none with
    | some p => p :: points rest
    | none => .char c :: points (d :: rest)

def ofChars (cs : List Char) : String :=
  String.ofList (spelling (cs.map Point.char))

def size (s : String) : Nat :=
  (points s.toList).length

/-- The texts of the single code points of a text. -/
def letters (s : String) : List String :=
  (points s.toList).map fun p => String.ofList p.spelling

/-- The bytes of a text, if all of its code points have some. -/
def bytes? (s : String) : Option (List UInt8) :=
  ((points s.toList).mapM Point.bytes?).map List.flatten

/-- The characters of a text, if it has nothing but characters. -/
def chars? (s : String) : Option (List Char) :=
  (points s.toList).mapM fun
    | .char c => some c
    | .surrogate _ => none

end CodeGraph.Text
