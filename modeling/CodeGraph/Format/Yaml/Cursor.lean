import CodeGraph.Format.Fault

/-!
# A place in a text

A cursor is what is left of a text together with the place where it begins: how
many characters and lines came before, and how many characters on the same line.
The end of the text shows as a null character, which no text holds.
-/

namespace CodeGraph.Yaml

structure Cursor where
  rest : List Char
  index : Nat
  line : Nat
  column : Nat

/-! ## Classes of characters -/

def isEnd (c : Char) : Bool :=
  c == '\x00'

/-- Line breaks, of which there are four. -/
def isBreak (c : Char) : Bool :=
  c == '\n' || c == '\x85' || c == '\u2028' || c == '\u2029'

def isBreakOrEnd (c : Char) : Bool :=
  isBreak c || isEnd c

/-- What separates a mark from what follows it. -/
def isGap (c : Char) : Bool :=
  c == ' ' || c == '\t' || isBreakOrEnd c

/-- A gap without tabs. -/
def isSpaceOrEnd (c : Char) : Bool :=
  c == ' ' || isBreakOrEnd c

def isTabOrSpace (c : Char) : Bool :=
  c == ' ' || c == '\t'

def isHexDigit (c : Char) : Bool :=
  c.isDigit || ('a' ≤ c && c ≤ 'f') || ('A' ≤ c && c ≤ 'F')

def isNameChar (c : Char) : Bool :=
  c.isAlphanum || c == '-' || c == '_'

def byteOrderMark : Char := '\ufeff'

/-- Characters that a text may hold at all. -/
def isAllowed (c : Char) : Bool :=
  let n := c.toNat
  n == 9 || n == 10 || n == 13 || (0x20 ≤ n && n ≤ 0x7E) || n == 0x85 ||
    (0xA0 ≤ n && n ≤ 0xFFFD) || 0x10000 ≤ n

namespace Cursor

def start (text : String) : Cursor :=
  ⟨text.toList, 0, 0, 0⟩

def ahead (c : Cursor) (distance : Nat) : Char :=
  (c.rest.drop distance).headD '\x00'

def peek (c : Cursor) : Char :=
  c.rest.headD '\x00'

/-- Pass one character. A byte order mark takes no column. -/
def next (c : Cursor) : Cursor :=
  match c.rest with
  | [] => c
  | ch :: rest =>
    if isBreak ch then ⟨rest, c.index + 1, c.line + 1, 0⟩
    else ⟨rest, c.index + 1, c.line, if ch == byteOrderMark then c.column else c.column + 1⟩

def skip (c : Cursor) : Nat → Cursor
  | 0 => c
  | n + 1 => c.next.skip n

def run (c : Cursor) (p : Char → Bool) : List Char :=
  c.rest.takeWhile p

def skipWhile (c : Cursor) (p : Char → Bool) : Cursor :=
  c.skip (c.run p).length

def startsWith (c : Cursor) (text : String) : Bool :=
  text.toList.isPrefixOf c.rest

/-- Whether a line that separates documents begins here. -/
def atSeparator (c : Cursor) : Bool :=
  (c.startsWith "---" || c.startsWith "...") && isGap (c.ahead 3)

/-- The line break here, if there is one: most are read as a line feed. -/
def lineBreak (c : Cursor) : List Char × Cursor :=
  let ch := c.peek
  if ch == '\n' || ch == '\x85' then (['\n'], c.next)
  else if isBreak ch then ([ch], c.next)
  else ([], c)

/-- Pass blanks and a comment; nothing else may be left on the line. -/
def endOfLine (c : Cursor) : Reading Cursor :=
  let c := c.skipWhile (· == ' ')
  let c := if c.peek == '#' then c.skipWhile (!isBreak ·) else c
  if isBreakOrEnd c.peek then .ok c.lineBreak.2 else .error .malformed

end Cursor

end CodeGraph.Yaml
