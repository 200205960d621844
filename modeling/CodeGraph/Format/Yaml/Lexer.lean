import CodeGraph.Format.Yaml.Token

/-!
# Cutting a YAML text into tokens

In a block, indentation takes the place of brackets: a token that begins further
right than its block opens a new one, and one further left closes those that it
is not part of. Whether a scalar or a bracket begins a mapping shows only at the
colon behind it, so the place of every token that may turn out to be a key is
kept, one on each level of brackets, until the colon comes or can no longer come.
What a colon makes of such a place is noted and put in when all is cut.
-/

namespace CodeGraph.Yaml

/-- A token that may turn out to be a key. -/
structure KeyPlace where
  /-- How many tokens come before it. -/
  position : Nat
  /-- Whether nothing but a key can stand there. -/
  required : Bool
  index : Nat
  line : Nat
  column : Nat

structure Lexer where
  cursor : Cursor
  /-- How many brackets are open. -/
  depth : Nat
  /-- The column of the innermost block, and of those around it. -/
  indent : Int
  outer : List Int
  /-- Whether a key may begin here. -/
  keyAllowed : Bool
  /-- The possible keys, by the number of brackets open around them. -/
  places : List (Nat × KeyPlace)
  tokens : Array Token
  /-- The positions of keys, and whether they open a mapping. -/
  keys : List (Nat × Bool)

namespace Lexer

def start (text : String) : Lexer :=
  let cursor := Cursor.start text
  { cursor := if cursor.peek == byteOrderMark then cursor.next else cursor
    depth := 0, indent := -1, outer := [], keyAllowed := true, places := [], tokens := #[]
    keys := [] }

def inFlow (s : Lexer) : Bool :=
  s.depth != 0

def column (s : Lexer) : Int :=
  s.cursor.column

def push (s : Lexer) (t : Token) : Lexer :=
  { s with tokens := s.tokens.push t }

/-! ## Blanks -/

/-- Pass blanks, comments and line breaks; behind a line break a key may begin. -/
def passBlanks (fuel : Nat) (s : Lexer) : Lexer :=
  match fuel with
  | 0 => s
  | fuel + 1 =>
    let c := s.cursor.skipWhile (· == ' ')
    let c := if c.peek == '#' then c.skipWhile (!isBreak ·) else c
    if isBreak c.peek then
      passBlanks fuel
        { s with cursor := c.lineBreak.2, keyAllowed := s.keyAllowed || !s.inFlow }
    else { s with cursor := c }

/-! ## Blocks -/

def closeBlocks (column : Int) (s : Lexer) : Lexer :=
  if s.inFlow then s
  else
    let blocks := (s.indent :: s.outer).dropWhile (column < ·)
    let closed := (s.indent :: s.outer).length - blocks.length
    { s with
      indent := blocks.headD (-1)
      outer := blocks.drop 1
      tokens := s.tokens ++ (List.replicate closed Token.blockEnd).toArray }

/-- Open a block at a column, unless there is one as far right; the answer tells whether. -/
def openBlock (column : Int) (s : Lexer) : Bool × Lexer :=
  if s.indent < column then (true, { s with indent := column, outer := s.indent :: s.outer })
  else (false, s)

def openBlockHere (t : Token) (s : Lexer) : Lexer :=
  match s.openBlock s.column with
  | (true, s) => s.push t
  | (false, s) => s

/-! ## Possible keys -/

/-- Keys stand on one line, with their colon not too far off. -/
def keyReach : Nat := 1024

def isStale (s : Lexer) (place : KeyPlace) : Bool :=
  place.line != s.cursor.line || keyReach < s.cursor.index - place.index

/-- Forget the places that can no longer be keys. -/
def dropStale (s : Lexer) : Reading Lexer :=
  if s.places.any fun entry => s.isStale entry.2 && entry.2.required then .error .malformed
  else .ok { s with places := s.places.filter fun entry => !s.isStale entry.2 }

def dropPlace (s : Lexer) : Reading Lexer :=
  match s.places.lookup s.depth with
  | some place =>
    if place.required then .error .malformed
    else .ok { s with places := s.places.filter fun entry => entry.1 != s.depth }
  | none => .ok s

/-- Remember the token that begins here, if it may be a key. -/
def savePlace (s : Lexer) : Reading Lexer := do
  if !s.keyAllowed then return s
  let required := !s.inFlow && s.indent == s.column
  let s ← s.dropPlace
  let c := s.cursor
  let place : KeyPlace := ⟨s.tokens.size, required, c.index, c.line, c.column⟩
  return { s with places := (s.depth, place) :: s.places }

/-! ## Tokens -/

def mark (t : Token) (s : Lexer) : Lexer :=
  ({ s with cursor := s.cursor.next } : Lexer).push t

def endOfStream (s : Lexer) : Reading Lexer := do
  let s ← (s.closeBlocks (-1)).dropPlace
  return { s.push .streamEnd with places := [], keyAllowed := false }

def directive (s : Lexer) : Reading Lexer := do
  let s ← (s.closeBlocks (-1)).dropPlace
  let (t, cursor) ← Token.readDirective s.cursor
  return { s.push t with cursor := cursor, keyAllowed := false }

def separator (t : Token) (s : Lexer) : Reading Lexer := do
  let s ← (s.closeBlocks (-1)).dropPlace
  return { s.push t with cursor := s.cursor.skip 3, keyAllowed := false }

def openBracket (t : Token) (s : Lexer) : Reading Lexer := do
  let s ← s.savePlace
  return { s.mark t with depth := s.depth + 1, keyAllowed := true }

def closeBracket (t : Token) (s : Lexer) : Reading Lexer := do
  let s ← s.dropPlace
  match s.depth with
  | 0 => throw .malformed
  | depth + 1 => return { s.mark t with depth := depth, keyAllowed := false }

def flowEntry (s : Lexer) : Reading Lexer := do
  let s ← ({ s with keyAllowed := true } : Lexer).dropPlace
  return s.mark .flowEntry

def blockEntry (s : Lexer) : Reading Lexer := do
  if !s.inFlow && !s.keyAllowed then throw .malformed
  let s := if s.inFlow then s else s.openBlockHere .blockSequence
  let s ← ({ s with keyAllowed := true } : Lexer).dropPlace
  return s.mark .blockEntry

def explicitKey (s : Lexer) : Reading Lexer := do
  if !s.inFlow && !s.keyAllowed then throw .malformed
  let s := if s.inFlow then s else s.openBlockHere .blockMapping
  let s ← ({ s with keyAllowed := !s.inFlow } : Lexer).dropPlace
  return s.mark .key

/-- A colon, which makes a key of the place on its level if there is one. -/
def valueMark (s : Lexer) : Reading Lexer := do
  match s.places.lookup s.depth with
  | some place =>
    let s := { s with places := s.places.filter fun entry => entry.1 != s.depth }
    let (opens, s) := if s.inFlow then (false, s) else s.openBlock place.column
    let s := { s with keys := (place.position, opens) :: s.keys, keyAllowed := false }
    return s.mark .value
  | none =>
    if !s.inFlow && !s.keyAllowed then throw .malformed
    let s := if s.inFlow then s else s.openBlockHere .blockMapping
    let s ← ({ s with keyAllowed := !s.inFlow } : Lexer).dropPlace
    return s.mark .value

/-- A token that may be a key and has a text of its own. -/
def word (read : Cursor → Reading (Token × Cursor)) (s : Lexer) : Reading Lexer := do
  let s ← s.savePlace
  let (t, cursor) ← read s.cursor
  return { s.push t with cursor := cursor, keyAllowed := false }

def quoted (double : Bool) (c : Cursor) : Reading (Token × Cursor) := do
  let (text, after) ← Token.readQuoted c.rest.length double c.next
  return (.scalar false (String.ofList text), after)

def block (fold : Bool) (s : Lexer) : Reading Lexer := do
  let s ← ({ s with keyAllowed := true } : Lexer).dropPlace
  let (text, cursor) ← Token.readBlock fold s.indent s.cursor
  return { s.push (.scalar false (String.ofList text)) with cursor := cursor }

def plain (s : Lexer) : Reading Lexer := do
  let s ← s.savePlace
  let c := s.cursor
  let (text, newLine, cursor) := Token.readPlain c.rest.length s.inFlow (s.indent + 1) c
  return { s.push (.scalar true (String.ofList text)) with cursor := cursor, keyAllowed := newLine }

/-- Marks that a plain scalar cannot begin with. -/
def marks : List Char :=
  "-?:,[]\x7b\x7d#&*!|>'\"%@\x60".toList

/-- A plain scalar may begin with a hyphen, and in a block with a question mark or a colon, if
no gap follows. -/
def startsPlain (s : Lexer) : Bool :=
  let ch := s.cursor.peek
  !(isGap ch || marks.contains ch) ||
    (!isGap (s.cursor.ahead 1) && (ch == '-' || (!s.inFlow && (ch == '?' || ch == ':'))))

def token (s : Lexer) : Reading Lexer :=
  let c := s.cursor
  let gapNext := isGap (c.ahead 1)
  match c.peek with
  | '%' => if c.column = 0 then s.directive else .error .malformed
  | '[' => s.openBracket .flowSequence
  | '\x7b' => s.openBracket .flowMapping
  | ']' => s.closeBracket .flowSequenceEnd
  | '\x7d' => s.closeBracket .flowMappingEnd
  | ',' => s.flowEntry
  | '*' => s.word fun c => (Token.readName c).map fun (name, after) => (.reference name, after)
  | '&' => s.word fun c => (Token.readName c).map fun (name, after) => (.anchor name, after)
  | '!' => s.word fun c => (Token.readTag c).map fun (name, after) => (.tag name, after)
  | '|' => if s.inFlow then .error .malformed else s.block false
  | '>' => if s.inFlow then .error .malformed else s.block true
  | '\'' => s.word (quoted false)
  | '"' => s.word (quoted true)
  | '-' =>
    if c.column = 0 && c.atSeparator then s.separator .documentStart
    else if gapNext then s.blockEntry
    else s.plain
  | '?' => if s.inFlow || gapNext then s.explicitKey else s.plain
  | ':' => if s.inFlow || gapNext then s.valueMark else s.plain
  | ch =>
    if isEnd ch then s.endOfStream
    else if ch == '.' && c.column = 0 && c.atSeparator then s.separator .documentEnd
    else if s.startsPlain then s.plain
    else .error .malformed

/-- Cut the whole text; every token but the last takes a character, so the length of the text
is enough `fuel`. -/
def cut (fuel : Nat) (s : Lexer) : Reading Lexer := do
  match fuel with
  | 0 => return s
  | fuel + 1 =>
    let s ← (s.passBlanks (s.cursor.rest.length + 1)).dropStale
    let s := s.closeBlocks s.column
    let done := isEnd s.cursor.peek
    let s ← s.token
    if done then return s else s.cut fuel

def linear (s : Lexer) : List Token :=
  s.tokens.toList.zipIdx.flatMap fun (t, position) =>
    match s.keys.lookup position with
    | some opens => if opens then [.blockMapping, .key, t] else [.key, t]
    | none => [t]

end Lexer

def tokens (text : String) : Reading (List Token) := do
  if !text.toList.all isAllowed then throw .malformed
  return (← (Lexer.start text).cut (text.length + 1)).linear

end CodeGraph.Yaml
