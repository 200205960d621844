import CodeGraph.Format.Yaml.Cursor
import CodeGraph.Text.Radix

/-!
# Tokens of a YAML text

The words and marks that a text is made of, and how those that carry a text of
their own are read: names, tags, directives, and the five ways to write a scalar.
-/

namespace CodeGraph.Yaml

/-- A tag as written: an abbreviation for its beginning, unless it is spelled out, and the rest. -/
structure TagName where
  handle : Option String
  suffix : String

inductive Token where
  | version (major : Nat)
  | tagPrefix (handle expansion : String)
  /-- A directive that means nothing here. -/
  | reserved
  | documentStart
  | documentEnd
  | streamEnd
  | blockSequence
  | blockMapping
  | blockEnd
  | flowSequence
  | flowSequenceEnd
  | flowMapping
  | flowMappingEnd
  | flowEntry
  | blockEntry
  | key
  | value
  | reference (name : String)
  | anchor (name : String)
  | tag (name : TagName)
  | scalar (plain : Bool) (text : String)

namespace Token

/-! ## Names, tags and directives -/

def readName (c : Cursor) : Reading (String × Cursor) :=
  let c := c.next
  let name := c.run isNameChar
  let after := c.skip name.length
  let ends := isGap after.peek || "?:,]\x7d%@\x60".toList.contains after.peek
  if name.isEmpty || !ends then .error .malformed else .ok (String.ofList name, after)

def isTagChar (c : Char) : Bool :=
  c.isAlphanum || "-;/?:@&=+$,_.!~*'()[]".toList.contains c

/-- Bytes written as a percent sign and two digits each; `fuel` bounds their number. -/
def readEscapes (fuel : Nat) (c : Cursor) : Reading (List UInt8 × Cursor) := do
  match fuel with
  | 0 => return ([], c)
  | fuel + 1 =>
    if c.peek != '%' then return ([], c)
    let ds := c.next.rest.take 2
    if ds.length < 2 || !ds.all isHexDigit then throw .malformed
    let (bytes, after) ← readEscapes fuel (c.skip 3)
    return (((Text.numberIn? 16 ds).getD 0).toUInt8 :: bytes, after)

/-- The text of a tag; every run of escaped bytes has to make sense by itself. -/
def readTagText (fuel : Nat) (c : Cursor) : Reading (List Char × Cursor) := do
  match fuel with
  | 0 => return ([], c)
  | fuel + 1 =>
    if c.peek == '%' then
      let (bytes, after) ← readEscapes c.rest.length c
      match String.fromUTF8? ⟨bytes.toArray⟩ with
      | none => throw .malformed
      | some text =>
        let (more, after) ← readTagText fuel after
        return (text.toList ++ more, after)
    else if isTagChar c.peek then
      let (more, after) ← readTagText fuel c.next
      return (c.peek :: more, after)
    else return ([], c)

def readSuffix (c : Cursor) : Reading (String × Cursor) := do
  if !(isTagChar c.peek || c.peek == '%') then throw .malformed
  let (text, after) ← readTagText c.rest.length c
  return (String.ofList text, after)

/-- The abbreviation that a tag begins with: a name between two marks, or one mark alone. -/
def readHandle (c : Cursor) : Reading (String × Cursor) :=
  if c.peek != '!' then .error .malformed
  else if c.ahead 1 == ' ' then .ok ("!", c.next)
  else
    let name := c.next.run isNameChar
    if c.ahead (name.length + 1) == '!' then
      .ok (String.ofList ('!' :: name ++ ['!']), c.skip (name.length + 2))
    else .error .malformed

/-- Whether a second mark follows before the next gap. -/
def hasHandle (c : Cursor) : Bool :=
  (c.next.run fun ch => !isSpaceOrEnd ch).contains '!'

def readTag (c : Cursor) : Reading (TagName × Cursor) := do
  let (name, after) ←
    if c.ahead 1 == '<' then do
      let (suffix, after) ← readSuffix (c.skip 2)
      if after.peek != '>' then throw .malformed
      pure ((⟨none, suffix⟩ : TagName), after.next)
    else if isGap (c.ahead 1) then pure (⟨none, "!"⟩, c.next)
    else do
      let (handle, after) ← if hasHandle c then readHandle c else pure ("!", c.next)
      let (suffix, after) ← readSuffix after
      pure (⟨some handle, suffix⟩, after)
  if isSpaceOrEnd after.peek then return (name, after)
  throw .malformed

def readNumber (c : Cursor) : Reading (Nat × Cursor) :=
  let ds := c.run Char.isDigit
  if ds.isEmpty then .error .malformed
  else .ok ((Text.numberIn? 10 ds).getD 0, c.skip ds.length)

def readVersion (c : Cursor) : Reading (Token × Cursor) := do
  let (major, c) ← readNumber (c.skipWhile (· == ' '))
  if c.peek != '.' then throw .malformed
  let (_, c) ← readNumber c.next
  if isSpaceOrEnd c.peek then return (.version major, c)
  throw .malformed

def readTagPrefix (c : Cursor) : Reading (Token × Cursor) := do
  let (handle, c) ← readHandle (c.skipWhile (· == ' '))
  if c.peek != ' ' then throw .malformed
  let (expansion, c) ← readSuffix (c.skipWhile (· == ' '))
  if isSpaceOrEnd c.peek then return (.tagPrefix handle expansion, c)
  throw .malformed

def readDirective (c : Cursor) : Reading (Token × Cursor) := do
  let c := c.next
  let name := c.run isNameChar
  let c := c.skip name.length
  if name.isEmpty || !isSpaceOrEnd c.peek then throw .malformed
  let (token, c) ←
    match String.ofList name with
    | "YAML" => readVersion c
    | "TAG" => readTagPrefix c
    | _ => pure (.reserved, c.skipWhile fun ch => !isBreak ch)
  return (token, ← c.endOfLine)

/-! ## Folding

Within a scalar a single line break is read as a blank, and of several the first
is dropped. -/

/-- What a first line break and those after it are read as. -/
def folded (first : List Char) (more : List Char) : List Char :=
  if first != ['\n'] then first ++ more
  else if more.isEmpty then [' ']
  else more

/-! ## Plain scalars -/

def endsPlain (flow : Bool) : List Char → Bool
  | [] => true
  | c :: rest =>
    let next := rest.headD '\x00'
    isGap c || (c == ':' && (isGap next || (flow && ",[]\x7b\x7d".toList.contains next))) ||
      (flow && ",?[]\x7b\x7d".toList.contains c)

def plainLength (flow : Bool) : List Char → Nat
  | [] => 0
  | c :: rest => if endsPlain flow (c :: rest) then 0 else plainLength flow rest + 1

/-- The line breaks and blanks from here on; absent when a document ends there. -/
def blankLines (fuel : Nat) (c : Cursor) : Option (List Char × Cursor) :=
  match fuel with
  | 0 => some ([], c)
  | fuel + 1 =>
    if c.peek == ' ' then blankLines fuel c.next
    else if isBreak c.peek then
      let (lineBreak, c) := c.lineBreak
      if c.atSeparator then none
      else (blankLines fuel c).map fun (more, after) => (lineBreak ++ more, after)
    else some ([], c)

/-- What lies between two parts of a plain scalar: the text it is read as, whether a line ended,
and where it ends. -/
structure Gap where
  text : List Char
  newLine : Bool
  after : Cursor

def plainGap (c : Cursor) : Gap :=
  let blanks := c.run (· == ' ')
  let c := c.skip blanks.length
  if isBreak c.peek then
    let (lineBreak, c) := c.lineBreak
    if c.atSeparator then ⟨[], true, c⟩
    else
      match blankLines (c.rest.length + 1) c with
      | some (more, after) => ⟨folded lineBreak more, true, after⟩
      | none => ⟨[], true, c.skipWhile fun ch => ch == ' ' || isBreak ch⟩
  else ⟨blanks, false, c⟩

/-- A plain scalar in a block ends where a line begins to the left of `indent`. The answer tells
whether it ended at the beginning of a line. -/
def readPlain (fuel : Nat) (flow : Bool) (indent : Int) (c : Cursor) :
    List Char × Bool × Cursor :=
  match fuel with
  | 0 => ([], false, c)
  | fuel + 1 =>
    let length := plainLength flow c.rest
    let part := c.rest.take length
    let gap := plainGap (c.skip length)
    let after := gap.after
    if gap.text.isEmpty || after.peek == '#' || (!flow && (after.column : Int) < indent) ||
        plainLength flow after.rest = 0 then (part, gap.newLine, after)
    else
      let (more, newLine, after) := readPlain fuel flow indent after
      (part ++ gap.text ++ more, newLine, after)

/-! ## Quoted scalars -/

def escapes : List (Char × Char) :=
  [('0', '\x00'), ('a', '\x07'), ('b', '\x08'), ('t', '\t'), ('\t', '\t'), ('n', '\n'),
    ('v', '\x0b'), ('f', '\x0c'), ('r', '\r'), ('e', '\x1b'), (' ', ' '), ('"', '"'),
    ('\\', '\\'), ('/', '/'), ('N', '\x85'), ('_', '\xa0'), ('L', '\u2028'), ('P', '\u2029')]

def codeLengths : List (Char × Nat) :=
  [('x', 2), ('u', 4), ('U', 8)]

/-- The spelling of the code point with a number; beyond the last one there is none. -/
def numbered (n : Nat) : Reading (List Char) :=
  if n < 0x110000 then .ok (Text.Point.ofCode n).spelling
  else if n < Nat.pow 2 31 then
    .error (.failure (.argument (.stated "chr() arg not in range(0x110000)")))
  else .error (.failure (.overflow "integer too large to convert"))

def quotedBreaks (fuel : Nat) (c : Cursor) : Reading (List Char × Cursor) := do
  match fuel with
  | 0 => return ([], c)
  | fuel + 1 =>
    if c.atSeparator then throw .malformed
    let c := c.skipWhile isTabOrSpace
    if isBreak c.peek then
      let (lineBreak, c) := c.lineBreak
      let (more, c) ← quotedBreaks fuel c
      return (lineBreak ++ more, c)
    return ([], c)

def readEscape (c : Cursor) : Reading (List Char × Cursor) := do
  let ch := c.peek
  match escapes.lookup ch, codeLengths.lookup ch with
  | some meant, _ => return ([meant], c.next)
  | none, some length =>
    let ds := c.next.rest.take length
    if ds.length < length || !ds.all isHexDigit then throw .malformed
    return (← numbered ((Text.numberIn? 16 ds).getD 0), c.skip (length + 1))
  | none, none =>
    if isBreak ch then quotedBreaks (c.rest.length + 1) c.lineBreak.2
    else throw .malformed

/-- Blanks within a quoted scalar: they stay, unless a line ends behind them. -/
def quotedGap (c : Cursor) : Reading (List Char × Cursor) := do
  let blanks := c.run isTabOrSpace
  let c := c.skip blanks.length
  if isEnd c.peek then throw .malformed
  if isBreak c.peek then
    let (lineBreak, c) := c.lineBreak
    let (more, c) ← quotedBreaks (c.rest.length + 1) c
    return (folded lineBreak more, c)
  return (blanks, c)

def readQuoted (fuel : Nat) (double : Bool) (c : Cursor) : Reading (List Char × Cursor) := do
  match fuel with
  | 0 => throw .malformed
  | fuel + 1 =>
    let quote := if double then '"' else '\''
    let ch := c.peek
    let (part, after) ←
      if !double && ch == quote && c.ahead 1 == quote then pure ([quote], c.skip 2)
      else if ch == quote then return ([], c.next)
      else if double && ch == '\\' then readEscape c.next
      else if isGap ch then quotedGap c
      else pure ([ch], c.next)
    let (more, after) ← readQuoted fuel double after
    return (part ++ more, after)

/-! ## Block scalars -/

/-- What becomes of the line breaks at the end of a block scalar. -/
inductive Chomping where
  | strip
  | clip
  | keep
deriving DecidableEq

def chomping? (c : Char) : Option Chomping :=
  if c == '+' then some .keep else if c == '-' then some .strip else none

/-- A stated number of columns, which is not zero. -/
def readIncrement (c : Cursor) : Reading (Option Nat × Cursor) :=
  if c.peek == '0' then .error .malformed
  else if c.peek.isDigit then .ok (some (c.peek.toNat - '0'.toNat), c.next)
  else .ok (none, c)

/-- What is stated behind the mark of a block scalar, in either order. -/
def readHeader (c : Cursor) : Reading (Chomping × Option Nat × Cursor) := do
  let (chomping, increment, c) ←
    match chomping? c.peek with
    | some chomping => do
      let (increment, c) ← readIncrement c.next
      pure (chomping, increment, c)
    | none => do
      let (increment, c) ← readIncrement c
      match increment, chomping? c.peek with
      | some _, some chomping => pure (chomping, increment, c.next)
      | _, _ => pure (.clip, increment, c)
  if !isSpaceOrEnd c.peek then throw .malformed
  return (chomping, increment, ← c.endOfLine)

def indentTo (indent : Nat) (c : Cursor) : Cursor :=
  c.skip (min (indent - c.column) (c.run (· == ' ')).length)

def blockBreaks (fuel indent : Nat) (c : Cursor) : List Char × Cursor :=
  let c := indentTo indent c
  match fuel with
  | 0 => ([], c)
  | fuel + 1 =>
    if isBreak c.peek then
      let (lineBreak, c) := c.lineBreak
      let (more, c) := blockBreaks fuel indent c
      (lineBreak ++ more, c)
    else ([], c)

/-- Empty lines before the first line of a block scalar, and the widest of all indents. -/
def firstBreaks (fuel widest : Nat) (c : Cursor) : List Char × Nat × Cursor :=
  match fuel with
  | 0 => ([], widest, c)
  | fuel + 1 =>
    if c.peek == ' ' then firstBreaks fuel (max widest c.next.column) c.next
    else if isBreak c.peek then
      let (lineBreak, c) := c.lineBreak
      let (more, widest, c) := firstBreaks fuel widest c
      (lineBreak ++ more, widest, c)
    else ([], widest, c)

/-- The lines of a block scalar, from the first one on. The answer is their text, the last line
break and the empty lines behind it. -/
def blockLines (fuel indent : Nat) (fold : Bool) (c : Cursor) :
    List Char × List Char × List Char × Cursor :=
  match fuel with
  | 0 => ([], [], [], c)
  | fuel + 1 =>
    let line := c.run fun ch => !isBreak ch
    let (lineBreak, after) := (c.skip line.length).lineBreak
    let (breaks, after) := blockBreaks (after.rest.length + 1) indent after
    if after.column = indent && !isEnd after.peek then
      let joined :=
        if fold && lineBreak == ['\n'] && !isTabOrSpace c.peek && !isTabOrSpace after.peek then
          if breaks.isEmpty then [' '] else []
        else lineBreak
      let (more, last, tail, after) := blockLines fuel indent fold after
      (line ++ joined ++ breaks ++ more, last, tail, after)
    else (line, lineBreak, breaks, after)

/-- A block scalar from its mark on, within a block at column `indent`. -/
def readBlock (fold : Bool) (indent : Int) (c : Cursor) : Reading (List Char × Cursor) := do
  let (chomping, increment, c) ← readHeader c.next
  let least := (max 1 (indent + 1)).toNat
  let fuel := c.rest.length + 1
  let (breaks, indent, c) :=
    match increment with
    | some k =>
      let (breaks, c) := blockBreaks fuel (least + k - 1) c
      (breaks, least + k - 1, c)
    | none =>
      let (breaks, widest, c) := firstBreaks fuel 0 c
      (breaks, max least widest, c)
  let (text, last, tail, c) :=
    if c.column = indent && !isEnd c.peek then
      let (text, last, tail, c) := blockLines fuel indent fold c
      (breaks ++ text, last, tail, c)
    else ([], [], breaks, c)
  match chomping with
  | .strip => return (text, c)
  | .clip => return (text ++ last, c)
  | .keep => return (text ++ last ++ tail, c)

end Token

end CodeGraph.Yaml
