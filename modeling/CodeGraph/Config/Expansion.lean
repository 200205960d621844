import CodeGraph.Failure

/-!
# Variables in texts

A text may refer to variables of the environment, as `$NAME` or `${NAME}`. One
scan from the left cuts a text into pieces, references and single characters, so
that the pieces put together are the text again. References to variables that are
set are replaced, and what they are replaced by is not looked at again; anything
else stays as it is.

The environment knows variables by the bytes of their names. A name that has none
cannot be looked up, and a text that refers to it cannot be expanded.
-/

namespace CodeGraph

/-- Variables of the environment with their values. -/
abbrev Variables := List (String × String)

def Variables.value? (env : Variables) (name : String) : Except Failure (Option String) :=
  match Text.bytes? name with
  | some bytes => .ok ((env.find? fun entry => Text.bytes? entry.1 == some bytes).map Prod.snd)
  | none => .error .unencodable

/-- A part of a text: a character that begins no reference, or a reference by name. -/
inductive Piece where
  | literal (c : Char)
  | braced (name : List Char)
  | bare (name : List Char)
deriving DecidableEq, Repr

namespace Piece

def source : Piece → List Char
  | literal c => [c]
  | braced name => '$' :: '\x7b' :: name ++ ['\x7d']
  | bare name => '$' :: name

def value (env : Variables) (p : Piece) : Except Failure (List Char) :=
  match p with
  | literal c => .ok [c]
  | braced name | bare name => do
    match ← env.value? (String.ofList name) with
    | some text => return text.toList
    | none => return p.source

end Piece

namespace Expansion

def startsName (c : Char) : Bool :=
  c.isAlpha || c == '_'

def continuesName (c : Char) : Bool :=
  c.isAlphanum || c == '_'

/-- The reference that follows a dollar sign, with the text after it. -/
def reference? (cs : List Char) : Option (Piece × List Char) :=
  match cs with
  | [] => none
  | c :: rest =>
    if c = '\x7b' then
      match rest.takeWhile (· != '\x7d'), rest.dropWhile (· != '\x7d') with
      | first :: name, _ :: after => some (.braced (first :: name), after)
      | _, _ => none
    else if startsName c then
      some (.bare (c :: rest.takeWhile continuesName), rest.dropWhile continuesName)
    else none

theorem length_dropWhile_le (p : Char → Bool) (cs : List Char) :
    (cs.dropWhile p).length ≤ cs.length := by
  induction cs with
  | nil => simp
  | cons c rest ih =>
    rw [List.dropWhile_cons]
    split
    · exact Nat.le_succ_of_le ih
    · exact Nat.le_refl _

theorem length_reference?_lt {cs after : List Char} {p : Piece}
    (h : reference? cs = some (p, after)) : after.length < cs.length := by
  match cs with
  | [] => simp [reference?] at h
  | c :: rest =>
    unfold reference? at h
    simp only [] at h
    split at h
    · split at h
      · rename_i eq
        have := length_dropWhile_le (· != '\x7d') rest
        simp only [Option.some.injEq, Prod.mk.injEq] at h
        rw [eq, List.length_cons] at this
        rw [← h.2, List.length_cons]
        omega
      · simp at h
    · split at h
      · have := length_dropWhile_le continuesName rest
        simp only [Option.some.injEq, Prod.mk.injEq] at h
        rw [← h.2, List.length_cons]
        omega
      · simp at h

def pieces : List Char → List Piece
  | [] => []
  | c :: rest =>
    if c = '$' then
      match h : reference? rest with
      | some (p, after) =>
        have := length_reference?_lt h
        p :: pieces after
      | none => .literal c :: pieces rest
    else .literal c :: pieces rest
termination_by cs => cs.length

def expandText (env : Variables) (s : String) : Except Failure String := do
  return String.ofList (← (pieces s.toList).mapM (Piece.value env)).flatten

mutual

/-- Expand every text of a value; keys of mappings are left alone. -/
def expand (env : Variables) : Value → Except Failure Value
  | .str s => return .str (← expandText env s)
  | .list items => return .list (← expandItems env items)
  | .record fields => return .record (← expandFields env fields)
  | .table entries => return .table (← expandEntries env entries)
  | v => return v

def expandItems (env : Variables) : List Value → Except Failure (List Value)
  | [] => return []
  | v :: rest => return (← expand env v) :: (← expandItems env rest)

def expandFields (env : Variables) :
    List (String × Value) → Except Failure (List (String × Value))
  | [] => return []
  | (key, v) :: rest => return (key, ← expand env v) :: (← expandFields env rest)

def expandEntries (env : Variables) :
    List (Value × Value) → Except Failure (List (Value × Value))
  | [] => return []
  | (key, v) :: rest => return (key, ← expand env v) :: (← expandEntries env rest)

end

end Expansion

end CodeGraph
