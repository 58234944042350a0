import Gem5.Construction.Base.Fault

namespace Gem5

/-- This function removes the leading blanks of a text that has another character. -/
def eatLeadWhite (s : List Char) : List Char := if s.dropWhile (· = ' ') = [] then s else s.dropWhile (· = ' ')

def eatEndWhite (s : List Char) : List Char := (eatLeadWhite s.reverse).reverse

def eatWhite (s : List Char) : List Char := eatEndWhite (eatLeadWhite s)

/-- This loop takes a word that does not start with the token and skips the tokens behind it. -/
def tokenizeLoop (token : Char) (s : List Char) : List (List Char) :=
  let word := s.takeWhile (· ≠ token)
  let tail := s.dropWhile (· ≠ token)
  let rest := (tail.drop 1).dropWhile (· = token)
  if rest = [] then [word] else word :: tokenizeLoop token rest
termination_by s.length
decreasing_by
  rename_i last
  have inside : 0 < ((s.dropWhile (· ≠ token)).drop 1).length := by
    apply Nat.lt_of_lt_of_le (List.length_pos_iff.mpr last)
    exact (List.dropWhile_sublist _).length_le
  have shorter : (((s.dropWhile (· ≠ token)).drop 1).dropWhile (· = token)).length ≤
      ((s.dropWhile (· ≠ token)).drop 1).length := (List.dropWhile_sublist _).length_le
  have parts : (s.dropWhile (· ≠ token)).length ≤ s.length := (List.dropWhile_sublist _).length_le
  rw [List.length_drop] at inside shorter
  change (((s.dropWhile (· ≠ token)).drop 1).dropWhile (· = token)).length < s.length
  omega

/-- This function is `tokenize` of the source without empty words. -/
def tokenize (token : Char) (s : List Char) : List (List Char) :=
  let skipped := s.dropWhile (· = token)
  if skipped = [] then [] else tokenizeLoop token skipped

/-- The pair of `ShowParam` and `ParseParam` for one type. -/
structure ParamText (T : Type) where
  showParam : T → List Char
  parse : List Char → Option T

/-- The text of each value is a word that is read back. -/
structure ParamText.Faithful {T : Type} (text : ParamText T) : Prop where
  word : ∀ value, text.showParam value ≠ [] ∧ ' ' ∉ text.showParam value
  readBack : ∀ value, text.parse (text.showParam value) = some value

/-- The text of a truth value. -/
def ParamText.bool : ParamText Bool where
  showParam value := if value then "true".toList else "false".toList
  parse s :=
    if s.map Char.toLower = "true".toList then some true
    else if s.map Char.toLower = "false".toList then some false
    else none

/-- This structure has the entries of the current section. -/
structure Checkpoint where
  currentSection : String
  entries : String → Option (List Char)

namespace Checkpoint
variable {T : Type}

/-- This function writes an entry of the section. -/
def addEntry (cp : Checkpoint) (name : String) (value : List Char) : Checkpoint :=
  { cp with entries := fun other => if other = name then some (eatWhite value) else cp.entries other }

/-- The text of an array. -/
def arrayText (text : ParamText T) (param : List T) : List Char := [' '].intercalate (param.map text.showParam)

def arrayParamOut (cp : Checkpoint) (text : ParamText T) (name : String) (param : List T) : Checkpoint :=
  cp.addEntry name (arrayText text param)

/-- This loop parses the words of an array. -/
def parseTokens (text : ParamText T) (str : List Char) : List (List Char) → Except Fault (List T)
  | [] => .ok []
  | token :: tokens => do
    match text.parse token with
    | none => .error (.fatal ("Could not parse \"" ++ String.ofList str ++ "\"."))
    | some value => do
      let values ← parseTokens text str tokens
      .ok (value :: values)

def arrayParamIn (cp : Checkpoint) (text : ParamText T) (name : String) : Except Fault (List T) :=
  match cp.entries name with
  | none => .error (.fatal ("Can't unserialize '" ++ cp.currentSection ++ ":" ++ name ++ "'."))
  | some str => parseTokens text str (tokenize ' ' str)

end Checkpoint

end Gem5
