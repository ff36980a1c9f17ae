/-!
# File name patterns

Shell patterns on names: `?` is any character, `*` any run of characters, `[…]` one character of a
class and `[!…]` one character outside it. `**` as a whole path component is any run of components,
and where it comes last also the rest of the name. No character is special to `*` and `?`: they pass
over slashes and leading dots.

* `Glob.parse` reads a pattern; `Glob.Fault` says what is wrong with one and where, counting
  characters.
* `Glob.describes` decides whether a pattern describes a name. It works through the tokens from the
  last to the first and keeps, for every tail of the name, whether the tokens seen so far describe
  that tail; so the time is the length of the pattern times the length of the name.
* `Glob.escape` writes a text as a pattern that describes the text alone.
-/

namespace ReleaseCut

namespace Glob

/-- The characters from `low` to `high`; none if they are the wrong way round. -/
structure Span where
  /-- The first character. -/
  low : Char
  /-- The last character. -/
  high : Char
  deriving DecidableEq, Repr

/-- Whether a character lies in the span. -/
def Span.contains (s : Span) (c : Char) : Bool :=
  s.low ≤ c && c ≤ s.high

/-- A part of a pattern. -/
inductive Token where
  /-- One given character. -/
  | literal (c : Char)
  /-- Any one character. -/
  | any
  /-- One character of a class. -/
  | oneOf (spans : List Span)
  /-- One character outside a class. -/
  | noneOf (spans : List Span)
  /-- Any run of characters. -/
  | run
  /-- Any run of whole path components. -/
  | components
  deriving DecidableEq, Repr

/-- What can be wrong with a pattern. -/
inductive Flaw where
  /-- Three or more stars in a row. -/
  | longRun
  /-- Two stars that are not a whole path component. -/
  | brokenComponent
  /-- A class without an end. -/
  | openClass
  deriving DecidableEq, Repr

/-- A flaw and its position. -/
structure Fault where
  /-- The number of characters before it. -/
  position : Nat
  /-- What is wrong. -/
  flaw : Flaw
  deriving DecidableEq, Repr

/-- The wording of a flaw. -/
def Flaw.message : Flaw → String
  | .longRun => "wildcards are either regular `*` or recursive `**`"
  | .brokenComponent => "recursive wildcards must form a single path component"
  | .openClass => "invalid range pattern"

/-- The wording of a fault. -/
def Fault.message (f : Fault) : String :=
  "Pattern syntax error near position " ++ toString f.position ++ ": " ++ f.flaw.message

/-- The spans of a class: `a-b` is a range, any other character stands for itself. -/
def spans : List Char → List Span
  | a :: '-' :: b :: rest => ⟨a, b⟩ :: spans rest
  | a :: rest => ⟨a, a⟩ :: spans rest
  | [] => []

/-- The inside of a class and the number of its characters. Its first character cannot end it. -/
def classBody? : List Char → Option (List Char × Nat)
  | [] => none
  | c :: rest =>
    if rest.contains ']' then
      let body := c :: rest.takeWhile (· != ']')
      some (body, body.length)
    else none

/-- The first token of a pattern that goes on with `rest` after `first`, and the number of
characters it takes up. `position` characters stand before it, the last of them `previous`. -/
def firstToken (position : Nat) (previous : Option Char) (first : Char) (rest : List Char) :
    Except Fault (Token × Nat) :=
  match first with
  | '?' => .ok (.any, 1)
  | '*' =>
    match (rest.takeWhile (· == '*')).length with
    | 0 => .ok (.run, 1)
    | 1 =>
      if previous.isNone || previous == some '/' then
        match rest.drop 1 with
        | [] => .ok (.components, 2)
        | '/' :: _ => .ok (.components, 3)
        | _ => .error ⟨position + 2, .brokenComponent⟩
      else .error ⟨position - 1, .brokenComponent⟩
    | _ => .error ⟨position + 2, .longRun⟩
  | '[' =>
    match rest with
    | '!' :: rest =>
      match classBody? rest with
      | some (body, n) => .ok (.noneOf (spans body), n + 3)
      | none => .error ⟨position, .openClass⟩
    | rest =>
      match classBody? rest with
      | some (body, n) => .ok (.oneOf (spans body), n + 2)
      | none => .error ⟨position, .openClass⟩
  | c => .ok (.literal c, 1)

/-- Puts a token behind others, given in reverse. A run of components that follows another is
dropped, unless the pattern starts with that other one. -/
def appendToken (token : Token) : List Token → List Token
  | .components :: t :: ts =>
    if token = .components then .components :: t :: ts else token :: .components :: t :: ts
  | ts => token :: ts

/-- Reads the rest of a pattern. The tokens read so far are given in reverse. -/
def parseFrom (position : Nat) (previous : Option Char) (tokens : List Token) :
    List Char → Except Fault (List Token)
  | [] => .ok tokens.reverse
  | c :: rest =>
    match firstToken position previous c rest with
    | .error e => .error e
    | .ok (token, n) =>
      parseFrom (position + n) ((c :: rest)[n - 1]?) (appendToken token tokens) (rest.drop (n - 1))
termination_by s => s.length
decreasing_by simp only [List.length_drop, List.length_cons]; omega

/-- Whether a token of a single character describes the character. -/
def Token.admits (t : Token) (c : Char) : Bool :=
  match t with
  | .literal d => c == d
  | .any => true
  | .oneOf spans => spans.any (·.contains c)
  | .noneOf spans => !spans.any (·.contains c)
  | .run | .components => false

/-- Given which tails of a name the later tokens describe, which tails the run of characters and
they describe together. -/
def afterRun : List Bool → List Bool
  | [] => []
  | v :: vs =>
    let ws := afterRun vs
    (v || ws.headD false) :: ws

/-- Which tails of a name have a later tail that the later tokens describe and that follows a
slash or is empty. -/
def afterComponents : List Char → List Bool → List Bool
  | c :: s, _ :: vs =>
    let ws := afterComponents s vs
    (ws.headD false || ((c == '/' || s.isEmpty) && vs.headD false)) :: ws
  | _, vs => vs.map fun _ => false

/-- Puts a token in front: given which tails of a name the later tokens describe, which tails the
token and they describe together. -/
def Token.before (t : Token) (name : List Char) (tails : List Bool) : List Bool :=
  match t with
  | .run => afterRun tails
  | .components => List.zipWith (· || ·) tails (afterComponents name tails)
  | t => List.zipWith (fun c v => t.admits c && v) name tails.tail ++ [false]

/-- For every tail of a name, from the whole to the empty one, whether the tokens describe it. -/
def describedTails (tokens : List Token) (name : List Char) : List Bool :=
  tokens.foldr (fun t tails => t.before name tails) (List.replicate name.length false ++ [true])

/-- The characters that are special in a pattern. -/
def isSpecial (c : Char) : Bool :=
  c == '?' || c == '*' || c == '[' || c == ']'

/-- Writes a text as a pattern: a special character becomes a class of its own. -/
def escape (text : List Char) : List Char :=
  text.flatMap fun c => if isSpecial c then ['[', c, ']'] else [c]

end Glob

/-- A pattern for file names. -/
structure Glob where
  /-- The pattern as written. -/
  pattern : String
  /-- Its parts. -/
  tokens : List Glob.Token
  deriving DecidableEq, Repr

namespace Glob

/-- Reads a pattern. -/
def parse (pattern : String) : Except Fault Glob :=
  (parseFrom 0 none [] pattern.toList).map fun tokens => ⟨pattern, tokens⟩

/-- Whether the pattern describes the whole of a name. -/
def describes (g : Glob) (name : String) : Bool :=
  (describedTails g.tokens name.toList).headD false

end Glob

end ReleaseCut
