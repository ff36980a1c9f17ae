/-!
# Texts in TOML

Blanks, comments and the four kinds of quoted texts of TOML 1.0. Every reader takes the characters
that are left and gives back what it read and what is left then.

* A line ends in a newline, with or without a carriage return before it; a carriage return alone
  ends nothing and stands nowhere.
* `readQuoted` reads a text on one line, `readText` also one over several lines.
-/

namespace ReleaseCut.Toml

/-- A blank within a line. -/
def isSpace (c : Char) : Bool :=
  c == ' ' || c == '\t'

/-- Skips blanks within a line. -/
def skipSpaces (s : List Char) : List Char :=
  s.dropWhile isSpace

/-- A character that may stand in a comment or, quotes apart, in a text. -/
def isPlain (c : Char) : Bool :=
  c == '\t' || (' ' ≤ c && c != '\x7f')

/-- What is left behind the end of a line. -/
def afterNewline? : List Char → Option (List Char)
  | '\n' :: s => some s
  | '\r' :: '\n' :: s => some s
  | _ => none

/-- Skips a comment, up to the end of its line. -/
def skipComment : List Char → List Char
  | '#' :: s => s.dropWhile isPlain
  | s => s

/-- What is left behind the rest of a line that holds no more than blanks and a comment. -/
def finishLine? (s : List Char) : Option (List Char) :=
  match skipComment (skipSpaces s) with
  | [] => some []
  | s => afterNewline? s

/-- The value of a hexadecimal digit. -/
def hexDigit? (c : Char) : Option Nat :=
  if c.isDigit then some (c.toNat - '0'.toNat)
  else if 'a' ≤ c ∧ c ≤ 'f' then some (c.toNat - 'a'.toNat + 10)
  else if 'A' ≤ c ∧ c ≤ 'F' then some (c.toNat - 'A'.toNat + 10)
  else none

/-- The character of a code point in hexadecimal. -/
def codePoint? (digits : List Char) : Option Char := do
  let ds ← digits.mapM hexDigit?
  let n := ds.foldl (fun n d => 16 * n + d) 0
  if n.isValidChar then some (Char.ofNat n) else none

/-- The character of an escape and the characters it takes up behind its backslash. -/
def escape? : List Char → Option (Char × Nat)
  | 'b' :: _ => some ('\x08', 1)
  | 't' :: _ => some ('\t', 1)
  | 'n' :: _ => some ('\n', 1)
  | 'f' :: _ => some ('\x0c', 1)
  | 'r' :: _ => some ('\r', 1)
  | '"' :: _ => some ('"', 1)
  | '\\' :: _ => some ('\\', 1)
  | 'u' :: a :: b :: c :: d :: _ => (codePoint? [a, b, c, d]).map (·, 5)
  | 'U' :: a :: b :: c :: d :: e :: f :: g :: h :: _ =>
    (codePoint? [a, b, c, d, e, f, g, h]).map (·, 9)
  | _ => none

/-- Reads a text with escapes up to its closing quote. The first `skip` characters belong to an
escape already read. -/
def readBasic (read : List Char) : (skip : Nat) → List Char → Option (List Char × List Char)
  | _, [] => none
  | skip + 1, _ :: s => readBasic read skip s
  | 0, '"' :: s => some (read.reverse, s)
  | 0, '\\' :: s =>
    match escape? s with
    | some (c, n) => readBasic (c :: read) n s
    | none => none
  | 0, c :: s => if isPlain c then readBasic (c :: read) 0 s else none

/-- Reads a text without escapes up to its closing quote. -/
def readLiteral (s : List Char) : Option (List Char × List Char) :=
  match s.dropWhile fun c => isPlain c && c != '\'' with
  | '\'' :: rest => some (s.takeWhile (fun c => isPlain c && c != '\''), rest)
  | _ => none

/-- Whether only blanks are left in a line, and the line ends. -/
def endsLine (s : List Char) : Bool :=
  (afterNewline? (skipSpaces s)).isSome

/-- Reads a text over several lines up to three closing quotes; two more quotes in front of them
belong to the text. With `escapes` on, a backslash starts an escape, or at the end of a line skips
all blanks and line ends behind it; `skipping` is on while it does. -/
def readLines (quote : Char) (escapes : Bool) (read : List Char) (skipping : Bool) :
    (skip : Nat) → List Char → Option (List Char × List Char)
  | _, [] => none
  | skip + 1, _ :: s => readLines quote escapes read skipping skip s
  | 0, '\r' :: '\n' :: s =>
    readLines quote escapes (if skipping then read else '\n' :: read) skipping 0 s
  | 0, c :: s =>
    if c = '\n' then readLines quote escapes (if skipping then read else '\n' :: read) skipping 0 s
    else if skipping ∧ isSpace c then readLines quote escapes read skipping 0 s
    else if c = quote then
      match s.takeWhile (· == quote) with
      | [] => readLines quote escapes (c :: read) false 0 s
      | [_] => readLines quote escapes (c :: read) false 0 s
      | _ :: _ :: more =>
        let extra := min more.length 2
        some (read.reverse ++ List.replicate extra quote, s.drop (2 + extra))
    else if c = '\\' ∧ escapes then
      if endsLine s then readLines quote escapes read true 0 s
      else match escape? s with
        | some (d, n) => readLines quote escapes (d :: read) false n s
        | none => none
    else if isPlain c then readLines quote escapes (c :: read) false 0 s
    else none

/-- Leaves out the end of the line behind opening quotes. -/
def dropFirstNewline (s : List Char) : List Char :=
  (afterNewline? s).getD s

/-- Reads a quoted text on one line. -/
def readQuoted : List Char → Option (List Char × List Char)
  | '"' :: s => readBasic [] 0 s
  | '\'' :: s => readLiteral s
  | _ => none

/-- Reads a quoted text of any kind. -/
def readText : List Char → Option (List Char × List Char)
  | '"' :: '"' :: '"' :: s => readLines '"' true [] false 0 (dropFirstNewline s)
  | '\'' :: '\'' :: '\'' :: s => readLines '\'' false [] false 0 (dropFirstNewline s)
  | s => readQuoted s

end ReleaseCut.Toml
