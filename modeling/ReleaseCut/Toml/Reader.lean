import ReleaseCut.Toml.Scalar
import ReleaseCut.Toml.Table

/-!
# Reading TOML

A document of TOML 1.0 is a list of lines: definitions of values, table headers, comments and blank
lines.

* `readValue` reads a value. Arrays and inline tables may stand in each other `maxDepth` deep.
* `readDocument` reads a document and gives its top table.
-/

namespace ReleaseCut.Toml

/-- The deepest nesting of arrays and inline tables. -/
def maxDepth : Nat := 79

/-- The largest number of keys in a dotted key. -/
def maxKeys : Nat := 79

/-- A character of a key without quotes. -/
def isBareChar (c : Char) : Bool :=
  c.isAlphanum || c == '_' || c == '-'

/-- Reads one key. -/
def readSimpleKey (s : List Char) : Option (String × List Char) :=
  match s with
  | '"' :: _ | '\'' :: _ => (readQuoted s).map fun (t, rest) => (String.ofList t, rest)
  | s =>
    match s.takeWhile isBareChar with
    | [] => none
    | key => some (String.ofList key, s.dropWhile isBareChar)

/-- Reads a dotted key with blanks around its parts, at most `fuel` of them. -/
def readKeys : (fuel : Nat) → List Char → Option (List String × List Char)
  | 0, _ => none
  | fuel + 1, s => do
    let (key, rest) ← readSimpleKey (skipSpaces s)
    match skipSpaces rest with
    | '.' :: rest => do
      let (keys, rest) ← readKeys fuel rest
      return (key :: keys, rest)
    | rest => some ([key], rest)

/-- Reads a dotted key, as the path to its table and its last part. -/
def readKey (s : List Char) : Option ((List String × String) × List Char) := do
  let (keys, rest) ← readKeys maxKeys s
  match keys.reverse with
  | key :: path => some ((path.reverse, key), rest)
  | [] => none

/-- Skips blanks, comments and ends of lines, at most `fuel` of them. -/
def skipFiller : (fuel : Nat) → List Char → List Char
  | 0, s => s
  | fuel + 1, s =>
    match skipSpaces s with
    | '#' :: rest =>
      match afterNewline? (skipComment ('#' :: rest)) with
      | some s => skipFiller fuel s
      | none => '#' :: rest
    | s =>
      match afterNewline? s with
      | some s => skipFiller fuel s
      | none => s

/-- Reads the items of an array behind others, given in reverse, up to its closing bracket, with a
given reader of values. -/
def readItems (readItem : List Char → Option (Value × List Char)) :
    (fuel : Nat) → (read : List Value) → List Char → Option (Value × List Char)
  | 0, _, _ => none
  | fuel + 1, read, s => do
    let (v, rest) ← readItem s
    match skipFiller rest.length rest with
    | ']' :: rest => some (.list (v :: read).reverse, rest)
    | ',' :: rest =>
      match skipFiller rest.length rest with
      | ']' :: rest => some (.list (v :: read).reverse, rest)
      | rest => readItems readItem fuel (v :: read) rest
    | _ => none

/-- Reads the definitions of an inline table behind others, up to its closing brace, with a given
reader of values. -/
def readPairs (readItem : List Char → Option (Value × List Char)) :
    (fuel : Nat) → (read : Entries) → List Char → Option (Value × List Char)
  | 0, _, _ => none
  | fuel + 1, read, s => do
    let ((path, key), rest) ← readKey s
    let rest ← skipChar '=' rest
    let (v, rest) ← readItem (skipSpaces rest)
    let read ← addValue path key v read
    match skipSpaces rest with
    | '}' :: rest => some (.table (valuesOf read), rest)
    | ',' :: rest => readPairs readItem fuel read rest
    | _ => none

/-- Reads a value that is no array and no inline table. -/
def readPlain (s : List Char) : Option (Value × List Char) :=
  match s with
  | '"' :: _ | '\'' :: _ => (readText s).map fun (t, rest) => (.text (String.ofList t), rest)
  | '[' :: _ | '{' :: _ => none
  | s => readScalar s

/-- Reads a value whose arrays and inline tables go at most `depth` deep. -/
def readValue : (depth : Nat) → List Char → Option (Value × List Char)
  | depth + 1, '[' :: rest =>
    match skipFiller rest.length rest with
    | ']' :: rest => some (.list [], rest)
    | rest => readItems (readValue depth) rest.length [] rest
  | depth + 1, '{' :: rest =>
    match skipSpaces rest with
    | '}' :: rest => some (.table [], rest)
    | rest => readPairs (readValue depth) rest.length [] rest
  | _, s => readPlain s

/-- The definitions read so far, and the path to the table that the next ones belong to. -/
structure Progress where
  /-- The table that a header opened last. -/
  current : List String
  /-- The top table. -/
  entries : Entries

/-- The document before its first line. -/
def Progress.start : Progress := ⟨[], []⟩

/-- Reads a header of a table or of an element of an array of tables. -/
def readHeader (p : Progress) : List Char → Option (Progress × List Char)
  | '[' :: '[' :: s => do
    let ((path, key), rest) ← readKey s
    let rest ← skipChar ']' rest
    let rest ← skipChar ']' rest
    let entries ← addElement path key p.entries
    return (⟨path ++ [key], entries⟩, rest)
  | '[' :: s => do
    let ((path, key), rest) ← readKey s
    let rest ← skipChar ']' rest
    let entries ← addTable path key p.entries
    return (⟨path ++ [key], entries⟩, rest)
  | _ => none

/-- Reads the definition of a value. -/
def readDefinition (p : Progress) (s : List Char) : Option (Progress × List Char) := do
  let ((path, key), rest) ← readKey s
  let rest ← skipChar '=' rest
  let (v, rest) ← readValue maxDepth (skipSpaces rest)
  let entries ← descend false (fun _ es => addValue path key v es) .header p.current p.entries
  return ({ p with entries }, rest)

/-- Reads the lines of a document, at most `fuel` of them. -/
def readStatements : (fuel : Nat) → Progress → List Char → Option Progress
  | 0, _, _ => none
  | fuel + 1, p, s =>
    match skipSpaces s with
    | [] => some p
    | '[' :: s => do
      let (p, rest) ← readHeader p ('[' :: s)
      readStatements fuel p (← finishLine? rest)
    | '#' :: s => do readStatements fuel p (← finishLine? ('#' :: s))
    | s =>
      match afterNewline? s with
      | some s => readStatements fuel p s
      | none => do
        let (p, rest) ← readDefinition p s
        readStatements fuel p (← finishLine? rest)

/-- Leaves out a byte order mark. -/
def dropMark : List Char → List Char
  | '\ufeff' :: s => s
  | s => s

/-- Reads a document. -/
def readDocument (text : String) : Except DocumentFault Value :=
  let s := dropMark text.toList
  match readStatements (s.length + 1) .start s with
  | some p => .ok (.table (valuesOf p.entries))
  | none => .error .malformed

end ReleaseCut.Toml
