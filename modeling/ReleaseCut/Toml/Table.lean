import ReleaseCut.Document

/-!
# Tables in TOML

A TOML document defines its tables piece by piece: by headers, by dotted keys and by the elements of
arrays of tables. Which pieces may meet depends on how a table came to be.

* A `Node` is a value, a table or an array of tables under construction.
* `descend` goes down a path of keys, making the tables that are missing. A dotted key may not enter
  a table that a header or a value defined.
* `addValue`, `addTable` and `addElement` are the three kinds of definition; each fails where the
  key is taken.
-/

namespace ReleaseCut.Toml

/-- How a table came to be. -/
inductive Origin where
  /-- A header names it. -/
  | header
  /-- A header names a table inside it. -/
  | implied
  /-- A dotted key names a value inside it. -/
  | dotted
  deriving DecidableEq, Repr

/-- A part of a document under construction. -/
inductive Node where
  /-- A value. -/
  | leaf (value : Value)
  /-- A table. -/
  | table (origin : Origin) (entries : List (String × Node))
  /-- An array of tables, the last one first. -/
  | elements (last : List (String × Node)) (earlier : List (List (String × Node)))

/-- Nodes under keys, in the order of their definition. -/
abbrev Entries := List (String × Node)

/-- What stands under a key. -/
def find? (key : String) (es : Entries) : Option Node :=
  (es.find? (·.1 == key)).map Prod.snd

/-- Puts another node under a key that is there. -/
def replace (key : String) (n : Node) (es : Entries) : Entries :=
  es.map fun e => if e.1 == key then (key, n) else e

/-- Removes a key. -/
def remove (key : String) (es : Entries) : Entries :=
  es.filter (·.1 != key)

/-- Changes the table at the end of a path, which starts in a table of the given origin. With
`dotted` on, the path belongs to a dotted key. -/
def descend (dotted : Bool) (change : Origin → Entries → Option Entries) :
    Origin → List String → Entries → Option Entries
  | origin, [], es => change origin es
  | _, key :: path, es =>
    match find? key es with
    | none => do
      let origin := if dotted then Origin.dotted else Origin.implied
      let sub ← descend dotted change origin path []
      return es ++ [(key, .table origin sub)]
    | some (.leaf _) => none
    | some (.elements last earlier) => do
      let last ← descend dotted change .header path last
      return replace key (.elements last earlier) es
    | some (.table origin sub) =>
      if dotted ∧ origin = .header then none
      else do
        let sub ← descend dotted change origin path sub
        return replace key (.table origin sub) es

/-- Defines a value under a dotted key in a table that is not dotted itself. -/
def addValue (path : List String) (key : String) (v : Value) (es : Entries) : Option Entries :=
  descend true (fun origin es =>
    if (!path.isEmpty && origin != .dotted) || (find? key es).isSome then none
    else some (es ++ [(key, .leaf v)])) .header path es

/-- Defines a table by a header. A table implied so far is moved behind its neighbours. -/
def addTable (path : List String) (key : String) (es : Entries) : Option Entries :=
  descend false (fun _ es =>
    match find? key es with
    | none => some (es ++ [(key, .table .header [])])
    | some (.table .implied sub) => some (remove key es ++ [(key, .table .header sub)])
    | some _ => none) .header path es

/-- Starts a new element of an array of tables. -/
def addElement (path : List String) (key : String) (es : Entries) : Option Entries :=
  descend false (fun _ es =>
    match find? key es with
    | none => some (es ++ [(key, .elements [] [])])
    | some (.elements last earlier) => some (replace key (.elements [] (last :: earlier)) es)
    | some _ => none) .header path es

mutual

/-- The value of a node. -/
def Node.value : Node → Value
  | .leaf v => v
  | .table _ es => .table (valuesOf es)
  | .elements last earlier => .list (elementValues earlier [.table (valuesOf last)])

/-- The values under the keys of a table. -/
def valuesOf : List (String × Node) → List (String × Value)
  | [] => []
  | (key, n) :: es => (key, n.value) :: valuesOf es

/-- The values of elements, the last one first, in front of other values. -/
def elementValues : List (List (String × Node)) → List Value → List Value
  | [], vs => vs
  | es :: earlier, vs => elementValues earlier (.table (valuesOf es) :: vs)

end

end ReleaseCut.Toml
