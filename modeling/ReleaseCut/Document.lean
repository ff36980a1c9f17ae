/-!
# Documents

The values that a configuration document is made of. Only texts, lists and tables matter to a
configuration; the other values are kept as written.
-/

namespace ReleaseCut

/-- A value of a document. -/
inductive Value where
  /-- No value. -/
  | null
  /-- A truth value. -/
  | boolean (value : Bool)
  /-- A number, as written. -/
  | number (written : String)
  /-- A date, a time or both, as written. -/
  | dateTime (written : String)
  /-- A text. -/
  | text (value : String)
  /-- A list of values. -/
  | list (items : List Value)
  /-- Values under keys, in the order of the document. -/
  | table (entries : List (String × Value))
  deriving Inhabited, Repr

/-- Why a document is no configuration. -/
inductive DocumentFault where
  /-- It is malformed, or a value has the wrong type. -/
  | malformed
  /-- A text in the order of sections names no section. -/
  | unknownSection (text : String)
  deriving DecidableEq, Repr

/-- The wording of a text that names no section. -/
def unknownSectionMessage (text : String) : String :=
  "Unknown section: " ++ text

namespace Value

/-- A text. -/
def asText : Value → Except DocumentFault String
  | .text s => .ok s
  | _ => .error .malformed

/-- The values of a list. -/
def asList : Value → Except DocumentFault (List Value)
  | .list vs => .ok vs
  | _ => .error .malformed

/-- The values under given keys. A list gives its values to the keys one by one, and a date stands
for a table that has none of the keys. -/
def asRecord (keys : List String) : Value → Except DocumentFault (List (String × Value))
  | .table es => .ok es
  | .list vs => .ok (keys.zip vs)
  | .dateTime _ => .ok []
  | _ => .error .malformed

end Value

end ReleaseCut
