import ReleaseCut.Date
import ReleaseCut.Document
import ReleaseCut.Toml.Text

/-!
# Scalars in TOML

Truth values, numbers, dates and times of TOML 1.0. A number or date is kept as written, once it is
known to be one.

* An integer has to fit 64 bits with a sign. A decimal number may not exceed the largest finite one
  of double precision.
* A date has to be a day of the calendar, a time a time of the day, where a minute may have a
  second 60.
-/

namespace ReleaseCut.Toml

/-- Reads digits of a kind, with single underscores between them; the underscores are left out. -/
def readDigits (isDigit : Char → Bool) : List Char → Option (List Char × List Char)
  | c :: s => if isDigit c then some (go [c] s) else none
  | [] => none
where
  /-- Reads the digits behind others, given in reverse. -/
  go (read : List Char) : List Char → List Char × List Char
    | '_' :: c :: s => if isDigit c then go (c :: read) s else (read.reverse, '_' :: c :: s)
    | c :: s => if isDigit c then go (c :: read) s else (read.reverse, c :: s)
    | [] => (read.reverse, [])

/-- Reads a sign; `true` stands for minus. -/
def readSign : List Char → Option Bool × List Char
  | '-' :: s => (some true, s)
  | '+' :: s => (some false, s)
  | s => (none, s)

/-- Reads the decimal digits of a whole number, without needless zeros. -/
def readWhole : List Char → Option (List Char × List Char)
  | '0' :: s => some (['0'], s)
  | s => readDigits Char.isDigit s

/-- The value of digits in a base. -/
def valueOf (base : Nat) (digits : List Char) : Nat :=
  digits.foldl (fun n c => base * n + (hexDigit? c).getD 0) 0

/-- The written form of what was read between two lists of characters. -/
def written (s rest : List Char) : String :=
  String.ofList (s.take (s.length - rest.length))

/-- Whether a number fits 64 bits with a sign. -/
def fitsInteger (negative : Bool) (n : Nat) : Bool :=
  if negative then n ≤ Nat.pow 2 63 else n < Nat.pow 2 63

/-- Reads an integer. -/
def readInteger (s : List Char) : Option (Value × List Char) :=
  let inBase (base : Nat) (isDigit : Char → Bool) (s' : List Char) : Option (Value × List Char) :=
    match readDigits isDigit s' with
    | some (digits, rest) =>
      if fitsInteger false (valueOf base digits) then some (.number (written s rest), rest)
      else none
    | none => none
  match s with
  | '0' :: 'x' :: s' => inBase 16 (fun c => (hexDigit? c).isSome) s'
  | '0' :: 'o' :: s' => inBase 8 (fun c => '0' ≤ c && c ≤ '7') s'
  | '0' :: 'b' :: s' => inBase 2 (fun c => c == '0' || c == '1') s'
  | s => do
    let (sign, s') := readSign s
    let (digits, rest) ← readWhole s'
    if fitsInteger (sign == some true) (valueOf 10 digits) then
      some (.number (written s rest), rest)
    else none

/-- The least number that rounds to more than the largest finite number of double precision. -/
def overflowBound : Nat :=
  Nat.pow 2 1024 - Nat.pow 2 970

/-- Whether `digits · 10 ^ exponent` exceeds the finite numbers of double precision. -/
def overflows (digits : List Char) (exponent : Int) : Bool :=
  let m := valueOf 10 digits
  let size := (Nat.toDigits 10 m).length + exponent
  if m = 0 ∨ size < 300 then false
  else if 400 < size then true
  else if 0 ≤ exponent then overflowBound ≤ m * Nat.pow 10 exponent.toNat
  else overflowBound * Nat.pow 10 exponent.natAbs ≤ m

/-- Reads the exponent of a decimal number. -/
def readExponent : List Char → Option (Int × List Char)
  | c :: s => do
    if c ≠ 'e' ∧ c ≠ 'E' then none
    let (sign, s) := readSign s
    let (digits, rest) ← readDigits Char.isDigit s
    let n : Int := valueOf 10 digits
    return (if sign == some true then -n else n, rest)
  | [] => none

/-- Reads a decimal number: a whole number with a fraction, an exponent or both. -/
def readDecimal (s : List Char) : Option (Value × List Char) := do
  let (sign, s') := readSign s
  let (whole, rest) ← readWhole s'
  let (fraction, exponent, rest) ← match rest with
    | '.' :: rest => do
      let (fraction, rest) ← readDigits Char.isDigit rest
      match readExponent rest with
      | some (e, rest) => some (fraction, e, rest)
      | none =>
        match rest with
        | 'e' :: _ | 'E' :: _ => none
        | rest => some (fraction, 0, rest)
    | rest => do
      let (e, rest) ← readExponent rest
      some ([], e, rest)
  if sign ≠ some true ∧ overflows (whole ++ fraction) (exponent - fraction.length) then none
  else some (.number (written s rest), rest)

/-- Reads one of the numbers that have names. -/
def readNamed (s : List Char) : Option (Value × List Char) :=
  match (readSign s).2 with
  | 'i' :: 'n' :: 'f' :: rest => some (.number (written s rest), rest)
  | 'n' :: 'a' :: 'n' :: rest => some (.number (written s rest), rest)
  | _ => none

/-- Reads a number of two digits between bounds. -/
def readTwo (low high : Nat) : List Char → Option (Nat × List Char)
  | a :: b :: s => do
    if !(a.isDigit && b.isDigit) then none
    let n := valueOf 10 [a, b]
    if low ≤ n ∧ n ≤ high then some (n, s) else none
  | _ => none

/-- Skips one given character. -/
def skipChar (c : Char) : List Char → Option (List Char)
  | d :: s => if c = d then some s else none
  | [] => none

/-- Skips a date. -/
def skipDate : List Char → Option (List Char)
  | a :: b :: c :: d :: '-' :: s => do
    if !([a, b, c, d].all Char.isDigit) then none
    let (month, s) ← readTwo 1 12 s
    let s ← skipChar '-' s
    let (day, s) ← readTwo 1 31 s
    if day ≤ daysInMonth (valueOf 10 [a, b, c, d]) month then some s else none
  | _ => none

/-- Skips a time of the day. -/
def skipTime (s : List Char) : Option (List Char) := do
  let (_, s) ← readTwo 0 23 s
  let s ← skipChar ':' s
  let (_, s) ← readTwo 0 59 s
  let s ← skipChar ':' s
  let (_, s) ← readTwo 0 60 s
  match s with
  | '.' :: c :: rest => if c.isDigit then some (rest.dropWhile Char.isDigit) else some s
  | s => some s

/-- Skips the distance of a time from universal time, if it is given. -/
def skipOffset : List Char → Option (List Char)
  | 'Z' :: s | 'z' :: s => some s
  | '+' :: s | '-' :: s => do
    let (_, s) ← readTwo 0 23 s
    let s ← skipChar ':' s
    let (_, s) ← readTwo 0 59 s
    return s
  | s => some s

/-- Whether the characters start like a time. -/
def startsTime (s : List Char) : Bool :=
  match readTwo 0 23 s with
  | some (_, ':' :: _) => true
  | _ => false

/-- Skips a date, a time or both. -/
def skipDateTime (s : List Char) : Option (List Char) :=
  if startsTime s then skipTime s
  else do
    let s ← skipDate s
    match s with
    | c :: rest =>
      if (c == 'T' || c == 't' || c == ' ') && startsTime rest then
        skipTime rest >>= skipOffset
      else some s
    | [] => some []

/-- Reads a date, a time or both. -/
def readDateTime (s : List Char) : Option (Value × List Char) :=
  (skipDateTime s).map fun rest => (.dateTime (written s rest), rest)

/-- Reads a scalar that is no text. What starts like a date is read as one, then the longest form
of a number counts. -/
def readScalar (s : List Char) : Option (Value × List Char) :=
  match s with
  | 't' :: 'r' :: 'u' :: 'e' :: rest => some (.boolean true, rest)
  | 'f' :: 'a' :: 'l' :: 's' :: 'e' :: rest => some (.boolean false, rest)
  | s => readDateTime s <|> readDecimal s <|> readNamed s <|> readInteger s

end ReleaseCut.Toml
