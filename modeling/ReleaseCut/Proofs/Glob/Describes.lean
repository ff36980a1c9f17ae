import Mathlib.Data.List.Infix
import ReleaseCut.Glob

/-!
# What a pattern describes

`Glob.describes` keeps a truth value for every tail of the name. As functions of the tail these
values are what one would write down for each token: `Glob.Token.accepts` says which texts a token
and those after it describe, given which texts those describe, and `describes_eq` that this is what
is computed.
-/

namespace ReleaseCut

namespace Glob

variable {tokens : List Token} {name : List Char} {P : List Char → Bool}

/-- Whether a run of whole components is left out behind the first character of a text. -/
def skipsComponents (P : List Char → Bool) : List Char → Bool
  | [] => false
  | c :: s => skipsComponents P s || ((c == '/' || s.isEmpty) && P s)

/-- The texts that a token and later ones describe, given those that the later ones describe. -/
def Token.accepts (t : Token) (P : List Char → Bool) (text : List Char) : Bool :=
  match t with
  | .run => text.tails.any P
  | .components => P text || skipsComponents P text
  | t =>
    match text with
    | [] => false
    | c :: s => t.admits c && P s

private theorem afterRun_tails : afterRun (name.tails.map P) = name.tails.map (·.tails.any P) := by
  induction name with
  | nil => simp [afterRun]
  | cons c s ih =>
    rw [List.tails_cons, List.map_cons, afterRun, ih]
    cases s <;> simp

private theorem afterComponents_tails :
    afterComponents name (name.tails.map P) = name.tails.map (skipsComponents P) := by
  induction name with
  | nil => simp [afterComponents, skipsComponents]
  | cons c s ih =>
    rw [List.tails_cons, List.map_cons, afterComponents, ih]
    cases s <;> simp [skipsComponents]

private theorem zipWith_admits_tails {t : Token} :
    List.zipWith (fun c v => t.admits c && v) name (name.tails.map P).tail ++ [false] =
      name.tails.map fun
        | [] => false
        | c :: s => t.admits c && P s := by
  induction name with
  | nil => simp
  | cons c s ih =>
    cases s with
    | nil => simp
    | cons d s => simp_all

/-- A token changes the truth values of all tails as it says. -/
private theorem before_tails {t : Token} :
    t.before name (name.tails.map P) = name.tails.map (t.accepts P) := by
  cases t with
  | run => exact afterRun_tails
  | components =>
    rw [Token.before, afterComponents_tails, List.zipWith_map, List.zipWith_self]
    rfl
  | literal d => exact zipWith_admits_tails
  | any => exact zipWith_admits_tails
  | oneOf spans => exact zipWith_admits_tails
  | noneOf spans => exact zipWith_admits_tails

private theorem describedTails_eq :
    describedTails tokens name = name.tails.map (tokens.foldr Token.accepts List.isEmpty) := by
  induction tokens with
  | nil =>
    rw [describedTails, List.foldr_nil, List.foldr_nil]
    induction name with
    | nil => rfl
    | cons c s ih => simp_all [List.replicate_succ]
  | cons t tokens ih =>
    rw [describedTails, List.foldr_cons, ← describedTails, ih, before_tails, List.foldr_cons]

/-- A pattern describes the names that its tokens accept one after the other. -/
theorem describes_eq (g : Glob) (name : String) :
    g.describes name = g.tokens.foldr Token.accepts List.isEmpty name.toList := by
  rw [describes, describedTails_eq]
  cases name.toList <;> simp

end Glob

end ReleaseCut
