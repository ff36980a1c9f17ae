/-!
# Splitting at a character

* `splitOn` gives the parts of a text between the occurrences of a character, one more than there
  are occurrences. Putting the character back between them gives the text (`intercalate_splitOn`).
* `cutAt` gives what stands before and after the first occurrence.
-/

namespace ReleaseCut.Text

/-- The parts of a text between the occurrences of a character. -/
def splitOn (mark : Char) : List Char → List (List Char)
  | [] => [[]]
  | c :: s =>
    if c = mark then [] :: splitOn mark s
    else match splitOn mark s with
      | [] => [[c]]
      | p :: ps => (c :: p) :: ps

/-- What stands before and after the first occurrence of a character; the second is absent where
there is none. -/
def cutAt (mark : Char) : List Char → List Char × Option (List Char)
  | [] => ([], none)
  | c :: s =>
    if c = mark then ([], some s)
    else let (a, b) := cutAt mark s; (c :: a, b)

theorem splitOn_ne_nil (mark : Char) (s : List Char) : splitOn mark s ≠ [] := by
  cases s with
  | nil => simp [splitOn]
  | cons c s =>
    rw [splitOn]
    split
    · simp
    · split <;> simp

/-- Nothing is lost by splitting. -/
theorem intercalate_splitOn (mark : Char) (s : List Char) :
    [mark].intercalate (splitOn mark s) = s := by
  induction s with
  | nil => rfl
  | cons c s ih =>
    rw [splitOn]
    split
    · next h =>
      obtain ⟨p, ps, hs⟩ := List.exists_cons_of_ne_nil (splitOn_ne_nil mark s)
      rw [hs] at ih ⊢
      simp_all [List.intercalate, List.intersperse]
    · split
      · next hs => exact absurd hs (splitOn_ne_nil mark s)
      · next p ps hs =>
        rw [hs] at ih
        cases ps <;> simp_all [List.intercalate, List.intersperse]

end ReleaseCut.Text
