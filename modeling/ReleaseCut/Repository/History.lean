import ReleaseCut.Bytes

/-!
# Histories

Commits with their parents. A commit is added after all its parents, so its parents have smaller
numbers and no commit is its own ancestor.

* `History.reachable` lists what can be reached from a commit: one sweep from the newest commit to
  the oldest marks the parents of every marked commit.
* `History.walk` orders the commits reached from one and not from another. Taking from a stack that
  starts with the newest, it goes on with those parents all of whose children in the range were
  taken, the last of them first; the order is that of the walk turned around, so that no commit
  comes before an ancestor.
* `History.Walker` is what a library is asked for that walks histories. The standard one walks as
  `History.walk` does.
-/

namespace ReleaseCut

/-- A commit in a history. -/
structure HistoryCommit where
  /-- The hash of the commit. -/
  hash : String
  /-- The bytes of the message. -/
  message : ByteArray
  /-- The numbers of the parents. -/
  parents : List Nat
  deriving DecidableEq

namespace HistoryCommit

/-- The message as a text, up to a NUL byte and without newlines at the start; empty if its bytes
are no text. -/
def text (c : HistoryCommit) : String :=
  match String.fromUTF8? ⟨(c.message.data.toList.takeWhile (· ≠ 0)).toArray⟩ with
  | some s => String.ofList (s.toList.dropWhile (· == '\n'))
  | none => ""

end HistoryCommit

/-- Commits, numbered from the oldest. -/
structure History where
  /-- The commits in the order of their numbers. -/
  commits : List HistoryCommit
  /-- Parents are older than their children. -/
  parents_lt : ∀ (i : Nat) (c : HistoryCommit), commits[i]? = some c → ∀ p ∈ c.parents, p < i

namespace History

/-- The history without commits. -/
def empty : History := ⟨[], by simp⟩

/-- The number of commits, which is the number of the next one. -/
def size (h : History) : Nat :=
  h.commits.length

/-- Adds a commit, with those of the given parents that the history holds. -/
def add (h : History) (hash : String) (message : ByteArray) (parents : List Nat) : History where
  commits := h.commits ++ [⟨hash, message, parents.filter (· < h.size)⟩]
  parents_lt := by
    intro i c hi p hp
    rcases Nat.lt_or_ge i h.commits.length with hlt | hge
    · rw [List.getElem?_append_left hlt] at hi
      exact h.parents_lt i c hi p hp
    · rw [List.getElem?_append_right hge] at hi
      cases hj : i - h.commits.length with
      | zero =>
        rw [hj] at hi
        obtain rfl : _ = c := by simpa using hi
        have : p < h.size := by simpa using (List.mem_filter.1 hp).2
        exact Nat.lt_of_lt_of_le this hge
      | succ n =>
        rw [hj] at hi
        simp at hi

/-- The parents of a commit. -/
def parents (h : History) (i : Nat) : List Nat :=
  ((h.commits[i]?).map (·.parents)).getD []

/-- `h.Reaches i j` says that `j` is `i` or an ancestor of it. -/
inductive Reaches (h : History) (i : Nat) : Nat → Prop
  /-- Every commit reaches itself. -/
  | refl : Reaches h i i
  /-- A commit reaches the parents of those it reaches. -/
  | step {j p : Nat} : Reaches h i j → p ∈ h.parents j → Reaches h i p

/-- Marks the parents of the marked commits with numbers below a bound, from the newest on. -/
def sweep (h : History) : Nat → List Nat → List Nat
  | 0, marked => marked
  | i + 1, marked =>
    if marked.contains i then sweep h i (h.parents i ++ marked) else sweep h i marked

/-- The commits reached from one, that one among them, in the order of their numbers. -/
def reachable (h : History) (i : Nat) : List Nat :=
  let marked := h.sweep h.size [i]
  (List.range h.size).filter marked.contains

/-- The commits reached from one and not from another. -/
def range (h : History) (head : Nat) (base : Option Nat) : List Nat :=
  let hidden := (base.map h.reachable).getD []
  (h.reachable head).filter (!hidden.contains ·)

/-- Of the parents of the commit taken last, those in the range all of whose children there were
taken. A parent named twice counts where it is named last. -/
def released (h : History) (range taken : List Nat) : List Nat → List Nat
  | [] => []
  | p :: ps =>
    if range.contains p && !ps.contains p &&
        range.all (fun c => !(h.parents c).contains p || taken.contains c) then
      p :: released h range taken ps
    else released h range taken ps

/-- Takes commits from a stack, at most `fuel` of them. The commits taken are listed with the last
one first. -/
def walkFrom (h : History) (range : List Nat) : (fuel : Nat) → (stack taken : List Nat) → List Nat
  | 0, _, taken => taken
  | _ + 1, [], taken => taken
  | fuel + 1, c :: stack, taken =>
    let taken := c :: taken
    walkFrom h range fuel ((h.released range taken (h.parents c)).reverse ++ stack) taken

/-- The commits reached from `head` and not from `base`, oldest first. -/
def walk (h : History) (head : Nat) (base : Option Nat) : List Nat :=
  let range := h.range head base
  if range.contains head then h.walkFrom range range.length [head] [] else []

/-- A library that walks histories. It may go by more than a history holds, such as the dates of the
commits. -/
class Walker where
  /-- Lists the commits reached from one and not from another, oldest first. -/
  walk : History → (head : Nat) → (base : Option Nat) → List Nat

/-- How histories are walked whose commits are dated after their parents. -/
instance Walker.standard : Walker :=
  ⟨History.walk⟩

end History

end ReleaseCut
