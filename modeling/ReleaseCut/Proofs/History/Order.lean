import Mathlib.Data.List.Sort
import ReleaseCut.Proofs.History.Walk

/-!
# The order of the walk

`History.walk` lists no commit before one of its ancestors (`pairwise_walk`). A commit is met when
its children in the range are taken, and a range holds all that lies between two of its commits. So
whoever reaches a commit that is taken was taken before it (`Walking.mem_taken_of_reaches`).

In a linear history this leaves one order only: the walk lists the commits after the base by their
numbers (`IsLinear.walk_eq`).
-/

namespace ReleaseCut

namespace History

variable {h : History} {i j k head : Nat} {base : Option Nat}

/-! ### Ancestors first -/

/-- A range holds what lies between two of its commits. -/
theorem mem_range_of_between (hi : i ∈ h.range head base) (hij : h.Reaches i j)
    (hjk : h.Reaches j k) (hk : k ∈ h.range head base) : j ∈ h.range head base := by
  obtain ⟨hsize, hhead, -⟩ := mem_range.1 hi
  obtain ⟨-, -, hfree⟩ := mem_range.1 hk
  refine mem_range.2 ⟨Nat.lt_of_le_of_lt hij.le hsize, hhead.trans hij, fun b hb hbj => ?_⟩
  exact hfree b hb (hbj.trans hjk)

namespace Walking

variable {stack taken : List Nat} {c : Nat}

/-- Whoever reaches a commit that is taken is taken too. -/
theorem mem_taken_of_reaches (w : Walking h (h.range head base) stack taken) (hj : j ∈ taken)
    (hi : i ∈ h.range head base) (hij : h.Reaches i j) : i ∈ taken := by
  -- along the way from `j` back to `i`, from child to child
  induction hij with
  | refl => exact hj
  | @step k p hik hp ih =>
    have hmet : p ∈ stack ++ taken := List.mem_append_right _ hj
    have hk : k ∈ h.range head base :=
      mem_range_of_between hi hik (.of_parent hp) (w.subset p hmet)
    exact ih (w.children_taken p hmet k hk hp)

/-- The commit taken next is no descendant of one that is taken. -/
theorem pairwise_take (w : Walking h (h.range head base) (c :: stack) taken)
    (htaken : taken.Pairwise fun i j => ¬ h.Reaches i j) :
    (c :: taken).Pairwise fun i j => ¬ h.Reaches i j := by
  have hnew : c ∉ taken := by
    have hnodup := w.nodup
    rw [List.cons_append, List.nodup_cons] at hnodup
    exact fun hc => hnodup.1 (List.mem_append_right _ hc)
  refine List.pairwise_cons.2 ⟨fun j hj hcj => hnew ?_, htaken⟩
  exact w.mem_taken_of_reaches hj (w.subset c (by simp)) hcj

end Walking

/-- However many steps a walk has, it takes no commit before one that it is reached from. -/
private theorem pairwise_walkFrom {fuel : Nat} {stack taken : List Nat}
    (w : Walking h (h.range head base) stack taken)
    (htaken : taken.Pairwise fun i j => ¬ h.Reaches i j) :
    (h.walkFrom (h.range head base) fuel stack taken).Pairwise fun i j => ¬ h.Reaches i j := by
  induction fuel generalizing stack taken with
  | zero => exact htaken
  | succ fuel ih =>
    cases stack with
    | nil => exact htaken
    | cons c stack => exact ih w.take (w.pairwise_take htaken)

/-- The walk lists no commit before one of its ancestors. -/
theorem pairwise_walk (h : History) (head : Nat) (base : Option Nat) :
    (h.walk head base).Pairwise fun i j => ¬ h.Reaches i j := by
  rw [walk]
  split
  · next hmem => exact pairwise_walkFrom (.start_range (by simpa using hmem)) .nil
  · exact .nil

/-! ### Linear histories -/

/-- Every commit but the first has the one before it as its only parent. -/
def IsLinear (h : History) : Prop :=
  ∀ i, i + 1 < h.size → h.parents (i + 1) = [i]

namespace IsLinear

/-- In a linear history a commit reaches those that are not newer. -/
theorem reaches_iff (hlinear : h.IsLinear) (hi : i < h.size) : h.Reaches i j ↔ j ≤ i := by
  refine ⟨Reaches.le, fun hle => ?_⟩
  induction i with
  | zero => exact Nat.le_zero.1 hle ▸ .refl
  | succ i ih =>
    rcases Nat.of_le_succ hle with hle | rfl
    · have hparent : i ∈ h.parents (i + 1) := by simp [hlinear i hi]
      exact (Reaches.of_parent hparent).trans (ih (Nat.lt_of_succ_lt hi) hle)
    · exact .refl

/-- In a linear history the walk goes from the commit after the base to the head. -/
theorem walk_eq (hlinear : h.IsLinear) (hhead : head < h.size) (hbase : ∀ b ∈ base, b < h.size) :
    h.walk head base = List.range' (base.elim 0 (· + 1)) (head + 1 - base.elim 0 (· + 1)) := by
  -- both lists ascend and hold the same numbers
  have hascends : (h.walk head base).Pairwise (· < ·) := by
    refine (h.pairwise_walk head base).imp_of_mem fun hi _ hnot => ?_
    rw [hlinear.reaches_iff (mem_walk.1 hi).1] at hnot
    exact Nat.lt_of_not_le hnot
  refine hascends.eq_of_mem_iff List.pairwise_lt_range' fun j => ?_
  have hfree : (∀ b ∈ base, ¬ h.Reaches b j) ↔ base.elim 0 (· + 1) ≤ j := by
    cases base with
    | none => simp
    | some b =>
      have hnot : ¬ h.Reaches b j ↔ b + 1 ≤ j := by
        rw [hlinear.reaches_iff (hbase b rfl), Nat.not_le, Nat.succ_le_iff]
      simpa using hnot
  rw [mem_walk, hlinear.reaches_iff hhead, hfree, List.mem_range'_1]
  omega

end IsLinear

end History

end ReleaseCut
