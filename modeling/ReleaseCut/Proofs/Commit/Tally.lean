import Mathlib.Data.List.Basic
import Mathlib.Data.List.Nodup
import Mathlib.Order.Bounds.Basic
import Mathlib.Order.MinMax
import ReleaseCut.Commit.Tally

/-!
# What a list of commits amounts to

The kinds of the classified commits (`Commit.kinds`) decide it all: their largest bump is that of
the list (`isGreatest_largestBump`), whatever their order (`largestBump_eq_of_perm`), the tally
lists each of them once with the number of its commits (`isTally_tally`), and the other commits are
those left out (`unclassified_add_length_kinds`).
-/

namespace ReleaseCut

theorem Bump.rank_injective : Function.Injective Bump.rank := by
  intro a b
  cases a <;> cases b <;> simp [rank]

/-- Bumps are ordered by their rank. -/
instance : LinearOrder Bump where
  le_refl a := Nat.le_refl a.rank
  le_trans _ _ _ := Nat.le_trans
  le_antisymm _ _ hab hba := Bump.rank_injective (Nat.le_antisymm hab hba)
  lt_iff_le_not_ge _ _ := Nat.lt_iff_le_and_not_ge
  le_total a b := Nat.le_total a.rank b.rank
  toDecidableLE := inferInstance
  toDecidableLT := inferInstance
  toDecidableEq := inferInstance

theorem Bump.none_le (b : Bump) : Bump.none ≤ b :=
  Nat.zero_le b.rank

/-- Every kind asks for a release. -/
theorem Kind.bump_ne_none (k : Kind) : k.bump ≠ .none := by
  cases k <;> nofun

namespace Commit

variable {c : Commit} {cs xs ys : List Commit} {b : Bump}

/-- The kinds of the commits that are classified. -/
def kinds (cs : List Commit) : List Kind :=
  cs.filterMap (·.kind?)

theorem kinds_cons (c : Commit) (cs : List Commit) :
    kinds (c :: cs) = c.kind?.toList ++ kinds cs := by
  cases h : c.kind? <;> simp [kinds, h]

theorem kinds_append (xs ys : List Commit) : kinds (xs ++ ys) = kinds xs ++ kinds ys :=
  List.filterMap_append

/-- The bumps that the classified commits ask for. -/
def bumps (cs : List Commit) : Set Bump :=
  {b | ∃ k ∈ kinds cs, k.bump = b}

/-- Together with the commits of no kind these are all. -/
theorem unclassified_add_length_kinds (cs : List Commit) :
    unclassified cs + (kinds cs).length = cs.length := by
  have hlength : (kinds cs).length = cs.countP (·.kind?.isSome) := List.length_filterMap_eq_countP
  rw [hlength, Nat.add_comm, List.length_eq_countP_add_countP (·.kind?.isSome), unclassified]
  congr 2
  funext c
  cases c.kind? <;> rfl

/-! ### The largest bump -/

theorem largestBump_cons (c : Commit) (cs : List Commit) :
    largestBump (c :: cs) = max c.bump (largestBump cs) := rfl

theorem bump_le_iff : c.bump ≤ b ↔ ∀ k ∈ c.kind?, k.bump ≤ b := by
  cases h : c.kind? <;> simp [bump, h, Bump.none_le]

/-- The largest bump is the least one that is not exceeded. -/
theorem largestBump_le_iff : largestBump cs ≤ b ↔ ∀ k ∈ kinds cs, k.bump ≤ b := by
  induction cs with
  | nil => simp [largestBump, kinds, Bump.none_le]
  | cons c cs ih =>
    rw [largestBump_cons, max_le_iff, ih, bump_le_iff, kinds_cons]
    simp [or_imp, forall_and]

/-- No bump is larger than the largest one. -/
theorem bump_le_largestBump {k : Kind} (h : k ∈ kinds cs) : k.bump ≤ largestBump cs :=
  largestBump_le_iff.1 le_rfl k h

/-- Without classified commits there is no bump, and only then. -/
theorem largestBump_eq_none_iff : largestBump cs = .none ↔ kinds cs = [] := by
  constructor
  · intro h
    refine List.eq_nil_iff_forall_not_mem.2 fun k hk => k.bump_ne_none ?_
    exact le_antisymm (h ▸ bump_le_largestBump hk) (Bump.none_le _)
  · intro h
    refine le_antisymm (largestBump_le_iff.2 ?_) (Bump.none_le _)
    simp [h]

/-- The largest bump is that of some kind, if there is one. -/
theorem isGreatest_largestBump (h : kinds cs ≠ []) :
    IsGreatest (bumps cs) (largestBump cs) := by
  refine ⟨?_, fun _ ⟨k, hk, hb⟩ => hb ▸ bump_le_largestBump hk⟩
  rw [Ne, ← largestBump_eq_none_iff] at h
  induction cs with
  | nil => exact absurd rfl h
  | cons c cs ih =>
    rw [largestBump_cons] at h ⊢
    rw [bumps, kinds_cons]
    rcases max_choice c.bump (largestBump cs) with hmax | hmax
    · rw [hmax] at h ⊢
      cases hk : c.kind? with
      | none => simp [bump, hk] at h
      | some k => exact ⟨k, by simp, by simp [bump, hk]⟩
    · rw [hmax] at h ⊢
      obtain ⟨k, hk, hb⟩ := ih h
      exact ⟨k, List.mem_append_right _ hk, hb⟩

/-- What is the largest bump of the classified commits takes such a commit. -/
theorem isGreatest_bumps_iff : IsGreatest (bumps cs) b ↔ kinds cs ≠ [] ∧ largestBump cs = b := by
  constructor
  · intro h
    obtain ⟨k, hk, -⟩ := h.1
    have hne : kinds cs ≠ [] := List.ne_nil_of_mem hk
    exact ⟨hne, (isGreatest_largestBump hne).unique h⟩
  · rintro ⟨hne, rfl⟩
    exact isGreatest_largestBump hne

/-- The order of the commits and those left out do not matter. -/
theorem largestBump_eq_of_perm (h : (kinds xs).Perm (kinds ys)) :
    largestBump xs = largestBump ys := by
  refine eq_of_forall_ge_iff fun b => ?_
  rw [largestBump_le_iff, largestBump_le_iff]
  exact forall_congr' fun k => by rw [h.mem_iff]

/-- The bump of two lists together is the larger one of their bumps. -/
theorem largestBump_append (xs ys : List Commit) :
    largestBump (xs ++ ys) = max (largestBump xs) (largestBump ys) := by
  refine eq_of_forall_ge_iff fun b => ?_
  rw [max_le_iff, largestBump_le_iff, largestBump_le_iff, largestBump_le_iff, kinds_append,
    List.forall_mem_append]

/-! ### Counts -/

/-- A list of kinds with numbers counts the commits of each kind that occurs. -/
structure IsTally (cs : List Commit) (counts : List (Kind × Nat)) : Prop where
  /-- No kind is listed twice. -/
  nodup : (counts.map Prod.fst).Nodup
  /-- The kinds keep the order of all kinds. -/
  sublist : (counts.map Prod.fst).Sublist Kind.all
  /-- The number of a kind is that of its commits, and kinds without commits are left out. -/
  mem_iff : ∀ k n, (k, n) ∈ counts ↔ cs.countP (·.kind? == some k) = n ∧ 0 < n

theorem countP_kind? (cs : List Commit) (k : Kind) :
    cs.countP (·.kind? == some k) = (kinds cs).count k := by
  rw [kinds, List.count_filterMap]

/-- The tally has the kinds that occur, with the numbers of times they do. -/
theorem tally_eq (cs : List Commit) : tally cs =
    (Kind.all.filter (· ∈ kinds cs)).map fun k => (k, (kinds cs).count k) := by
  rw [← List.filterMap_eq_map, List.filterMap_filter, tally]
  refine List.filterMap_congr fun k _ => ?_
  by_cases hk : k ∈ kinds cs
  · have hpos := List.count_pos_iff.2 hk
    simp [countP_kind?, hk, Nat.ne_of_gt hpos]
  · simp [countP_kind?, hk, List.count_eq_zero_of_not_mem hk]

theorem map_fst_tally (cs : List Commit) :
    (tally cs).map Prod.fst = Kind.all.filter (· ∈ kinds cs) := by
  rw [tally_eq, List.map_map]
  exact List.map_id _

/-- A kind is listed with the number of its commits, if it has any. -/
theorem mem_tally {k : Kind} {n : Nat} :
    (k, n) ∈ tally cs ↔ (kinds cs).count k = n ∧ 0 < n := by
  have hall : k ∈ Kind.all := by cases k <;> decide
  rw [tally_eq, List.mem_map]
  constructor
  · rintro ⟨k', hk', heq⟩
    obtain ⟨rfl, rfl⟩ := Prod.mk.inj heq
    exact ⟨rfl, List.count_pos_iff.2 (by simpa using (List.mem_filter.1 hk').2)⟩
  · rintro ⟨rfl, hpos⟩
    exact ⟨k, List.mem_filter.2 ⟨hall, by simpa using List.count_pos_iff.1 hpos⟩, rfl⟩

theorem isTally_tally (cs : List Commit) : IsTally cs (tally cs) where
  nodup := by
    rw [map_fst_tally]
    exact List.Nodup.filter _ (by decide)
  sublist := by
    rw [map_fst_tally]
    exact List.filter_sublist
  mem_iff k n := by rw [mem_tally, countP_kind?]

/-- The kinds listed are those that occur. -/
theorem exists_mem_tally_iff {k : Kind} : (∃ n, (k, n) ∈ tally cs) ↔ k ∈ kinds cs := by
  simp only [mem_tally, exists_eq_left', List.count_pos_iff]

/-- No kind is listed where none occurs. -/
theorem tally_eq_nil_iff : tally cs = [] ↔ kinds cs = [] := by
  simp only [List.eq_nil_iff_forall_not_mem, Prod.forall, ← exists_mem_tally_iff, not_exists]

/-- The largest bump is that of a kind in the tally, or none, and no kind in it has a larger one. -/
theorem isGreatest_tally (cs : List Commit) :
    IsGreatest (insert .none {b | ∃ p ∈ tally cs, p.1.bump = b}) (largestBump cs) := by
  have hbumps : {b | ∃ p ∈ tally cs, p.1.bump = b} = bumps cs := by
    ext b
    simp only [bumps, Set.mem_ofPred_eq, Prod.exists, ← exists_mem_tally_iff, exists_and_right]
  rw [hbumps]
  by_cases hkinds : kinds cs = []
  · have hnone : largestBump cs = .none := largestBump_eq_none_iff.2 hkinds
    simp [hnone, bumps, hkinds, IsGreatest, upperBounds]
  · obtain ⟨hmem, hle⟩ := isGreatest_largestBump hkinds
    refine ⟨Set.mem_insert_of_mem _ hmem, ?_⟩
    rintro b (rfl | hb)
    · exact Bump.none_le _
    · exact hle hb

end Commit

end ReleaseCut
