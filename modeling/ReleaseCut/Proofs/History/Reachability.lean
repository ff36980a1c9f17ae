import Mathlib.Data.List.Nodup
import ReleaseCut.Repository.History

/-!
# What can be reached in a history

`History.reachable` lists exactly the commits that a commit reaches (`mem_reachable`): going from
the newest commit to the oldest, the sweep has marked every child in the range before it comes to a
commit, since parents have smaller numbers than their children.

A commit that is added later is reached by no earlier one, so what the earlier ones reach stays as
it is (`reaches_add_iff`).
-/

namespace ReleaseCut

namespace History

variable {h : History} {i j k p : Nat}

/-! ### Parents and ancestors -/

/-- Parents have smaller numbers than their children. -/
theorem parent_lt (hp : p ∈ h.parents i) : p < i := by
  rw [parents] at hp
  cases hc : h.commits[i]? with
  | none => simp [hc] at hp
  | some c => exact h.parents_lt i c hc p (by simpa [hc] using hp)

/-- Only the commits of the history have parents. -/
theorem lt_size_of_mem_parents (hp : p ∈ h.parents i) : i < h.size := by
  by_contra hle
  have hnone : h.commits[i]? = none := List.getElem?_eq_none (Nat.le_of_not_lt hle)
  simp [parents, hnone] at hp

theorem Reaches.trans (hij : h.Reaches i j) (hjk : h.Reaches j k) : h.Reaches i k := by
  induction hjk with
  | refl => exact hij
  | step _ hp ih => exact ih.step hp

/-- A commit reaches its parents. -/
theorem Reaches.of_parent (hp : p ∈ h.parents i) : h.Reaches i p :=
  Reaches.refl.step hp

/-- Ancestors are not newer. -/
theorem Reaches.le (hij : h.Reaches i j) : j ≤ i := by
  induction hij with
  | refl => exact Nat.le_refl _
  | step _ hp ih =>
    have hlt := parent_lt hp
    omega

/-! ### The sweep -/

/-- A set of commits that holds the parents of its members holds all they reach. -/
theorem Reaches.mem_of_closed {marked : List Nat} (hclosed : ∀ k ∈ marked, h.parents k ⊆ marked)
    (hi : i ∈ marked) (hij : h.Reaches i j) : j ∈ marked := by
  induction hij with
  | refl => exact hi
  | step _ hp ih => exact hclosed _ ih hp

/-- The sweep below a bound marks what the marked commits reach, if the parents of those from the
bound on are marked. -/
theorem mem_sweep {bound : Nat} {marked : List Nat}
    (hclosed : ∀ k ∈ marked, bound ≤ k → h.parents k ⊆ marked) :
    j ∈ h.sweep bound marked ↔ ∃ k ∈ marked, h.Reaches k j := by
  induction bound generalizing marked with
  | zero =>
    refine ⟨fun hj => ⟨j, hj, .refl⟩, ?_⟩
    rintro ⟨k, hk, hkj⟩
    exact hkj.mem_of_closed (fun k hk => hclosed k hk (Nat.zero_le k)) hk
  | succ n ih =>
    rw [sweep]
    split
    · next hn =>
      have hmem : n ∈ marked := by simpa using hn
      rw [ih]
      · constructor
        · rintro ⟨k, hk, hkj⟩
          rcases List.mem_append.1 hk with hk | hk
          · exact ⟨n, hmem, (Reaches.of_parent hk).trans hkj⟩
          · exact ⟨k, hk, hkj⟩
        · rintro ⟨k, hk, hkj⟩
          exact ⟨k, List.mem_append_right _ hk, hkj⟩
      · intro k hk hle
        rcases List.mem_append.1 hk with hk | hk
        · have hlt := parent_lt hk
          omega
        · rcases Nat.eq_or_lt_of_le hle with rfl | hlt
          · exact List.subset_append_left _ _
          · exact fun p hp => List.mem_append_right _ (hclosed k hk hlt hp)
    · next hn =>
      have hmem : n ∉ marked := by simpa using hn
      refine ih fun k hk hle => hclosed k hk ?_
      have hne : n ≠ k := by
        rintro rfl
        exact hmem hk
      omega

/-- The commits listed are those of the history that a commit reaches. -/
theorem mem_reachable : j ∈ h.reachable i ↔ j < h.size ∧ h.Reaches i j := by
  have hsweep : j ∈ h.sweep h.size [i] ↔ h.Reaches i j := by
    rw [mem_sweep]
    · simp
    · intro k _ hle p hp
      have hlt := lt_size_of_mem_parents hp
      omega
  simp [reachable, hsweep]

/-! ### Later commits -/

section Add

variable {hash : String} {message : ByteArray} {ps : List Nat}

@[simp] theorem size_add : (h.add hash message ps).size = h.size + 1 := by
  simp [size, add]

/-- Earlier commits stay as they are. -/
theorem getElem?_commits_add (hi : i < h.size) :
    (h.add hash message ps).commits[i]? = h.commits[i]? :=
  List.getElem?_append_left hi

theorem parents_add_of_lt (hi : i < h.size) :
    (h.add hash message ps).parents i = h.parents i := by
  rw [parents, parents, getElem?_commits_add hi]

/-- The new commit has those of the given parents that the history holds. -/
theorem parents_add_size :
    (h.add hash message ps).parents h.size = ps.filter (· < h.size) := by
  simp [parents, add, size]

/-- What an earlier commit reaches does not change. -/
theorem reaches_add_iff (hi : i < h.size) :
    (h.add hash message ps).Reaches i j ↔ h.Reaches i j := by
  constructor
  · intro hij
    induction hij with
    | refl => exact .refl
    | step _ hp ih =>
      rw [parents_add_of_lt (Nat.lt_of_le_of_lt ih.le hi)] at hp
      exact ih.step hp
  · intro hij
    induction hij with
    | refl => exact .refl
    | step hij hp ih =>
      rw [← parents_add_of_lt (Nat.lt_of_le_of_lt hij.le hi)] at hp
      exact ih.step hp

/-- The new commit reaches all that one of its parents reaches. -/
theorem reaches_add_size (hi : i < h.size) (hmem : i ∈ ps) (hij : h.Reaches i j) :
    (h.add hash message ps).Reaches h.size j := by
  refine (Reaches.of_parent ?_).trans ((reaches_add_iff hi).2 hij)
  rw [parents_add_size]
  exact List.mem_filter.2 ⟨hmem, by simpa using hi⟩

end Add

end History

end ReleaseCut
