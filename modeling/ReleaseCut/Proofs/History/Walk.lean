import Mathlib.Data.List.Perm.Subperm
import ReleaseCut.Proofs.History.Reachability

/-!
# The walk through a history

`History.walk` takes every commit that one commit reaches and another does not, and takes each once
(`mem_walk`, `nodup_walk`).

The walk takes from a stack, and `Walking` is what stays true of stack and commits taken: a commit
of the range enters the stack when the last of its children in the range is taken. So the walk
cannot end early: of the commits left, the newest would have all its children taken.
-/

namespace ReleaseCut

namespace History

variable {h : History} {i j k p head : Nat} {base : Option Nat}

/-! ### The range -/

theorem mem_range :
    j ∈ h.range head base ↔ j < h.size ∧ h.Reaches head j ∧ ∀ b ∈ base, ¬ h.Reaches b j := by
  cases base with
  | none => simp [range, mem_reachable]
  | some b =>
    simp only [range, Option.map_some, Option.getD_some, List.mem_filter, mem_reachable,
      Bool.not_eq_true', List.contains_eq_mem, decide_eq_false_iff_not, Option.mem_def,
      Option.some.injEq, forall_eq']
    tauto

/-- Every commit of the range but the one it starts from has a child there. -/
theorem exists_child_of_mem_range (hj : j ∈ h.range head base) (hne : j ≠ head) :
    ∃ c ∈ h.range head base, j ∈ h.parents c := by
  obtain ⟨-, hreach, hhidden⟩ := mem_range.1 hj
  cases hreach with
  | refl => exact absurd rfl hne
  | @step c _ hc hp =>
    refine ⟨c, mem_range.2 ⟨lt_size_of_mem_parents hp, hc, fun b hb hbc => ?_⟩, hp⟩
    exact hhidden b hb (hbc.step hp)

/-- Where the range does not hold the commit it starts from, it is empty. -/
theorem range_eq_nil (hhead : head ∉ h.range head base) : h.range head base = [] := by
  rw [List.eq_nil_iff_forall_not_mem]
  intro j hj
  obtain ⟨hsize, hreach, hhidden⟩ := mem_range.1 hj
  refine hhead (mem_range.2 ⟨?_, .refl, fun b hb hbh => hhidden b hb (hbh.trans hreach)⟩)
  cases hreach with
  | refl => exact hsize
  | step hreach hp =>
    by_contra hle
    -- a number that is no commit's has no parents, so it reaches itself alone
    have hstuck : ∀ {k : Nat}, h.Reaches head k → k = head := by
      intro k hk
      induction hk with
      | refl => rfl
      | step _ hq ih => exact absurd (lt_size_of_mem_parents (ih ▸ hq)) hle
    exact hle (hstuck hreach ▸ lt_size_of_mem_parents hp)

/-! ### Commits that become free -/

section Released

variable {range taken ps : List Nat}

/-- When the walk counts the next of the parents as free. -/
private theorem free_iff {qs : List Nat} : (range.contains p && !qs.contains p &&
      range.all fun c => !(h.parents c).contains p || taken.contains c) = true ↔
    p ∈ range ∧ p ∉ qs ∧ ∀ c ∈ range, p ∈ h.parents c → c ∈ taken := by
  simp only [Bool.and_eq_true, Bool.not_eq_true', List.contains_eq_mem, decide_eq_true_eq,
    decide_eq_false_iff_not, List.all_eq_true, Bool.or_eq_true, and_assoc, ← imp_iff_not_or]

theorem mem_released :
    p ∈ h.released range taken ps ↔
      p ∈ ps ∧ p ∈ range ∧ ∀ c ∈ range, p ∈ h.parents c → c ∈ taken := by
  induction ps with
  | nil => simp [released]
  | cons q qs ih =>
    rw [released]
    split
    · next hq =>
      obtain ⟨hrange, -, hfree⟩ := free_iff.1 hq
      rw [List.mem_cons, List.mem_cons, ih]
      constructor
      · rintro (rfl | ⟨hmem, hrest⟩)
        · exact ⟨.inl rfl, hrange, hfree⟩
        · exact ⟨.inr hmem, hrest⟩
      · rintro ⟨rfl | hmem, hrest⟩
        · exact .inl rfl
        · exact .inr ⟨hmem, hrest⟩
    · next hq =>
      rw [free_iff] at hq
      rw [List.mem_cons, ih]
      constructor
      · rintro ⟨hmem, hrest⟩
        exact ⟨.inr hmem, hrest⟩
      · rintro ⟨rfl | hmem, hrange, hfree⟩
        · -- a parent passed over is named again
          refine ⟨?_, hrange, hfree⟩
          by_contra hlater
          exact hq ⟨hrange, hlater, hfree⟩
        · exact ⟨hmem, hrange, hfree⟩

theorem nodup_released : (h.released range taken ps).Nodup := by
  induction ps with
  | nil => exact List.nodup_nil
  | cons q qs ih =>
    rw [released]
    split
    · next hq =>
      obtain ⟨-, hlater, -⟩ := free_iff.1 hq
      exact List.nodup_cons.2 ⟨fun hmem => hlater (mem_released.1 hmem).1, ih⟩
    · exact ih

end Released

/-! ### The invariant of the walk -/

/-- What holds of the stack and of the commits taken while the walk goes on. -/
structure Walking (h : History) (range stack taken : List Nat) : Prop where
  /-- No commit is met twice. -/
  nodup : (stack ++ taken).Nodup
  /-- Only commits of the range are met. -/
  subset : ∀ c ∈ stack ++ taken, c ∈ range
  /-- The children of a commit are taken before it is met. -/
  children_taken : ∀ p ∈ stack ++ taken, ∀ c ∈ range, p ∈ h.parents c → c ∈ taken
  /-- A commit is met as soon as its children are taken. -/
  met : ∀ p ∈ range, (∃ c ∈ range, p ∈ h.parents c) →
    (∀ c ∈ range, p ∈ h.parents c → c ∈ taken) → p ∈ stack ++ taken

namespace Walking

variable {range stack taken : List Nat} {c : Nat}

/-- At the start, the commit that has no child in the range is on the stack. -/
theorem start (hhead : head ∈ range) (hmax : ∀ c ∈ range, head ∉ h.parents c) :
    Walking h range [head] [] where
  nodup := by simp
  subset := by simpa using hhead
  children_taken := by
    intro p hp c hc hchild
    obtain rfl : p = head := by simpa using hp
    exact absurd hchild (hmax c hc)
  met := by
    rintro p - ⟨c, hc, hp⟩ htaken
    exact absurd (htaken c hc hp) (List.not_mem_nil)

/-- Taking a commit from the stack keeps the invariant. -/
theorem take (w : Walking h range (c :: stack) taken) :
    Walking h range ((h.released range (c :: taken) (h.parents c)).reverse ++ stack)
      (c :: taken) := by
  have hc : c ∈ range := w.subset c (by simp)
  have hnodup := w.nodup
  rw [List.cons_append, List.nodup_cons] at hnodup
  -- a parent that becomes free now was not met before: its child `c` was not taken
  have hnew : ∀ p ∈ h.released range (c :: taken) (h.parents c), p ∉ stack ++ taken := by
    intro p hp hmet
    have hchild := w.children_taken p (List.mem_cons_of_mem c hmet) c hc (mem_released.1 hp).1
    exact hnodup.1 (List.mem_append_right _ hchild)
  refine ⟨?_, ?_, ?_, ?_⟩
  · rw [List.append_assoc, List.nodup_append]
    refine ⟨List.nodup_reverse.2 nodup_released, ?_, ?_⟩
    · exact (List.perm_middle.nodup_iff).2 w.nodup
    · rintro p hp q hq rfl
      rw [List.mem_reverse] at hp
      rcases List.mem_append.1 hq with hq | hq
      · exact hnew p hp (List.mem_append_left _ hq)
      · rcases List.mem_cons.1 hq with rfl | hq
        · exact absurd (parent_lt (mem_released.1 hp).1) (Nat.lt_irrefl _)
        · exact hnew p hp (List.mem_append_right _ hq)
  · intro p hp
    simp only [List.mem_append, List.mem_reverse, List.mem_cons] at hp
    rcases hp with (hp | hp) | rfl | hp
    · exact (mem_released.1 hp).2.1
    · exact w.subset p (by simp [hp])
    · exact hc
    · exact w.subset p (by simp [hp])
  · intro p hp d hd hchild
    simp only [List.mem_append, List.mem_reverse, List.mem_cons] at hp
    rcases hp with (hp | hp) | rfl | hp
    · exact (mem_released.1 hp).2.2 d hd hchild
    · exact List.mem_cons_of_mem _ (w.children_taken p (by simp [hp]) d hd hchild)
    · exact List.mem_cons_of_mem _ (w.children_taken p (by simp) d hd hchild)
    · exact List.mem_cons_of_mem _ (w.children_taken p (by simp [hp]) d hd hchild)
  · intro p hp hexists htaken
    by_cases hchild : p ∈ h.parents c
    · have hfree : p ∈ h.released range (c :: taken) (h.parents c) :=
        mem_released.2 ⟨hchild, hp, htaken⟩
      simp [hfree]
    · have hbefore : ∀ d ∈ range, p ∈ h.parents d → d ∈ taken := by
        intro d hd hpd
        rcases List.mem_cons.1 (htaken d hd hpd) with rfl | hd
        · exact absurd hpd hchild
        · exact hd
      have hmet := w.met p hp hexists hbefore
      simp only [List.cons_append, List.mem_cons, List.mem_append] at hmet
      simp only [List.mem_append, List.mem_cons]
      tauto

/-- With an empty stack everything is taken, if every commit but one that is taken has a child in
the range. -/
theorem mem_taken (w : Walking h range [] taken) (hhead : head ∈ taken)
    (hchild : ∀ p ∈ range, p ≠ head → ∃ c ∈ range, p ∈ h.parents c)
    (hbound : ∀ p ∈ range, p < h.size) (hp : p ∈ range) : p ∈ taken := by
  -- from the newest commit down: the children of `p` are newer
  induction hn : h.size - p using Nat.strongRecOn generalizing p with
  | _ n ih =>
    by_cases heq : p = head
    · exact heq ▸ hhead
    · have hmet := w.met p hp (hchild p hp heq) fun c hc hpc => by
        have := parent_lt hpc
        have := hbound c hc
        exact ih (h.size - c) (by omega) hc rfl
      simpa using hmet

end Walking

/-! ### The whole walk -/

/-- A walk with enough steps takes every commit of the range once. -/
theorem walkFrom_spec {range stack taken : List Nat} {fuel : Nat}
    (hchild : ∀ p ∈ range, p ≠ head → ∃ c ∈ range, p ∈ h.parents c)
    (hbound : ∀ p ∈ range, p < h.size) (w : Walking h range stack taken)
    (hhead : head ∈ stack ++ taken) (hfuel : range.length ≤ fuel + taken.length) :
    (h.walkFrom range fuel stack taken).Nodup ∧
      ∀ p, p ∈ h.walkFrom range fuel stack taken ↔ p ∈ range := by
  induction fuel generalizing stack taken with
  | zero =>
    rw [walkFrom]
    have htaken : taken.Nodup := (List.nodup_append.1 w.nodup).2.1
    have hsub : taken ⊆ range := fun c hc => w.subset c (List.mem_append_right _ hc)
    refine ⟨htaken, fun p => ⟨fun hp => hsub hp, fun hp => ?_⟩⟩
    -- as many commits are taken as the range has
    have hperm := (List.subperm_of_subset htaken hsub).perm_of_length_le (by omega)
    exact hperm.mem_iff.2 hp
  | succ fuel ih =>
    cases stack with
    | nil =>
      rw [walkFrom]
      refine ⟨by simpa using w.nodup, fun p => ⟨fun hp => w.subset p (by simpa using hp), ?_⟩⟩
      exact w.mem_taken (by simpa using hhead) hchild hbound
    | cons c stack =>
      rw [walkFrom]
      refine ih w.take ?_ (by simp only [List.length_cons]; omega)
      simp only [List.cons_append, List.mem_cons, List.mem_append] at hhead ⊢
      tauto

/-- The walk can start at the commit that reaches the others of the range. -/
theorem Walking.start_range (hhead : head ∈ h.range head base) :
    Walking h (h.range head base) [head] [] := by
  refine .start hhead fun c hc hp => ?_
  have hlt := parent_lt hp
  have hle := (mem_range.1 hc).2.1.le
  omega

/-- The walk from a commit of the range takes every commit of the range once. -/
private theorem walk_spec (h : History) (head : Nat) (base : Option Nat) :
    (h.walk head base).Nodup ∧ ∀ p, p ∈ h.walk head base ↔ p ∈ h.range head base := by
  rw [walk]
  split
  · next hmem =>
    have hhead : head ∈ h.range head base := by simpa using hmem
    exact walkFrom_spec (fun p hp => exists_child_of_mem_range hp)
      (fun p hp => (mem_range.1 hp).1) (.start_range hhead) (by simp) (by simp)
  · next hmem =>
    have hnil : h.range head base = [] := range_eq_nil (by simpa using hmem)
    simp [hnil]

/-- The walk takes the commits that are reached from the one and not from the other. -/
theorem mem_walk :
    j ∈ h.walk head base ↔ j < h.size ∧ h.Reaches head j ∧ ∀ b ∈ base, ¬ h.Reaches b j :=
  ((h.walk_spec head base).2 j).trans mem_range

/-- The walk takes no commit twice. -/
theorem nodup_walk (h : History) (head : Nat) (base : Option Nat) : (h.walk head base).Nodup :=
  (h.walk_spec head base).1

end History

end ReleaseCut
