import ReleaseCut.Proofs.Repository.Tags
import ReleaseCut.Proofs.Version.Order
import ReleaseCut.Repository.Memory

/-!
# Repositories in memory

* The latest release is one that a format recognises, and not behind any of these
  (`mem_releases_of_latestTag`, `latestTag_spec`).
* A new tag is the last one that was created, and is refused exactly if the name is taken
  (`createTag_eq_ok_iff`, `mem_of_createTag_eq_error`).
-/

namespace ReleaseCut

namespace ReleaseTag

variable {a b t : ReleaseTag} {ts : List ReleaseTag}

private theorem isLE_later_left (a b : ReleaseTag) :
    (compare a.version (later a b).version).isLE := by
  rw [later]
  split
  · simp
  · next h =>
    rw [Ordering.isLE_iff_ne_gt]
    exact h

private theorem isLE_later_right (a b : ReleaseTag) :
    (compare b.version (later a b).version).isLE := by
  rw [later]
  split
  · next h =>
    have hswap : compare b.version a.version = (compare a.version b.version).swap :=
      Std.OrientedCmp.eq_swap
    rw [hswap, h]
    rfl
  · simp

/-- Taking the later one again and again gives one that is not behind any. -/
theorem isLE_foldl_later (h : t ∈ a :: ts) :
    (compare t.version (ts.foldl later a).version).isLE := by
  induction ts generalizing a t with
  | nil => simp [List.mem_singleton.1 h]
  | cons b ts ih =>
    have hfold := ih (List.mem_cons_self (a := later a b))
    simp only [List.mem_cons] at h
    rcases h with rfl | rfl | h
    · exact Std.TransCmp.isLE_trans (isLE_later_left t b) hfold
    · exact Std.TransCmp.isLE_trans (isLE_later_right a t) hfold
    · exact ih (List.mem_cons_of_mem _ h)

/-- Taking the later one again and again gives one of them. -/
theorem foldl_later_mem (a : ReleaseTag) (ts : List ReleaseTag) :
    ts.foldl later a ∈ a :: ts := by
  induction ts generalizing a with
  | nil => simp
  | cons b ts ih =>
    rw [List.foldl_cons]
    rcases List.mem_cons.1 (ih (later a b)) with hmem | hmem
    · rw [hmem, later]
      split <;> simp
    · exact List.mem_cons_of_mem _ (List.mem_cons_of_mem _ hmem)

end ReleaseTag

namespace MemoryRepository

variable {r r' : MemoryRepository} {f : TagFormat} {t : ReleaseTag} {name : String}

theorem mem_releases : t ∈ r.releases f ↔
    t.name ∈ r.tags.map Prod.fst ∧ f.read? t.name = some t.version := by
  simp only [releases, List.mem_filterMap, ReleaseTag.read?_eq_some_iff, List.mem_map]
  constructor
  · rintro ⟨⟨name, i⟩, hmem, hread, rfl⟩
    exact ⟨⟨_, hmem, rfl⟩, hread⟩
  · rintro ⟨⟨⟨name, i⟩, hmem, rfl⟩, hread⟩
    exact ⟨_, hmem, hread, rfl⟩

/-- No release is greater than the latest one. -/
theorem latestTag_spec (h : t ∈ r.releases f) :
    ∃ l ∈ r.latestTag f, (compare t.version l.version).isLE := by
  rw [latestTag]
  split
  · next hnil =>
    rw [hnil] at h
    cases h
  · next a ts hcons => exact ⟨_, rfl, ReleaseTag.isLE_foldl_later (hcons ▸ h)⟩

/-- The latest release is one of the releases. -/
theorem mem_releases_of_latestTag (h : t ∈ r.latestTag f) : t ∈ r.releases f := by
  rw [latestTag] at h
  split at h
  · cases h
  · next a ts hcons =>
    cases h
    exact hcons ▸ ReleaseTag.foldl_later_mem a ts

/-- No tag is found under a name that none has. -/
theorem find?_tags_eq_none_iff :
    r.tags.find? (·.1 == name) = none ↔ name ∉ r.tags.map Prod.fst := by
  simp only [List.find?_eq_none, beq_iff_eq, List.mem_map, not_exists, not_and]

/-- The commits since a tag are those after its own, if no other tag has the name. -/
theorem commitsSince_of_mem (hnodup : (r.tags.map Prod.fst).Nodup) {i : Nat}
    (h : (name, i) ∈ r.tags) : r.commitsSince (some name) = .ok (r.commits.drop (i + 1)) := by
  rw [commitsSince, (find?_key_eq_some_iff hnodup).2 h]

theorem hasTag_eq_false_iff : r.hasTag name = false ↔ name ∉ r.tags.map Prod.fst ++ r.created := by
  have htags : r.tags.any (·.1 == name) = true ↔ name ∈ r.tags.map Prod.fst := by
    simp only [List.any_eq_true, beq_iff_eq, List.mem_map]
  rw [hasTag, Bool.or_eq_false_iff, ← Bool.not_eq_true, ← Bool.not_eq_true, htags,
    List.contains_iff_mem, List.mem_append, not_or, and_comm]

/-- A new tag is the last one created, and its name was not taken. -/
theorem createTag_eq_ok_iff : r.createTag name = .ok r' ↔
    name ∉ r.tags.map Prod.fst ++ r.created ∧ r' = { r with created := r.created ++ [name] } := by
  rw [← hasTag_eq_false_iff, createTag]
  cases r.hasTag name <;> simp [eq_comm]

/-- Only a tag whose name is taken is refused. -/
theorem mem_of_createTag_eq_error {e : ReleaseError} (h : r.createTag name = .error e) :
    name ∈ r.tags.map Prod.fst ++ r.created ∧ e = .tag (.taken name) := by
  have htaken : name ∈ r.tags.map Prod.fst ++ r.created ↔ r.hasTag name = true := by
    rw [← Bool.not_eq_false, hasTag_eq_false_iff, not_not]
  rw [htaken]
  rw [createTag] at h
  split at h
  · next hhas =>
    cases h
    exact ⟨hhas, rfl⟩
  · cases h

end MemoryRepository

end ReleaseCut
