import ReleaseCut.Proofs.History.Order
import ReleaseCut.Proofs.Repository.Commits

/-!
# The commits since a tag

`GitRepository.commitsSince` lists what is reached from the commit checked out and not from the
commit of a tag, each commit once and none before one of its ancestors
(`commitsSince_ancestors_first`). The tag may stand anywhere: its commit need not be reached from
the one checked out.
-/

namespace ReleaseCut

/-- A list of the commits that are reached from one commit and not from another one, with the
ancestors first. -/
structure History.ListsSince (h : History) (head : Nat) (base : Option Nat) (is : List Nat) :
    Prop where
  /-- The commits are those reached from the one and not from the other. -/
  mem_iff : ∀ j, j ∈ is ↔ h.Reaches head j ∧ ∀ b ∈ base, ¬ h.Reaches b j
  /-- None is listed twice. -/
  nodup : is.Nodup
  /-- None is listed before one of its ancestors. -/
  ancestors_first : is.Pairwise fun i j => ¬ h.Reaches i j

theorem History.listsSince_walk {h : History} {head : Nat} (hhead : head < h.size)
    (base : Option Nat) : h.ListsSince head base (h.walk head base) where
  mem_iff j := by
    rw [mem_walk, and_iff_right_iff_imp]
    exact fun hj => Nat.lt_of_le_of_lt hj.1.le hhead
  nodup := h.nodup_walk head base
  ancestors_first := h.pairwise_walk head base

/-- From a commit one walks to no commit that is not reached from it. -/
theorem History.walk_self (h : History) (head : Nat) : h.walk head (some head) = [] := by
  refine List.eq_nil_iff_forall_not_mem.2 fun i hi => ?_
  obtain ⟨-, hreaches, hfree⟩ := mem_walk.1 hi
  exact hfree head rfl hreaches

namespace GitRepository

variable {r : GitRepository} {head : Nat} {tag : Option String} {base : Option Nat}

/-- What is known of a commit. -/
def info? (r : GitRepository) (i : Nat) : Option CommitInfo :=
  (r.history.commits[i]?).map fun c => ⟨c.hash, c.text⟩

/-- Of every commit of the history something is known. -/
theorem map_info? {is : List Nat} (h : ∀ i ∈ is, i < r.history.size) :
    is.map r.info? = (r.infos is).map some := by
  induction is with
  | nil => rfl
  | cons i is ih =>
    rw [List.forall_mem_cons] at h
    obtain ⟨info, hinfo⟩ : ∃ info, r.info? i = some info :=
      ⟨_, by rw [info?, List.getElem?_eq_getElem h.1]; rfl⟩
    have hcons : r.infos (i :: is) = info :: r.infos is := List.filterMap_cons_some hinfo
    rw [List.map_cons, hinfo, hcons, List.map_cons, ih h.2]

theorem mapM_tagCommit {name : String} {i : Nat} (h : r.tagCommit name = .ok i) :
    (some name).mapM r.tagCommit = .ok (some i) := by
  rw [Option.mapM_some, h]
  rfl

/-- Where the tag leads to a commit, its commits since are listed. -/
theorem commitsSince_of_base (hhead : r.headCommit = .ok head)
    (hbase : tag.mapM r.tagCommit = .ok base) :
    r.commitsSince tag = .ok (r.infos (r.history.walk head base)) :=
  Except.bind_eq_ok_iff.2 ⟨head, hhead, Except.bind_eq_ok_iff.2 ⟨base, hbase, rfl⟩⟩

/-- At a tag on the commit checked out there are no commits since. -/
theorem commitsSince_head {name : String} (hhead : r.headCommit = .ok head)
    (htag : r.tagCommit name = .ok head) : r.commitsSince (some name) = .ok [] := by
  rw [commitsSince_of_base hhead (mapM_tagCommit htag), History.walk_self]
  rfl

private theorem exists_commitsSince (hhead : r.headCommit = .ok head)
    (hbase : tag.mapM r.tagCommit = .ok base) :
    ∃ is cs, r.history.ListsSince head base is ∧ is.map r.info? = cs.map some ∧
      r.commitsSince tag = .ok cs :=
  ⟨_, _, History.listsSince_walk (headCommit_lt hhead) base,
    map_info? fun _ hi => (History.mem_walk.1 hi).1, commitsSince_of_base hhead hbase⟩

/-- **The commits since a tag, ancestors first.** They are those reached from the commit checked out
and neither the commit of the tag nor reached from it, each listed once and none before one of its
ancestors. Without a tag all that are reached are listed so. -/
theorem commitsSince_ancestors_first (hhead : r.headCommit = .ok head) :
    (∃ is cs, r.history.ListsSince head none is ∧ is.map r.info? = cs.map some ∧
      r.commitsSince none = .ok cs) ∧
    ∀ name i, r.tagCommit name = .ok i →
      ∃ is cs, r.history.ListsSince head (some i) is ∧ is.map r.info? = cs.map some ∧
        r.commitsSince (some name) = .ok cs := by
  exact ⟨exists_commitsSince hhead rfl, fun _ _ hi => exists_commitsSince hhead (mapM_tagCommit hi)⟩

/-- A project where a branch that was released is merged into another one. -/
def mergedRepository : GitRepository :=
  let start := (empty (.text "main")).commit "c0" "✨ start".toUTF8 []
  let forked := (start.commit "c1" "🐛 main".toUTF8 []).addCommit "c2" "📝 side".toUTF8 [0]
  (forked.setTag (.text "v1.0.0") (.commit 2)).commit "c3" "💥 merge".toUTF8 [2]

/-- What the tag on the merged branch reaches is left out. -/
theorem commitsSince_merged_branch :
    mergedRepository.history.parents 3 = [1, 2] ∧
    ∃ is, mergedRepository.history.ListsSince 3 (some 2) is ∧
      is.map mergedRepository.info? =
        [⟨"c1", "🐛 main"⟩, ⟨"c3", "💥 merge"⟩].map some := by
  have hhead : mergedRepository.headCommit = .ok 3 := rfl
  have hcommits : mergedRepository.commitsSince (some "v1.0.0") =
      .ok [⟨"c1", "🐛 main"⟩, ⟨"c3", "💥 merge"⟩] := by
    decide +kernel
  obtain ⟨is, cs, hlists, hinfos, hcs⟩ :=
    (commitsSince_ancestors_first hhead).2 "v1.0.0" 2 (by decide +kernel)
  obtain rfl : cs = _ := Except.ok.inj (hcs.symm.trans hcommits)
  exact ⟨by decide +kernel, is, hlists, hinfos⟩

end GitRepository

end ReleaseCut
