import Mathlib.Data.List.Nodup
import Mathlib.Data.List.Perm.Basic
import ReleaseCut.Proofs.Repository.Tags
import ReleaseCut.Proofs.Text.ByteOrder

/-!
# The order of tags, and one more tag

The names of tags are listed in the order of their bytes, in which only equal texts rank equal. So
the order in which tags were added does not show (`tagNames_eq_of_perm`, `tagCommit_eq_of_perm`). A
further tag takes its place in the list and leaves the others in their order (`Adds.tagNames_eq`),
and every other name leads where it led (`Adds.tagCommit_eq`).

The last of these takes a repository whose tags are all found under their names (`IsWellNamed`). A
repository stores no tag under a malformed name, so this is what creating tags leads to
(`IsWellNamed.createTag`).
-/

namespace ReleaseCut

/-! ### The order of names -/

namespace RefName

/-- What names are sorted by. -/
def sortKey (name : RefName) : List Nat :=
  name.bytes.toList.map UInt8.toNat

theorem mayPrecede_eq (a b : RefName) :
    a.mayPrecede b = (compareOn sortKey a b).isLE := rfl

theorem mayPrecede_trans (a b c : RefName) (hab : a.mayPrecede b = true)
    (hbc : b.mayPrecede c = true) : a.mayPrecede c = true := by
  rw [mayPrecede_eq] at hab hbc ⊢
  exact Std.TransCmp.isLE_trans hab hbc

theorem mayPrecede_total (a b : RefName) : (a.mayPrecede b || b.mayPrecede a) = true := by
  have hswap : compareOn sortKey b a = (compareOn sortKey a b).swap := Std.OrientedCmp.eq_swap
  rw [mayPrecede_eq, mayPrecede_eq, hswap]
  cases compareOn sortKey a b <;> rfl

/-- Names that are texts are in the order of the texts. -/
theorem mayPrecede_text (a b : String) : (text a).mayPrecede (text b) = (compare a b).isLE := by
  rw [Text.compare_eq_compare_bytes]
  rfl

/-- Texts that rank equal are equal. -/
theorem eq_of_mayPrecede {a b : String} (hab : (text a).mayPrecede (text b) = true)
    (hba : (text b).mayPrecede (text a) = true) : a = b := by
  rw [mayPrecede_text] at hab hba
  exact Std.LawfulEqOrd.eq_of_compare (Std.OrientedCmp.isLE_antisymm hab hba)

end RefName

namespace GitRepository

variable {r r' : GitRepository} {name : RefName} {target : TagTarget} {text : String}

theorem nodup_tagNames (r : GitRepository) : r.tagNames.Nodup := by
  have hnames : ((r.tags.map Prod.fst).mergeSort RefName.mayPrecede).Nodup :=
    (List.mergeSort_perm _ _).nodup_iff.2 r.tags_distinct
  refine hnames.filterMap fun a b t ha hb => ?_
  cases a <;> cases b <;> simp_all [RefName.text?]

/-- The names are listed in order. -/
theorem pairwise_tagNames (r : GitRepository) :
    r.tagNames.Pairwise fun a b => (RefName.text a).mayPrecede (.text b) = true := by
  have hsorted : ((r.tags.map Prod.fst).mergeSort RefName.mayPrecede).Pairwise
      (fun a b => a.mayPrecede b = true) :=
    List.pairwise_mergeSort RefName.mayPrecede_trans RefName.mayPrecede_total _
  rw [tagNames, List.pairwise_filterMap]
  refine hsorted.imp ?_
  intro a b hab s hs t ht
  cases a <;> cases b <;> simp_all [RefName.text?]

/-- Names in order are those of the tags, if they are the same ones. -/
theorem eq_tagNames_of_perm {names : List String} (hperm : names.Perm r.tagNames)
    (hsorted : names.Pairwise fun a b => (RefName.text a).mayPrecede (.text b) = true) :
    names = r.tagNames :=
  hperm.eq_of_pairwise (fun _ _ _ _ => RefName.eq_of_mayPrecede) hsorted r.pairwise_tagNames

/-- The names are listed alike, in whatever order the tags were added. -/
theorem tagNames_eq_of_perm (h : r'.tags.Perm r.tags) : r'.tagNames = r.tagNames := by
  have hsorted : ((r'.tags.map Prod.fst).mergeSort RefName.mayPrecede).Perm
      ((r.tags.map Prod.fst).mergeSort RefName.mayPrecede) :=
    (List.mergeSort_perm _ _).trans ((h.map Prod.fst).trans (List.mergeSort_perm _ _).symm)
  exact eq_tagNames_of_perm (hsorted.filterMap _) r'.pairwise_tagNames

/-- Names lead to the same commits, in whatever order the tags were added. -/
theorem tagCommit_eq_of_perm (h : r'.tags.Perm r.tags) (text : String) :
    r'.tagCommit text = r.tagCommit text := by
  have htag : ∀ name, r'.tag? name = r.tag? name := by
    intro name
    refine Option.ext fun target => ?_
    rw [tag?_eq_some_iff, tag?_eq_some_iff, h.mem_iff]
  simp only [tagCommit, findTag, htag]

/-! ### One more tag -/

/-- Every tag is found under its name. -/
def IsWellNamed (r : GitRepository) : Prop :=
  ∀ text ∈ r.tagNames, resolveTagName text = .ok text

/-- Tags that are created are found under their names. -/
theorem IsWellNamed.createTag (hwell : r.IsWellNamed) (h : r.createTag text = .ok r') :
    r'.IsWellNamed := by
  obtain ⟨_, asked, -, hasked, -, htags, -, -⟩ := createTag_spec h
  intro text' hmem
  obtain ⟨target, hmem⟩ := mem_tagNames.1 hmem
  rw [htags, List.mem_append, List.mem_singleton] at hmem
  rcases hmem with hmem | hnew
  · exact hwell text' (mem_tagNames.2 ⟨target, hmem⟩)
  · cases hnew
    exact resolveTagName_self (resolveTagName_of_askedName hasked)

/-- A repository has one tag more than another one, and is the same otherwise. -/
structure Adds (r : GitRepository) (name : RefName) (target : TagTarget) (r' : GitRepository) :
    Prop where
  /-- The commits are the same. -/
  history : r'.history = r.history
  /-- The branches are the same. -/
  branches : r'.branches = r.branches
  /-- The same is checked out. -/
  head : r'.head = r.head
  /-- The tag is there besides the others. -/
  tags : r'.tags.Perm ((name, target) :: r.tags)

/-- A tag of a new name is added. -/
theorem adds_setTag (hwithin : target.isWithin r.history.size = true)
    (hnew : ∀ target, (name, target) ∉ r.tags) : r.Adds name target (r.setTag name target) := by
  obtain ⟨hhistory, hbranches, hhead⟩ := r.setTag_frame name target
  refine ⟨hhistory, hbranches, hhead, ?_⟩
  rw [tags_setTag hwithin hnew]
  exact List.perm_append_singleton _ _

namespace Adds

variable (h : r.Adds name target r')

include h

/-- No tag had the name before. -/
theorem notMem (target' : TagTarget) : (name, target') ∉ r.tags := by
  have hnodup := (h.tags.map Prod.fst).nodup_iff.1 r'.tags_distinct
  rw [List.map_cons, List.nodup_cons] at hnodup
  exact fun hmem => hnodup.1 (List.mem_map.2 ⟨_, hmem, rfl⟩)

theorem mem_tags_iff {t : RefName × TagTarget} :
    t ∈ r'.tags ↔ t = (name, target) ∨ t ∈ r.tags := by
  rw [h.tags.mem_iff, List.mem_cons]

theorem headCommit_eq : r'.headCommit = r.headCommit := by
  simp only [headCommit, branch?, h.head, h.branches]

theorem currentBranch_eq : r'.currentBranch = r.currentBranch := by
  rw [currentBranch, currentBranch, h.headCommit_eq, h.head]

/-- The other names stay in their order. -/
theorem tagNames_eq : r.tagNames = r'.tagNames.filter (RefName.text · != name) := by
  have hperm : r.tagNames.Perm (r'.tagNames.filter (RefName.text · != name)) := by
    rw [List.perm_ext_iff_of_nodup r.nodup_tagNames (r'.nodup_tagNames.filter _)]
    intro text
    simp only [mem_tagNames, List.mem_filter, h.mem_tags_iff, bne_iff_ne]
    constructor
    · rintro ⟨target', hmem⟩
      exact ⟨⟨target', .inr hmem⟩, fun heq => h.notMem target' (heq ▸ hmem)⟩
    · rintro ⟨⟨target', heq | hmem⟩, hne⟩
      · exact absurd (congrArg Prod.fst heq) hne
      · exact ⟨target', hmem⟩
  exact (eq_tagNames_of_perm hperm.symm (r'.pairwise_tagNames.filter _)).symm

/-- Every other name leads where it led. -/
theorem tag?_eq (hne : RefName.text text ≠ name) : r'.tag? text = r.tag? text := by
  refine Option.ext fun target' => ?_
  rw [tag?_eq_some_iff, tag?_eq_some_iff, h.mem_tags_iff, or_iff_right]
  exact fun heq => hne (congrArg Prod.fst heq)

theorem tagCommit_eq (hwell : r'.IsWellNamed) (hmem : text ∈ r.tagNames) :
    r'.tagCommit text = r.tagCommit text := by
  rw [h.tagNames_eq, List.mem_filter, bne_iff_ne] at hmem
  simp only [tagCommit, findTag, hwell text hmem.1, bind, Except.bind, h.tag?_eq hmem.2]

end Adds

end GitRepository

end ReleaseCut
