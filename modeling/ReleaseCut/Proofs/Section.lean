import Mathlib.Data.List.Nodup
import ReleaseCut.Proofs.Text.Trim
import ReleaseCut.Section

/-!
# Spellings of titles

A section is named by its title in any case of ASCII letters, with any blanks around it
(`Section.IsSpelling`). Every spelling is read as its section, and nothing else is read
(`Section.ofText?_eq_some_iff`).
-/

namespace ReleaseCut

/-- Changing the case of a letter makes no blank. -/
theorem Text.isBlank_toLower (c : Char) : isBlank c.toLower = isBlank c := by
  by_cases h : c.val ≥ 'A'.val ∧ c.val ≤ 'Z'.val
  · -- neither a capital nor a small letter is a blank
    have hlower : c.toLower.val = c.val + ('a'.val - 'A'.val) := congrArg Char.val (dif_pos h)
    obtain ⟨hlow, hhigh⟩ := h
    have hcapital : 65 ≤ c.toNat ∧ c.toNat ≤ 90 := ⟨hlow, hhigh⟩
    have hsmall : c.toLower.toNat = c.toNat + 32 := by
      have hbound : c.val.toNat + 32 < 2 ^ 32 := by
        have : c.val.toNat ≤ 90 := hhigh
        omega
      rw [Char.toNat, hlower, UInt32.toNat_add]
      exact Nat.mod_eq_of_lt hbound
    rw [Bool.eq_iff_iff]
    simp only [isBlank, hsmall, Bool.or_eq_true, Bool.and_eq_true, decide_eq_true_eq, beq_iff_eq]
    omega
  · have hlower : c.toLower = c := dif_neg h
    rw [hlower]

namespace Section

variable {s t : Section} {text : String}

/-- A text is the title in some case of ASCII letters, with blanks around it. -/
def IsSpelling (s : Section) (text : String) : Prop :=
  ∃ front title back, text.toList = front ++ title ++ back ∧
    (∀ b ∈ front, Text.isBlank b = true) ∧ (∀ b ∈ back, Text.isBlank b = true) ∧
    title.map Char.toLower = s.title.toList.map Char.toLower

theorem mem_all (s : Section) : s ∈ all := by
  cases s <;> decide

/-- The letters of titles tell the sections apart. -/
theorem eq_of_title_eq (h : s.title.toList.map Char.toLower = t.title.toList.map Char.toLower) :
    s = t := by
  have hnodup : (all.map fun s => s.title.toList.map Char.toLower).Nodup := by decide
  exact List.inj_on_of_nodup_map hnodup (mem_all s) (mem_all t) h

/-- No title begins or ends with a blank. -/
private theorem exists_ends (s : Section) : ∃ c d,
    (s.title.toList.map Char.toLower).head? = some c ∧
    (s.title.toList.map Char.toLower).getLast? = some d ∧
    Text.isBlank c = false ∧ Text.isBlank d = false := by
  cases s <;> exact ⟨_, _, rfl, rfl, rfl, rfl⟩

theorem matchesTitle_iff : matchesTitle text s = true ↔ s.IsSpelling text := by
  rw [matchesTitle, beq_iff_eq]
  constructor
  · intro h
    obtain ⟨front, back, hcut, hfront, hback⟩ := Text.exists_trim text.toList
    exact ⟨front, _, back, hcut, hfront, hback, h⟩
  · rintro ⟨front, title, back, hcut, hfront, hback, h⟩
    obtain ⟨c, d, hc, hd, hcblank, hdblank⟩ := exists_ends s
    rw [← h, List.head?_map, Option.map_eq_some_iff] at hc
    rw [← h, List.getLast?_map, Option.map_eq_some_iff] at hd
    obtain ⟨c, hc, rfl⟩ := hc
    obtain ⟨d, hd, rfl⟩ := hd
    rw [Text.isBlank_toLower] at hcblank hdblank
    have hne : title ≠ [] := by
      rintro rfl
      cases hc
    obtain rfl : title.head hne = c := Option.some.inj ((List.head?_eq_some_head hne).symm.trans hc)
    obtain rfl : title.getLast hne = d :=
      Option.some.inj ((List.getLast?_eq_some_getLast hne).symm.trans hd)
    rw [hcut, Text.trim_eq_of_not_isBlank hfront hback hne hcblank hdblank, h]

/-- A text names a section if it spells its title, and nothing otherwise. -/
theorem ofText?_eq_some_iff : ofText? text = some s ↔ s.IsSpelling text := by
  rw [← matchesTitle_iff, ofText?]
  constructor
  · exact List.find?_some
  · intro h
    cases hfind : all.find? (matchesTitle text) with
    | none => exact absurd h (List.find?_eq_none.1 hfind s (mem_all s))
    | some t =>
      have ht := List.find?_some hfind
      rw [matchesTitle, beq_iff_eq] at h ht
      rw [eq_of_title_eq (ht.symm.trans h)]

theorem ofText?_eq_none_iff : ofText? text = none ↔ ∀ s : Section, ¬ s.IsSpelling text := by
  simp only [Option.eq_none_iff_forall_ne_some, Ne, ofText?_eq_some_iff]

/-- A title spells itself. -/
theorem isSpelling_title (s : Section) : s.IsSpelling s.title :=
  ⟨[], s.title.toList, [], (List.append_nil _).symm, nofun, nofun, rfl⟩

end Section

end ReleaseCut
