import Mathlib.Data.List.Induction
import Mathlib.Tactic.ByContra
import ReleaseCut.Proofs.Text.Split
import ReleaseCut.Version.Text

/-!
# The written form of a version is read back

`ofText?_text`: reading the text of a version gives the version. The three marks `.`, `-` and `+`
cut the text where it was put together, since no component holds a mark, and neither of the last two
occurs before the part that it starts. Nothing else is read (`text_of_ofText?`).

The text of a version is made of letters, digits and the three marks (`isTextChar_of_mem_toList`),
and starts with a digit (`exists_toList_eq_cons`).
-/

namespace ReleaseCut

namespace Version

/-! ### Components -/

/-- Only zero is written with a zero in front. -/
private theorem eq_zero_of_head?_toDigits {n : Nat} (h : (Nat.toDigits 10 n).head? = some '0') :
    n = 0 := by
  induction n using Nat.strongRecOn with
  | _ n ih =>
    rw [Nat.toDigits_eq_if (by decide)] at h
    split at h
    · simpa using h
    · next hn =>
      rw [List.head?_append, List.head?_eq_some_head Nat.toDigits_ne_nil, Option.some_or,
        ← List.head?_eq_some_head] at h
      have := ih (n / 10) (by omega) h
      omega

/-- The digits of a component are read back. -/
theorem component?_component (n : UInt64) : component? (component n) = some n := by
  have hdigits : (component n).all Char.isDigit = true :=
    List.all_eq_true.2 fun c hc => Nat.isDigit_of_mem_toDigits (by decide) (by decide) hc
  have hzero : (component n).head? = some '0' → (component n).length = 1 := by
    intro hhead
    rw [component, eq_zero_of_head?_toDigits hhead, Nat.toDigits_zero]
    rfl
  have hvalue : Nat.ofDigitChars 10 (component n) 0 = n.toNat := Nat.ofDigitChars_ten_toDigits
  rw [component?, if_pos ⟨Nat.toDigits_ne_nil, hdigits, hzero⟩]
  simp [hvalue, UInt64.toNat_lt_size]

/-- A digit is that of a number below ten. -/
theorem exists_digitChar {c : Char} (hc : c.isDigit = true) :
    ∃ n < 10, Nat.digitChar n = c := by
  rw [Char.isDigit_iff_toNat] at hc
  have hlow : 48 ≤ c.toNat := hc.1
  have hhigh : c.toNat ≤ 57 := hc.2
  have hall : ∀ n < 10, Nat.digitChar n = Char.ofNat (48 + n) := by decide
  refine ⟨c.toNat - 48, by omega, ?_⟩
  rw [hall _ (by omega), Nat.add_sub_cancel' hlow, Char.ofNat_toNat]

/-- Digits without a needless zero in front are those of their value. -/
private theorem toDigits_ofDigitChars {s : List Char} (hne : s ≠ [])
    (hdigits : s.all Char.isDigit = true) (hzero : s.head? = some '0' → s.length = 1) :
    Nat.toDigits 10 (Nat.ofDigitChars 10 s 0) = s := by
  induction s using List.reverseRecOn with
  | nil => exact absurd rfl hne
  | append_singleton t c ih =>
    rw [List.all_append, Bool.and_eq_true] at hdigits
    obtain ⟨n, hn, rfl⟩ := exists_digitChar (c := c) (by simpa using hdigits.2)
    rw [Nat.ofDigitChars_append, Nat.ofDigitChars_cons_digitChar_of_lt_ten hn, Nat.ofDigitChars_nil]
    by_cases ht : t = []
    · simp [ht, Nat.toDigits_of_lt_base hn]
    · have hlead : t.head? ≠ some '0' := by
        intro h
        have hone := hzero (by rw [List.head?_append, h, Option.some_or])
        have hpos := List.length_pos_iff.2 ht
        rw [List.length_append, List.length_singleton] at hone
        omega
      have hvalue := ih ht hdigits.1 fun h => absurd h hlead
      have hpos : Nat.ofDigitChars 10 t 0 ≠ 0 := fun h => by
        rw [h, Nat.toDigits_zero] at hvalue
        simp [← hvalue] at hlead
      rw [Nat.toDigits_of_base_le (by decide) (by omega)]
      simp [Nat.mul_add_div, Nat.div_eq_of_lt hn, Nat.mod_eq_of_lt hn, hvalue]

/-- Only the digits of a component are read. -/
theorem component_of_component? {s : List Char} {n : UInt64} (h : component? s = some n) :
    component n = s := by
  rw [component?] at h
  split at h
  · next hs =>
    simp only at h
    split at h
    · next hlt =>
      obtain rfl := Option.some.inj h
      rw [component, UInt64.toNat_ofNat', Nat.mod_eq_of_lt hlt]
      exact toDigits_ofDigitChars hs.1 hs.2.1 hs.2.2
    · cases h
  · cases h

/-- No component holds a character that is no digit. -/
private theorem notMem_component {c : Char} (h : c.isDigit = false) (n : UInt64) :
    c ∉ component n := fun hc => by
  have := Nat.isDigit_of_mem_toDigits (by decide) (by decide) hc
  simp [h] at this

/-! ### Identifiers -/

/-- No identifier holds a character that is neither alphanumeric nor a hyphen. -/
private theorem notMem_identifier {c : Char} (h : isIdentifierChar c = false) (i : Identifier) :
    c ∉ i.toList := fun hc => by
  have := List.all_eq_true.1 i.chars c hc
  simp [h] at this

/-- Between identifiers there are dots alone. -/
theorem isIdentifierChar_of_mem_dotted {c : Char} {is : List Identifier} (h : c ∈ dotted is)
    (hdot : c ≠ '.') : isIdentifierChar c = true := by
  rw [dotted] at h
  induction is with
  | nil => simp at h
  | cons i is ih =>
    cases is with
    | nil => exact List.all_eq_true.1 i.chars c (by simpa using h)
    | cons j is =>
      rw [List.map_cons, List.map_cons, List.intercalate_cons_cons] at h
      simp only [List.mem_append, List.mem_singleton] at h
      rcases h with (h | h) | h
      · exact List.all_eq_true.1 i.chars c h
      · exact absurd h hdot
      · exact ih (by simpa using h)

private theorem mapM_ofList?_toList (is : List Identifier) :
    (is.map Identifier.toList).mapM Identifier.ofList? = some is := by
  induction is with
  | nil => rfl
  | cons i is ih => simp [ih]

/-- Identifiers between dots are read back. -/
theorem identifiers?_dotted {is : List Identifier} (h : is ≠ []) :
    identifiers? (dotted is) = some is := by
  rw [identifiers?, dotted, Text.splitOn_intercalate (by simpa using h), mapM_ofList?_toList]
  intro p hp
  obtain ⟨i, -, rfl⟩ := List.mem_map.1 hp
  exact notMem_identifier (by decide) i

private theorem toList_of_ofList? {s : List Char} {i : Identifier}
    (h : Identifier.ofList? s = some i) : i.toList = s := by
  rw [Identifier.ofList?] at h
  split at h
  · cases h; rfl
  · cases h

/-- Only identifiers between dots are read. -/
theorem dotted_of_identifiers? {s : List Char} {is : List Identifier}
    (h : identifiers? s = some is) : is ≠ [] ∧ dotted is = s := by
  -- each part gave the identifier with its characters
  have hparts : is.map Identifier.toList = Text.splitOn '.' s := by
    rw [identifiers?] at h
    generalize Text.splitOn '.' s = parts at h ⊢
    induction parts generalizing is with
    | nil => simp_all
    | cons p ps ih =>
      simp only [List.mapM_cons, Option.bind_eq_bind, Option.bind_eq_some_iff, Option.pure_def,
        Option.some.injEq] at h
      obtain ⟨i, hi, js, hjs, rfl⟩ := h
      rw [List.map_cons, ih hjs, toList_of_ofList? hi]
  refine ⟨?_, by rw [dotted, hparts, Text.intercalate_splitOn]⟩
  rintro rfl
  exact Text.splitOn_ne_nil _ _ hparts.symm

/-- A part behind its mark is cut off and read back, whatever stands before it without the mark. -/
private theorem part?_cutAt_marked {mark : Char} {s : List Char} (hs : mark ∉ s)
    (is : List Identifier) :
    (Text.cutAt mark (s ++ marked mark is)).1 = s ∧
      part? (Text.cutAt mark (s ++ marked mark is)).2 = some is := by
  rw [marked]
  split
  · next h =>
    obtain rfl : is = [] := by simpa using h
    rw [List.append_nil, Text.cutAt_of_notMem hs]
    exact ⟨rfl, rfl⟩
  · next h =>
    rw [Text.cutAt_append_cons hs]
    exact ⟨rfl, identifiers?_dotted (by simpa using h)⟩

/-- A text is what stands before the mark and the part that is read behind it. -/
private theorem eq_of_part? {mark : Char} {s : List Char} {is : List Identifier}
    (h : part? (Text.cutAt mark s).2 = some is) :
    s = (Text.cutAt mark s).1 ++ marked mark is := by
  have hs := @Text.eq_of_cutAt mark s
  cases hcut : (Text.cutAt mark s).2 with
  | none =>
    rw [hcut] at h hs
    obtain rfl : [] = is := Option.some.inj h
    simpa [marked] using hs
  | some rest =>
    rw [hcut] at h hs
    obtain ⟨hne, hdotted⟩ := dotted_of_identifiers? h
    simpa [marked, hne, hdotted] using hs

/-! ### Versions -/

/-- The three components of a version between dots. -/
private def core (v : Version) : List Char :=
  component v.major ++ '.' :: component v.minor ++ '.' :: component v.patch

private theorem toList_eq (v : Version) :
    v.toList = v.core ++ marked '-' v.pre ++ marked '+' v.build := rfl

private theorem notMem_core {c : Char} (h : c.isDigit = false) (hdot : c ≠ '.') (v : Version) :
    c ∉ v.core := by
  simp [core, notMem_component h, hdot]

private theorem splitOn_core (v : Version) :
    Text.splitOn '.' v.core = [component v.major, component v.minor, component v.patch] := by
  have hdot : ∀ n, '.' ∉ component n := notMem_component (by decide)
  rw [core, List.append_assoc, List.cons_append, Text.splitOn_append_cons (hdot _),
    Text.splitOn_append_cons (hdot _), Text.splitOn_of_notMem (hdot _)]

/-- The characters that occur in the text of a version. -/
def isTextChar (c : Char) : Bool :=
  isIdentifierChar c || c == '.' || c == '+'

private theorem mem_marked {mark c : Char} {is : List Identifier} (h : c ∈ marked mark is) :
    c = mark ∨ c ∈ dotted is := by
  rw [marked] at h
  split at h
  · exact absurd h (List.not_mem_nil)
  · exact List.mem_cons.1 h

/-- The text of a version holds letters, digits, hyphens, dots and plus signs only. -/
theorem isTextChar_of_mem_toList {v : Version} {c : Char} (h : c ∈ v.toList) :
    isTextChar c = true := by
  by_contra hc
  simp only [isTextChar, Bool.or_eq_true, not_or, Bool.not_eq_true, beq_eq_false_iff_ne] at hc
  obtain ⟨⟨hident, hdot⟩, hplus⟩ := hc
  have hdigit : c.isDigit = false := by
    simp only [isIdentifierChar, Char.isAlphanum, Bool.or_eq_false_iff] at hident
    exact hident.1.2
  have hhyphen : c ≠ '-' := by
    rintro rfl
    exact absurd hident (by decide)
  have hdotted : ∀ is, c ∉ dotted is := fun is hc => by
    simp [isIdentifierChar_of_mem_dotted hc hdot] at hident
  rw [toList_eq, List.mem_append, List.mem_append] at h
  rcases h with (h | h) | h
  · exact notMem_core hdigit hdot v h
  · exact (mem_marked h).elim hhyphen (hdotted _)
  · exact (mem_marked h).elim hplus (hdotted _)

/-- The text of a version starts with a digit. -/
theorem exists_toList_eq_cons (v : Version) : ∃ c s, v.toList = c :: s ∧ c.isDigit = true := by
  obtain ⟨c, s, hmajor⟩ := List.exists_cons_of_ne_nil (l := component v.major) Nat.toDigits_ne_nil
  have hc : c ∈ component v.major := hmajor ▸ List.mem_cons_self
  have hdigit : c.isDigit = true := Nat.isDigit_of_mem_toDigits (by decide) (by decide) hc
  refine ⟨c, s ++ '.' :: component v.minor ++ '.' :: component v.patch ++ marked '-' v.pre ++
    marked '+' v.build, ?_, hdigit⟩
  rw [toList, hmajor]
  rfl

/-- The text of a version is read back. -/
@[simp] theorem ofText?_text (v : Version) : ofText? v.text = some v := by
  -- the build part is cut off at the first plus sign
  have hplus : '+' ∉ v.core ++ marked '-' v.pre := by
    rw [List.mem_append, not_or]
    refine ⟨notMem_core (by decide) (by decide) v, fun h => ?_⟩
    rcases mem_marked h with h | h
    · exact absurd h (by decide)
    · exact absurd (isIdentifierChar_of_mem_dotted h (by decide)) (by decide)
  obtain ⟨hmain, hbuild⟩ := part?_cutAt_marked hplus v.build
  obtain ⟨hcore, hpre⟩ :=
    part?_cutAt_marked (notMem_core (c := '-') (by decide) (by decide) v) v.pre
  rw [ofText?, text, String.toList_ofList, ofList?, toList_eq]
  simp only [hmain, hcore, hpre, hbuild, splitOn_core, component?_component, v.pre_plain,
    Option.bind_eq_bind, Option.bind_some, dite_true]

/-- Only texts of versions are read. -/
theorem text_of_ofText? {s : String} {v : Version} (h : ofText? s = some v) : v.text = s := by
  rw [ofText?, ofList?] at h
  simp only [Option.bind_eq_bind] at h
  split at h
  · next a b c hsplit =>
    simp only [Option.bind_eq_some_iff] at h
    obtain ⟨major, ha, minor, hb, patch, hc, pre, hpre, build, hbuild, h⟩ := h
    split at h
    · cases h
      -- what is left of the text without its parts
      have hcore : (Text.cutAt '-' (Text.cutAt '+' s.toList).1).1 =
          component major ++ '.' :: component minor ++ '.' :: component patch := by
        rw [← Text.intercalate_splitOn '.' (Text.cutAt _ _).1, hsplit, component_of_component? ha,
          component_of_component? hb, component_of_component? hc]
        simp [List.intercalate_cons_cons]
      rw [text, ← String.toList_inj, String.toList_ofList, toList, ← hcore, ← eq_of_part? hpre,
        ← eq_of_part? hbuild]
    · cases h
  · cases h

end Version

end ReleaseCut
