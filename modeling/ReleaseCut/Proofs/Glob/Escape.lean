import ReleaseCut.Proofs.Glob.Describes

/-!
# Escaped texts

An escaped text is read as one token for each of its characters, and each of these admits its
character alone. So a pattern of two escaped texts with a star in between is always read
(`parse_around_star`), and describes the names that start with the one and go on to end with the
other (`describes_around_star`).
-/

namespace ReleaseCut

namespace Glob

variable {text name before after s : List Char} {c : Char} {P : List Char → Bool}

/-- The token that an escaped character is read as. -/
def charToken (c : Char) : Token :=
  if isSpecial c then .oneOf [⟨c, c⟩] else .literal c

theorem admits_charToken (c d : Char) : (charToken c).admits d = (d == c) := by
  rw [charToken]
  split
  · rw [Token.admits, List.any_cons, List.any_nil, Bool.or_false, Span.contains, Bool.eq_iff_iff]
    simp only [Bool.and_eq_true, decide_eq_true_eq, beq_iff_eq]
    exact ⟨fun h => Char.le_antisymm h.2 h.1, fun h => h ▸ ⟨Char.le_refl _, Char.le_refl _⟩⟩
  · rfl

/-- The token of a character accepts what goes on after the character. -/
theorem accepts_charToken :
    (charToken c).accepts P name = true ↔ ∃ rest, name = c :: rest ∧ P rest = true := by
  cases name with
  | nil =>
    have haccepts : (charToken c).accepts P [] = false := by
      rw [charToken]
      split <;> rfl
    simp [haccepts]
  | cons d s =>
    have haccepts : (charToken c).accepts P (d :: s) = ((charToken c).admits d && P s) := by
      rw [charToken]
      split <;> rfl
    simp [haccepts, admits_charToken, and_assoc]

/-- The tokens of a text accept what goes on after it. -/
theorem accepts_text : (text.map charToken).foldr Token.accepts P name = true ↔
    ∃ rest, name = text ++ rest ∧ P rest = true := by
  induction text generalizing name with
  | nil => simp
  | cons c text ih =>
    rw [List.map_cons, List.foldr_cons, accepts_charToken]
    constructor
    · rintro ⟨rest, rfl, hrest⟩
      obtain ⟨rest, rfl, hP⟩ := ih.1 hrest
      exact ⟨rest, rfl, hP⟩
    · rintro ⟨rest, rfl, hP⟩
      exact ⟨text ++ rest, rfl, ih.2 ⟨rest, rfl, hP⟩⟩

/-! ### Reading -/

private theorem appendToken_of_ne {t : Token} (h : t ≠ .components) (ts : List Token) :
    appendToken t ts = t :: ts := by
  unfold appendToken
  split
  · rw [if_neg h]
  · rfl

/-- An escaped character is read as its token. -/
private theorem parseFrom_escapedChar (position : Nat) (previous : Option Char)
    (tokens : List Token) (c : Char) (s : List Char) : ∃ position' previous',
      parseFrom position previous tokens (escape [c] ++ s) =
        parseFrom position' previous' (charToken c :: tokens) s := by
  have hne : charToken c ≠ .components := by
    rw [charToken]
    split <;> simp
  by_cases hspecial : isSpecial c = true
  · refine ⟨position + 3, some ']', ?_⟩
    -- the mark that would negate the brackets is not a special one
    have hbang : c ≠ '!' := by
      rintro rfl
      exact absurd hspecial (by decide)
    have hfirst : firstToken position previous '[' (c :: ']' :: s) = .ok (charToken c, 3) := by
      simp [firstToken, classBody?, spans, charToken, hspecial, hbang]
    simp only [escape, List.flatMap_cons, List.flatMap_nil, hspecial, if_true, List.append_nil,
      List.cons_append, List.nil_append]
    rw [parseFrom, hfirst]
    simp [appendToken_of_ne hne]
  · refine ⟨position + 1, some c, ?_⟩
    have hfirst : firstToken position previous c s = .ok (charToken c, 1) := by
      simp only [isSpecial, Bool.or_eq_true, not_or, beq_iff_eq] at hspecial
      simp [firstToken, charToken, isSpecial, hspecial]
    simp only [escape, List.flatMap_cons, List.flatMap_nil, hspecial, if_false, List.append_nil,
      List.cons_append, List.nil_append, Bool.false_eq_true]
    rw [parseFrom, hfirst]
    simp [appendToken_of_ne hne]

/-- An escaped text is read as the tokens of its characters. -/
private theorem parseFrom_escape (position : Nat) (previous : Option Char) (tokens : List Token)
    (text s : List Char) : ∃ position' previous',
      parseFrom position previous tokens (escape text ++ s) =
        parseFrom position' previous' ((text.map charToken).reverse ++ tokens) s := by
  induction text generalizing position previous tokens with
  | nil => exact ⟨position, previous, rfl⟩
  | cons c text ih =>
    have hcons : escape (c :: text) ++ s = escape [c] ++ (escape text ++ s) := by
      simp [escape]
    obtain ⟨position₁, previous₁, h₁⟩ :=
      parseFrom_escapedChar position previous tokens c (escape text ++ s)
    obtain ⟨position₂, previous₂, h₂⟩ := ih position₁ previous₁ (charToken c :: tokens)
    exact ⟨position₂, previous₂, by rw [hcons, h₁, h₂]; simp⟩

/-- An escaped text does not start with a star. -/
private theorem takeWhile_star_escape : (escape text).takeWhile (· == '*') = [] := by
  cases text with
  | nil => rfl
  | cons c text =>
    by_cases hspecial : isSpecial c = true
    · simp [escape, hspecial]
    · have hstar : c ≠ '*' := by
        rintro rfl
        exact hspecial (by decide)
      simp [escape, hspecial, hstar]

/-- A star between two escaped texts is read as a run of characters between their tokens. -/
theorem parse_around_star : parse (String.ofList (escape before ++ '*' :: escape after)) =
    .ok ⟨String.ofList (escape before ++ '*' :: escape after),
      before.map charToken ++ .run :: after.map charToken⟩ := by
  obtain ⟨position, previous, hbefore⟩ := parseFrom_escape 0 none [] before ('*' :: escape after)
  have hstar : firstToken position previous '*' (escape after) = .ok (.run, 1) := by
    simp [firstToken, takeWhile_star_escape]
  obtain ⟨position', previous', hafter⟩ := parseFrom_escape (position + 1) (some '*')
    (.run :: (before.map charToken).reverse) after []
  rw [List.append_nil] at hbefore hafter
  rw [parse, String.toList_ofList, hbefore, parseFrom, hstar]
  simp only [Nat.sub_self, List.getElem?_cons_zero, List.drop_zero]
  rw [appendToken_of_ne (by simp), hafter, parseFrom]
  simp [Except.map]

/-- Such a pattern describes the names that start with the one text and go on to end with the
other. -/
theorem describes_around_star {g : Glob} {n : String}
    (h : g.tokens = before.map charToken ++ .run :: after.map charToken) :
    g.describes n = true ↔ ∃ middle, n.toList = before ++ middle ++ after := by
  -- the last tokens describe the text itself alone
  have hend : ∀ s, (after.map charToken).foldr Token.accepts List.isEmpty s = true ↔ s = after := by
    intro s
    rw [accepts_text]
    constructor
    · rintro ⟨rest, rfl, hrest⟩
      rw [List.isEmpty_iff.1 hrest, List.append_nil]
    · rintro rfl
      exact ⟨[], by simp, rfl⟩
  rw [describes_eq, h, List.foldr_append, List.foldr_cons, accepts_text]
  simp only [Token.accepts, List.any_eq_true, List.mem_tails, hend, exists_eq_right]
  constructor
  · rintro ⟨rest, hrest, middle, rfl⟩
    exact ⟨middle, by rw [hrest, List.append_assoc]⟩
  · rintro ⟨middle, hmiddle⟩
    exact ⟨middle ++ after, by rw [hmiddle, List.append_assoc], middle, rfl⟩

end Glob

end ReleaseCut
