import Mathlib.Data.List.TakeWhile
import ReleaseCut.Commit.Basic
import ReleaseCut.Proofs.Text.Split
import ReleaseCut.Proofs.Text.Trim

/-!
# The grammar of commit messages

`Commit.Reads` says which commit a message is read as: its header is the first line without the
blanks at its end, and falls into a token and a subject by the grammar `Commit.Splits`. The grammar
is unambiguous, so there is exactly one such commit, and it is the one that `Commit.parse` gives
(`Commit.reads_iff`).

How a line ends plays no part: a carriage return before the newline is one of the blanks that the
header is rid of.
-/

namespace ReleaseCut

/-! ### First lines -/

namespace Text

/-- The first line of a text. It ends before the first newline, and before a carriage return that
stands right before that newline. -/
def firstLine (s : List Char) : List Char :=
  match cutAt '\n' s with
  | (line, none) => line
  | (line, some _) => if line.getLast? = some '\r' then line.dropLast else line

theorem takeWhile_ne_newline {line : List Char} (h : '\n' ∉ line) :
    line.takeWhile (· != '\n') = line := by
  rw [List.takeWhile_eq_self_iff]
  rintro c hc
  rw [bne_iff_ne]
  rintro rfl
  exact h hc

theorem takeWhile_ne_newline_append {line : List Char} (h : '\n' ∉ line) (rest : List Char) :
    (line ++ '\n' :: rest).takeWhile (· != '\n') = line := by
  rw [List.takeWhile_append, takeWhile_ne_newline h, if_pos rfl,
    List.takeWhile_cons_of_neg (by simp), List.append_nil]

/-- Up to blanks at its end, the first line is what stands before the first newline. -/
theorem trimRight_firstLine (s : List Char) :
    trimRight (firstLine s) = trimRight (s.takeWhile (· != '\n')) := by
  by_cases h : '\n' ∈ s
  · obtain ⟨line, rest, rfl, hline⟩ := List.eq_append_cons_of_mem h
    rw [firstLine, cutAt_append_cons hline, takeWhile_ne_newline_append hline]
    by_cases hreturn : line.getLast? = some '\r'
    · obtain ⟨start, rfl⟩ := List.getLast?_eq_some_iff.1 hreturn
      have hblank : ∀ b ∈ ['\r'], isBlank b = true := List.forall_mem_singleton.2 rfl
      simp [trimRight_append_blanks hblank]
    · simp [hreturn]
  · rw [firstLine, cutAt_of_notMem h, takeWhile_ne_newline h]

end Text

/-! ### Spellings of kinds -/

namespace Kind

variable {k : Kind} {t : String}

/-- The texts that stand for a kind: its emoji in the usual spelling, and the gear without a
variation selector. -/
def IsSpelling (k : Kind) (t : String) : Prop :=
  t = k.token ∨ k = .maintenance ∧ t = plainGear

theorem ofToken?_eq_some_iff : ofToken? t = some k ↔ k.IsSpelling t := by
  constructor
  · intro h
    rw [ofToken?] at h
    split at h
    · next hgear =>
      cases h
      exact .inr ⟨rfl, hgear⟩
    · have htoken := List.find?_some h
      exact .inl (beq_iff_eq.1 htoken).symm
  · rintro (rfl | ⟨rfl, rfl⟩)
    · cases k <;> decide
    · decide

/-- A spelling is a word. -/
theorem IsSpelling.isWord (h : k.IsSpelling t) :
    t.toList ≠ [] ∧ ∀ c ∈ t.toList, Text.isBlank c = false := by
  have hword : t.toList ≠ [] ∧ t.toList.all (!Text.isBlank ·) = true := by
    rcases h with rfl | ⟨-, rfl⟩
    · cases k <;> decide
    · decide
  exact ⟨hword.1, by simpa using hword.2⟩

/-- A header is that of a kind if it is a spelling of the kind, or goes on after one with a
blank. -/
def Heads (k : Kind) (header : List Char) : Prop :=
  ∃ t, k.IsSpelling t ∧ (header = t.toList ∨
    ∃ blank rest, header = t.toList ++ blank :: rest ∧ Text.isBlank blank = true)

end Kind

namespace Commit

variable {message hash : String} {c : Commit} {header token subject : List Char}

/-! ### Headers -/

/-- How a header falls into a token and a subject. -/
inductive Splits : (header token subject : List Char) → Prop
  /-- A token without blanks, one blank and a subject. -/
  | spaced {token subject : List Char} {blank : Char} (hne : token ≠ [])
      (htoken : ∀ c ∈ token, Text.isBlank c = false) (hblank : Text.isBlank blank = true) :
      Splits (token ++ blank :: subject) token subject
  /-- A header is all token if it holds no blank, or starts with one. -/
  | whole {header : List Char} (h : (∀ c ∈ header, Text.isBlank c = false) ∨
      ∃ blank rest, header = blank :: rest ∧ Text.isBlank blank = true) :
      Splits header header []

/-- Every header is split: at its first blank, unless that comes first. -/
private theorem exists_splits (header : List Char) :
    ∃ token subject, Splits header token subject := by
  cases hfind : header.find? Text.isBlank with
  | none =>
    refine ⟨header, [], .whole (.inl fun c hc => ?_)⟩
    simpa using List.find?_eq_none.1 hfind c hc
  | some blank =>
    obtain ⟨hblank, token, subject, rfl, htoken⟩ := List.find?_eq_some_iff_append.1 hfind
    by_cases hne : token = []
    · subst hne
      exact ⟨_, [], .whole (.inr ⟨blank, subject, rfl, hblank⟩)⟩
    · exact ⟨token, subject, .spaced hne (fun c hc => by simpa using htoken c hc) hblank⟩

private theorem splitHeader_of_splits (h : Splits header token subject) :
    splitHeader header = (token, subject) := by
  rw [splitHeader]
  cases h with
  | spaced hne htoken hblank =>
    have hword : ∀ c ∈ token, (!Text.isBlank c) = true := by simpa using htoken
    obtain ⟨c, word, rfl⟩ := List.exists_cons_of_ne_nil hne
    rw [List.takeWhile_append_of_pos hword, List.dropWhile_append_of_pos hword,
      List.takeWhile_cons_of_neg (by simp [hblank]), List.dropWhile_cons_of_neg (by simp [hblank]),
      List.append_nil]
  | whole hwhole =>
    rcases hwhole with hword | ⟨blank, rest, rfl, hblank⟩
    · have hword : ∀ c ∈ header, (!Text.isBlank c) = true := by simpa using hword
      rw [List.takeWhile_eq_self_iff.2 hword, List.dropWhile_eq_nil_iff.2 hword]
      cases header <;> rfl
    · rw [List.takeWhile_cons_of_neg (by simp [hblank])]

/-- The grammar is unambiguous, and splits every header. -/
theorem splitHeader_eq_iff :
    splitHeader header = (token, subject) ↔ Splits header token subject := by
  refine ⟨fun h => ?_, splitHeader_of_splits⟩
  obtain ⟨token', subject', hsplits⟩ := exists_splits header
  rw [splitHeader_of_splits hsplits] at h
  cases h
  exact hsplits

theorem splits_splitHeader (header : List Char) :
    Splits header (splitHeader header).1 (splitHeader header).2 :=
  splitHeader_eq_iff.1 rfl

/-- A subject is a part of its header. -/
theorem Splits.mem_of_mem_subject (h : Splits header token subject) {d : Char}
    (hd : d ∈ subject) : d ∈ header := by
  cases h with
  | spaced => exact List.mem_append_right _ (List.mem_cons_of_mem _ hd)
  | whole => cases hd

/-- The token is a spelling of a kind exactly where the header is that of the kind. -/
theorem Splits.heads_iff {k : Kind} (h : Splits header token subject) :
    k.Heads header ↔ k.IsSpelling (String.ofList token) := by
  constructor
  · rintro ⟨t, ht, hheader⟩
    have hword := ht.isWord
    have hsplits : ∃ rest, Splits header t.toList rest := by
      rcases hheader with rfl | ⟨blank, rest, rfl, hblank⟩
      · exact ⟨[], .whole (.inl hword.2)⟩
      · exact ⟨rest, .spaced hword.1 hword.2 hblank⟩
    obtain ⟨rest, hrest⟩ := hsplits
    -- the header is split in one way only
    have hparts := (splitHeader_eq_iff.2 h).symm.trans (splitHeader_eq_iff.2 hrest)
    rwa [(Prod.mk.inj hparts).1, String.ofList_toList]
  · intro ht
    refine ⟨_, ht, ?_⟩
    rw [String.toList_ofList]
    cases h with
    | spaced _ _ hblank => exact .inr ⟨_, _, rfl, hblank⟩
    | whole => exact .inl rfl

/-! ### Messages -/

theorem headerOf_eq_iff {s : List Char} : headerOf s = header ↔
    (∃ blanks, Text.firstLine s = header ++ blanks ∧ ∀ b ∈ blanks, Text.isBlank b = true) ∧
      ∀ hne : header ≠ [], Text.isBlank (header.getLast hne) = false := by
  rw [headerOf, ← Text.trimRight_firstLine, Text.trimRight_eq_iff]

/-- No header holds a newline. -/
theorem newline_notMem_headerOf (s : List Char) : '\n' ∉ headerOf s := by
  intro h
  rw [headerOf, Text.trimRight_eq_rdropWhile] at h
  simpa using List.mem_takeWhile_imp ((List.rdropWhile_prefix _ _).mem h)

/-- A header is its own header. -/
theorem headerOf_headerOf (s : List Char) : headerOf (headerOf s) = headerOf s := by
  rw [headerOf, Text.takeWhile_ne_newline (newline_notMem_headerOf s), Text.trimRight_eq_self_iff]
  exact (headerOf_eq_iff.1 rfl).2

/-- Nothing after the first line is read. -/
theorem headerOf_append_newline {line : List Char} (h : '\n' ∉ line) (rest : List Char) :
    headerOf (line ++ '\n' :: rest) = headerOf line := by
  rw [headerOf, headerOf, Text.takeWhile_ne_newline h, Text.takeWhile_ne_newline_append h]

/-- A commit is read from a message. -/
structure Reads (c : Commit) (message : String) : Prop where
  /-- The header is the first line up to blanks. -/
  firstLine : ∃ blanks, Text.firstLine message.toList = c.header.toList ++ blanks ∧
    ∀ b ∈ blanks, Text.isBlank b = true
  /-- The header does not end with a blank. -/
  trimmed : ∀ hne : c.header.toList ≠ [], Text.isBlank (c.header.toList.getLast hne) = false
  /-- Token and subject are those of the header. -/
  splits : Splits c.header.toList c.token.toList c.subject.toList
  /-- Messages give no scope. -/
  scope : c.scope = none

theorem reads_parse (message hash : String) : (parse message hash).Reads message where
  firstLine := by simpa [parse] using (headerOf_eq_iff.1 rfl).1
  trimmed := by simpa [parse] using (headerOf_eq_iff.1 rfl).2
  splits := by simpa [parse] using splits_splitHeader _
  scope := rfl

theorem newline_notMem_header (message hash : String) :
    '\n' ∉ (parse message hash).header.toList := by
  simpa [parse] using newline_notMem_headerOf _

/-- A subject is a part of the first line of the message. -/
theorem newline_notMem_subject (message hash : String) :
    '\n' ∉ (parse message hash).subject.toList := fun h =>
  newline_notMem_header message hash ((reads_parse message hash).splits.mem_of_mem_subject h)

/-- There is one commit that is read from a message. -/
theorem reads_iff : c.Reads message ↔ c = parse message c.hash := by
  constructor
  · rintro ⟨hline, htrimmed, hsplits, hscope⟩
    have hheader := headerOf_eq_iff.2 ⟨hline, htrimmed⟩
    have hparts := splitHeader_eq_iff.2 hsplits
    cases c
    simp_all [parse]
  · intro h
    rw [h]
    exact reads_parse message c.hash

/-- The kind of a commit can be told from its header. -/
theorem Reads.kind?_eq_some_iff {k : Kind} (h : c.Reads message) :
    c.kind? = some k ↔ k.Heads c.header.toList := by
  rw [kind?, Kind.ofToken?_eq_some_iff, h.splits.heads_iff, String.ofList_toList]

/-- **A message is read by the grammar**, as one commit and no other. Its header is read again as
it is, and the body plays no part. -/
theorem parse_reads_header (message hash : String) :
    (∀ c : Commit, c.Reads message ∧ c.hash = hash ↔ c = parse message hash) ∧
    '\n' ∉ (parse message hash).header.toList ∧
    (∀ hash', parse (parse message hash).header hash' = { parse message hash with hash := hash' }) ∧
    (∀ line text, '\n' ∉ line.toList → parse (line ++ "\n" ++ text) hash = parse line hash) ∧
    ∀ k : Kind, (parse message hash).kind? = some k ↔
      k.Heads (parse message hash).header.toList := by
  refine ⟨fun c => ?_, newline_notMem_header message hash, fun hash' => ?_,
    fun line text hline => ?_, fun k => ?_⟩
  · rw [reads_iff]
    constructor
    · rintro ⟨hc, rfl⟩
      exact hc
    · rintro rfl
      exact ⟨rfl, rfl⟩
  · simp [parse, headerOf_headerOf]
  · simp [parse, headerOf_append_newline hline]
  · exact (reads_parse message hash).kind?_eq_some_iff

/-- A gear without its variation selector, with a body that has a token of its own. -/
theorem parse_reads_plain_gear : '\n' ∉ "\u2699 tidy up \r".toList ∧
    parse ("\u2699 tidy up \r" ++ "\n" ++ "💥 drop") "c1" =
      ⟨"\u2699 tidy up", "\u2699", "tidy up", none, "c1"⟩ ∧
    (parse ("\u2699 tidy up \r" ++ "\n" ++ "💥 drop") "c1").kind? = some .maintenance := by
  have hline : '\n' ∉ "\u2699 tidy up \r".toList := by decide
  obtain ⟨-, -, -, hbody, hkind⟩ := parse_reads_header "\u2699 tidy up \r" "c1"
  rw [hbody _ "💥 drop" hline, hkind]
  refine ⟨hline, by decide, Kind.plainGear, .inr ⟨rfl, rfl⟩, .inr ⟨' ', "tidy up".toList, ?_, ?_⟩⟩
  · decide
  · decide

end Commit

end ReleaseCut
