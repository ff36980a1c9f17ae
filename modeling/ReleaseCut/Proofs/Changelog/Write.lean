import ReleaseCut.Changelog
import ReleaseCut.Proofs.FileTree.Store

/-!
# Changelog files

`Changelog.Holds d p old` says that the changelog at a path has the text `old`, or counts as
missing, and that the path does not lead through the place of the changelog. This stays so while
nothing changes that the path looks at (`Holds.congr`), and `write` replaces the text
(`write_spec`). It can do so wherever the path names a place (`exists_write`), and its path then
still names that place (`locateEntry_of_stored`).

The file is replaced where the last name of the path stands. This is not on the way of the path
itself, since what stands on the way to a directory leads to a directory
(`not_leadsThrough_of_readOld`). The only exception is a path through so many links that it counts
as that of a missing file: it may lead through its own last name, and leads nowhere once the file
stands there (`locate_ne_ok_of_placed`).

Otherwise a write is all or nothing (`write_spares`): it fails and changes nothing, or the new file
at the path is all that changes.
-/

namespace ReleaseCut.Changelog

variable {d d' : Disk} {p : Path} {old : Option String} {release : String} {parent : Location}
  {name : String} {place : Location} {content : ByteArray}

/-- The changelog at a path has a text or counts as missing, and is not on the way to itself. -/
structure Holds (d : Disk) (p : Path) (old : Option String) : Prop where
  /-- This is what is read. -/
  readOld : readOld d p = .ok old
  /-- The path does not lead through the place that it names. -/
  clear : ∀ parent name, d.locateEntry p = .ok (parent, name) → ¬ d.LeadsThrough p (name :: parent)

/-- Without a slash at its end, the steps of a path are its names. -/
private theorem steps_eq {init : List String} (hslash : p.endsInSlash = false)
    (hnames : p.names = init ++ [name]) : p.steps = init ++ [name] := by
  rw [Path.steps, hslash, hnames]
  rfl

/-- A text is read from a file. -/
private theorem exists_file_of_readText {text : String} (h : d.readText p = .ok text) :
    ∃ loc content, d.locate p = .ok loc ∧ d.tree.get? loc = some (.file content) ∧
      String.fromUTF8? content = some text := by
  obtain ⟨content, hread, h⟩ := Except.bind_eq_ok_iff.1 h
  obtain ⟨loc, hloc, hread⟩ := Except.bind_eq_ok_iff.1 hread
  refine ⟨loc, content, hloc, ?_⟩
  split at hread
  · next bytes hget =>
    cases hread
    refine ⟨hget, ?_⟩
    split at h
    · next hutf8 => cases h; exact hutf8
    · cases h
  · cases hread
  · cases hread

/-- A text is read where a file has it. -/
theorem readText_of_file {loc : Location} {text : String} (hloc : d.locate p = .ok loc)
    (hfile : d.tree.get? loc = some (.file text.toUTF8)) : d.readText p = .ok text := by
  have hutf8 : String.fromUTF8? text.toUTF8 = some text := dif_pos text.isValidUTF8
  rw [Disk.readText, Disk.readBytes, hloc]
  dsimp only [bind, Except.bind]
  rw [hfile]
  dsimp only
  rw [hutf8]

theorem readOld_eq_some_iff {text : String} :
    readOld d p = .ok (some text) ↔ d.readText p = .ok text := by
  rw [readOld]
  constructor
  · intro h
    split at h
    · split at h
      · next hread => cases h; exact hread
      · cases h
    · cases h
  · intro hread
    obtain ⟨loc, _, hloc, -⟩ := exists_file_of_readText hread
    simp [Disk.isThere, hloc, Except.isOk, Except.toBool, hread]

theorem readOld_eq_none_iff : readOld d p = .ok none ↔ ∀ loc, d.locate p ≠ .ok loc := by
  rw [readOld, Disk.isThere]
  cases hlocate : d.locate p with
  | error e => simp [Except.isOk, Except.toBool]
  | ok loc =>
    simp only [Except.isOk, Except.toBool, if_true, ne_eq, Except.ok.injEq, forall_eq', iff_false]
    split <;> simp

/-- No directory is read as a changelog. -/
private theorem ne_directory_of_locate {loc : Location} (h : readOld d p = .ok old)
    (hloc : d.locate p = .ok loc) : d.tree.get? loc ≠ some .directory := by
  intro hdir
  cases old with
  | none => exact readOld_eq_none_iff.1 h loc hloc
  | some text =>
    obtain ⟨loc', content, hloc', hfile, -⟩ := exists_file_of_readText (readOld_eq_some_iff.1 h)
    cases hloc.symm.trans hloc'
    cases hdir.symm.trans hfile

section Place

variable (h : readOld d p = .ok old) (hentry : d.locateEntry p = .ok (parent, name))
  (hslash : p.endsInSlash = false)

include h hentry hslash

/-- No directory stands in place of a changelog. -/
theorem ne_directory_of_readOld : d.tree.get? (name :: parent) ≠ some .directory := by
  intro hget
  obtain ⟨init, hnames, hdir, hdot, hdots, k, hk, w⟩ := Disk.locateEntry_eq_ok_iff.1 hentry
  have hstep : Walks d.tree parent [name] 0 (name :: parent) :=
    (Walks.done _).enter hdir hdot hdots hget (by simp)
  -- the path leads there, through no more links than to the directory
  have hlocate : d.locate p = .ok (name :: parent) := Disk.locate_eq_ok_iff.2
    ⟨Path.text_ne_of_names_ne_nil (by simp [hnames]), k + 0, hk,
      steps_eq hslash hnames ▸ w.append hstep⟩
  exact ne_directory_of_locate h hlocate hget

/-- The path of a changelog does not lead through its own place, unless behind too many links. -/
theorem not_leadsThrough_of_readOld (hlinks : d.locate p ≠ .error .tooManyLinks) :
    ¬ d.LeadsThrough p (name :: parent) := by
  intro hlooks
  obtain ⟨init, hnames, hdir, hdot, hdots, k, -, w⟩ := Disk.locateEntry_eq_ok_iff.1 hentry
  rw [Disk.leadsThrough_iff hnames] at hlooks
  obtain ⟨e, hget, hfile⟩ := w.notFile (by simp [hdir]) hlooks
  cases e with
  | file c => exact hfile c rfl
  | directory => exact ne_directory_of_readOld h hentry hslash hget
  | link target =>
    -- the link leads to a directory, and so does the path
    obtain ⟨k', mid, w', hmid⟩ := hlooks.link_leads w hdir hget
    have hstep : Walks d.tree parent [name] (k' + 1) mid :=
      .follow hdir hdot hdots hget (by simpa using w')
    have htext := Path.text_ne_of_names_ne_nil (p := p) (by simp [hnames])
    have hlocate : d.locate p =
        if k + (k' + 1) ≤ Disk.maxLinks then .ok mid else .error .tooManyLinks := by
      rw [Disk.locate, if_neg (by simpa using htext), steps_eq hslash hnames,
        (w.append hstep).walk_eq]
    split at hlocate
    · exact ne_directory_of_locate h hlocate hmid
    · exact hlinks hlocate

/-- A path that leads through its own place goes through too many links. -/
theorem tooManyLinks_of_leadsThrough (hway : d.LeadsThrough p (name :: parent)) :
    d.locate p = .error .tooManyLinks :=
  by_contra fun hlinks => not_leadsThrough_of_readOld h hentry hslash hlinks hway

end Place

/-- What is read of an old changelog stands there, unless too many links lead to it. -/
theorem holds_of_readOld (h : readOld d p = .ok old) (hslash : p.endsInSlash = false)
    (hlinks : d.locate p ≠ .error .tooManyLinks) : Holds d p old where
  readOld := h
  clear _ _ hentry := not_leadsThrough_of_readOld h hentry hslash hlinks

/-- A changelog stays as it is while nothing changes that its path looks at. -/
theorem Holds.congr (h : Holds d p old) (hsound : d.IsSound) (hcwd : d'.cwd = d.cwd)
    (hkeeps : d'.tree.Keeps d.tree)
    (hdirs : ∀ l, d'.tree.get? l = some .directory ↔ d.tree.get? l = some .directory)
    (hsame : ∀ l, d.LooksAt p l → d'.tree.get? l = d.tree.get? l) : Holds d' p old := by
  have hlocate := Disk.locate_congr hcwd hdirs hsame
  refine ⟨?_, fun parent name hentry hlooks => ?_⟩
  · cases old with
    | none =>
      rw [readOld_eq_none_iff, hlocate]
      exact readOld_eq_none_iff.1 h.readOld
    | some text =>
      obtain ⟨loc, content, hloc, hfile, hutf8⟩ :=
        exists_file_of_readText (readOld_eq_some_iff.1 h.readOld)
      obtain ⟨-, k, -, w⟩ := Disk.locate_eq_ok_iff.1 hloc
      -- the file read is looked at, so it is the same
      have hlooks := w.looks (hsound.start p) hsound.rooted (by simp [hfile])
      have hfile' : d'.tree.get? loc = some (.file content) := (hsame loc hlooks).trans hfile
      have hloc' : d'.locate p = .ok loc := hlocate.trans hloc
      rw [readOld_eq_some_iff]
      simp [Disk.readText, Disk.readBytes, hloc', hfile', hutf8, bind, Except.bind]
  · have hentry' := Disk.locateEntry_of_keeps hentry hkeeps hcwd.symm
    rw [Disk.LeadsThrough, Disk.start, hcwd] at hlooks
    exact h.clear parent name hentry' (hlooks.of_keeps hkeeps)

/-! ### Writing -/

section Stored

variable (hentry : d.locateEntry p = .ok (parent, name)) (hslash : p.endsInSlash = false)
  (hway : ¬ d.LeadsThrough p (name :: parent)) (h : d.Stored (name :: parent) content d')

include hentry hway h

/-- The place of a changelog stays what its path names. -/
private theorem walks_of_stored : ∃ init k, p.names = init ++ [name] ∧
    d'.tree.get? parent = some .directory ∧ name ≠ "." ∧ name ≠ ".." ∧ k ≤ Disk.maxLinks ∧
      Walks d'.tree (d'.start p) init k parent := by
  obtain ⟨init, hnames, hdir, hdot, hdots, k, hk, w⟩ := Disk.locateEntry_eq_ok_iff.1 hentry
  refine ⟨init, k, hnames, (h.directory_iff parent).2 hdir, hdot, hdots, hk, ?_⟩
  -- the walk to the directory does not meet the file that is replaced
  rw [Disk.leadsThrough_iff hnames] at hway
  rw [Disk.start, h.cwd]
  refine w.congr (fun l => (h.directory_iff l).2) fun l hl => ?_
  obtain ⟨e, hget, hfile⟩ := w.notFile (by simp [hdir]) hl
  refine (h.others l ?_).resolve_right ?_
  · rintro rfl
    exact hway hl
  · rintro ⟨-, c, hc⟩
    exact hfile c (Option.some.inj (hget.symm.trans hc))

theorem locateEntry_of_stored : d'.locateEntry p = .ok (parent, name) := by
  obtain ⟨init, k, hnames, hdir, hdot, hdots, hk, w⟩ := walks_of_stored hentry hway h
  exact Disk.locateEntry_eq_ok_iff.2 ⟨init, hnames, hdir, hdot, hdots, k, hk, w⟩

include hslash

/-- The file in place of the changelog is read as the changelog. -/
theorem readText_of_stored {text : String} (hcontent : content = text.toUTF8) :
    d'.readText p = .ok text := by
  obtain ⟨init, k, hnames, hdir, hdot, hdots, hk, w⟩ := walks_of_stored hentry hway h
  -- the path leads to the new file
  have hlocate : d'.locate p = .ok (name :: parent) := by
    refine Disk.locate_eq_ok_iff.2
      ⟨Path.text_ne_of_names_ne_nil (by simp [hnames]), k + 0, hk,
        steps_eq hslash hnames ▸ w.append ?_⟩
    exact (Walks.done _).enter hdir hdot hdots h.file (by simp)
  exact readText_of_file hlocate (hcontent ▸ h.file)

end Stored

section Placed

variable (hway : d.LeadsThrough p (name :: parent)) (h : d.Placed (name :: parent) content d')

include hway h

/-- Once a file stands at the last name of a path that leads through it, there is no directory
before that name. -/
private theorem not_directory_of_placed {init : List String} (hnames : p.names = init ++ [name])
    {k : Nat} {mid : Location} (w : Walks d'.tree (d'.start p) init k mid) :
    d'.tree.get? mid ≠ some .directory := by
  rw [Disk.leadsThrough_iff hnames] at hway
  rw [Disk.start, h.cwd] at w
  have hsame : ∀ l, Looks d.tree l (d.start p) init → l ≠ name :: parent →
      d'.tree.get? l = d.tree.get? l := fun l _ hne => (h.get? l).trans (if_neg hne)
  exact hway.blocked h.stored.file hsame w

variable (hentry : d.locateEntry p = .ok (parent, name))

include hentry

/-- Such a path leads nowhere any more. -/
theorem locate_ne_ok_of_placed (hslash : p.endsInSlash = false) (loc : Location) :
    d'.locate p ≠ .ok loc := by
  intro hloc
  obtain ⟨init, hnames, -⟩ := Disk.locateEntry_eq_ok_iff.1 hentry
  obtain ⟨-, k, -, w⟩ := Disk.locate_eq_ok_iff.1 hloc
  rw [steps_eq hslash hnames] at w
  obtain ⟨mid, k₁, k₂, w₁, w₂, -⟩ := w.of_append
  exact not_directory_of_placed hway h hnames w₁ w₂.directory_of_cons

end Placed

/-- The text with the new section is put where the path says. -/
theorem placed_of_write (h : write d p release = (.ok (), d')) :
    ∃ old parent name, readOld d p = .ok old ∧ d.locateEntry p = .ok (parent, name) ∧
      p.endsInSlash = false ∧ d.Placed (name :: parent) (updated old release).toUTF8 d' := by
  rw [write] at h
  split at h
  · cases h
  · next old hold =>
    split at h
    · cases h
    · next temp d₁ htemp =>
      dsimp only at h
      split at h
      · cases h
      · next d₂ hrename =>
        cases h
        have hadded := (Disk.added_of_createTemp htemp).setContent (updated old release).toUTF8
        obtain ⟨parent, name, hentry, hslash, hplaced⟩ := hadded.placed hrename
        exact ⟨old, parent, name, hold, hentry, hslash, hplaced⟩

/-- **A changelog is replaced as a whole.** The text with the new section is stored where the path
says, and is read there. -/
theorem write_spec (hold : Holds d p old) (h : write d p release = (.ok (), d')) :
    ∃ parent name, d.locateEntry p = .ok (parent, name) ∧ p.endsInSlash = false ∧
      d.Stored (name :: parent) (updated old release).toUTF8 d' ∧
      Holds d' p (some (updated old release)) := by
  obtain ⟨old', parent, name, hold', hentry, hslash, hplaced⟩ := placed_of_write h
  obtain rfl : old' = old := Except.ok.inj (hold'.symm.trans hold.readOld)
  have hway := hold.clear parent name hentry
  have hread := readText_of_stored hentry hslash hway hplaced.stored rfl
  obtain ⟨loc, _, hloc, -⟩ := exists_file_of_readText hread
  exact ⟨parent, name, hentry, hslash, hplaced.stored,
    holds_of_readOld (readOld_eq_some_iff.2 hread) hslash (by simp [hloc])⟩

/-- Where a path names a place, its directory is found. -/
private theorem locateDirectory_directoryOf (hentry : d.locateEntry p = .ok (parent, name))
    (hslash : p.endsInSlash = false) : d.locateDirectory (directoryOf p) = .ok parent := by
  obtain ⟨hname, hparent⟩ := Disk.isEntryName_of_locateEntry hentry
  obtain ⟨init, hnames, -, -, -, k, hk, w⟩ := Disk.locateEntry_eq_ok_iff.1 hentry
  obtain ⟨dir, n, hdir, hinit, hempty, hstart⟩ := Path.exists_parent? hnames hname hslash
  rw [Disk.locateDirectory_eq_ok_iff, directoryOf, hdir]
  dsimp only
  by_cases htext : dir.text = ""
  · -- the working directory
    obtain ⟨rfl, habsolute⟩ := hempty htext
    have hcwd : d.start p = d.start ⟨"."⟩ := by
      rw [Disk.start, Disk.start, habsolute]
      rfl
    rw [if_pos (by simp [htext]), ← hcwd]
    exact ⟨by decide, hparent, k + 0, hk, w.append ((Walks.done parent).dot hparent)⟩
  · have hsame : d.start dir = d.start p := by rw [Disk.start, Disk.start, hstart htext]
    obtain ⟨mid, k₁, k₂, w₁, w₂, rfl⟩ := (hinit ▸ w).of_append
    obtain ⟨rfl, rfl⟩ := w₂.of_dots
    rw [if_neg (by simpa using htext), hsame]
    exact ⟨htext, hparent, k₁, hk, w₁⟩

/-- A changelog that is read, or counts as missing, is written where its path names a place. -/
theorem exists_write (hold : readOld d p = .ok old)
    (hentry : d.locateEntry p = .ok (parent, name)) (hslash : p.endsInSlash = false)
    (release : String) : ∃ d', write d p release = (.ok (), d') := by
  have hplace := ne_directory_of_readOld hold hentry hslash
  have hdir := locateDirectory_directoryOf hentry hslash
  obtain ⟨temp, d₁, htemp⟩ := Disk.exists_createTemp hdir ".tmp" ""
  have hadded := (Disk.added_of_createTemp htemp).setContent (updated old release).toUTF8
  have hentry' := Disk.locateEntry_of_keeps hentry hadded.keeps hadded.cwd
  obtain ⟨d', hrename⟩ := Disk.exists_rename hadded.file hentry' hslash fun hget =>
    hplace (hadded.keeps_back _ _ hget (by simp))
  refine ⟨d', ?_⟩
  simp only [write, hold, htemp, hrename]

/-- A changelog that is not written is the fault of the changelog, and nothing changes. -/
theorem write_eq_error {e : ReleaseError} (h : write d p release = (.error e, d')) :
    (∃ cause, e = .changelog cause) ∧ d' = d := by
  rw [write] at h
  split at h
  · cases h
    exact ⟨⟨_, rfl⟩, rfl⟩
  · next old hold =>
    split at h
    · cases h
      exact ⟨⟨_, rfl⟩, rfl⟩
    · next temp d₁ htemp =>
      dsimp only at h
      split at h
      · cases h
        exact ⟨⟨_, rfl⟩, Disk.discard_setContent_of_createTemp htemp _⟩
      · cases h

/-- The new section is part of the text. -/
theorem isInfix_updated (old : Option String) (release : String) :
    release.toList <:+: (updated old release).toList := by
  cases old with
  | none => exact ⟨header.toList, [], by simp [updated]⟩
  | some old =>
    rw [updated, insert, String.toList_ofList]
    exact ⟨_, _, rfl⟩

/-! ### All or nothing -/

/-- A write succeeds where a text or nothing is read, and the path names a place for a file. -/
theorem exists_write_iff : (∃ d', write d p release = (.ok (), d')) ↔
    (∃ old, readOld d p = .ok old) ∧ p.endsInSlash = false ∧
      ∃ parent name, d.locateEntry p = .ok (parent, name) ∧
        d.tree.get? (name :: parent) ≠ some .directory := by
  constructor
  · rintro ⟨d', hwrite⟩
    obtain ⟨old, parent, name, hold, hentry, hslash, hplaced⟩ := placed_of_write hwrite
    exact ⟨⟨old, hold⟩, hslash, parent, name, hentry, hplaced.notDirectory⟩
  · rintro ⟨⟨old, hold⟩, hslash, parent, name, hentry, -⟩
    exact exists_write hold hentry hslash release

/-- **A changelog is replaced as a whole or not at all.** A write fails and changes nothing, or the
new text in place of whatever the path names is all that changes. The path then names this file, and
the text is read there, unless the path leads through this very place. It does so only behind too
many links, and then leads nowhere any more. -/
theorem write_spares (d : Disk) (p : Path) (release : String) :
    ((∃ d', write d p release = (.ok (), d')) ↔
      (∃ old, readOld d p = .ok old) ∧ p.endsInSlash = false ∧
        ∃ parent name, d.locateEntry p = .ok (parent, name) ∧
          d.tree.get? (name :: parent) ≠ some .directory) ∧
    ((∃ e, write d p release = (.error e, d)) ∨
    ∃ d' old parent name, write d p release = (.ok (), d') ∧ readOld d p = .ok old ∧
      d.locateEntry p = .ok (parent, name) ∧
      d.Placed (name :: parent) (updated old release).toUTF8 d' ∧
      (d'.locateEntry p = .ok (parent, name) ∧ d'.readText p = .ok (updated old release) ∨
        d.LeadsThrough p (name :: parent) ∧ d.locate p = .error .tooManyLinks ∧
          ∀ loc, d'.locate p ≠ .ok loc)) := by
  refine ⟨exists_write_iff, ?_⟩
  rcases hwrite : write d p release with ⟨e | ⟨⟩, d'⟩
  · obtain ⟨-, rfl⟩ := write_eq_error hwrite
    exact .inl ⟨e, rfl⟩
  · obtain ⟨old, parent, name, hold, hentry, hslash, hplaced⟩ := placed_of_write hwrite
    refine .inr ⟨d', old, parent, name, rfl, hold, hentry, hplaced, ?_⟩
    by_cases hway : d.LeadsThrough p (name :: parent)
    · have hlinks := tooManyLinks_of_leadsThrough hold hentry hslash hway
      exact .inr ⟨hway, hlinks, locate_ne_ok_of_placed hway hplaced hentry hslash⟩
    · exact .inl ⟨locateEntry_of_stored hentry hway hplaced.stored,
        readText_of_stored hentry hslash hway hplaced.stored rfl⟩

/-- Two links to the directory that they stand in, one of which goes round many times. -/
def loopedDisk : Disk where
  tree := ⟨[(["a"], .link ⟨"."⟩),
    (["l"], .link ⟨"/".intercalate (List.replicate 25 "a")⟩)], by simp⟩
  cwd := []

theorem locateEntry_loopedDisk : loopedDisk.locateEntry ⟨"l/l"⟩ = .ok ([], "l") := by
  decide +kernel

theorem readOld_loopedDisk : readOld loopedDisk ⟨"l/l"⟩ = .ok none := by
  have hlocate : loopedDisk.locate ⟨"l/l"⟩ = .error .tooManyLinks := by decide +kernel
  simp [readOld_eq_none_iff, hlocate]

theorem leadsThrough_loopedDisk : loopedDisk.LeadsThrough ⟨"l/l"⟩ ["l"] := by
  rw [Disk.leadsThrough_iff (show Path.names ⟨"l/l"⟩ = ["l"] ++ ["l"] by decide)]
  exact .now rfl (by decide) (by decide) rfl

/-- A path through too many links counts as that of a missing file. Where it leads through its own
last name, it is no file after the write. -/
theorem write_breaks_own_link : loopedDisk.IsSound ∧
    ∃ d', write loopedDisk ⟨"l/l"⟩ "## 1.0.0\n" = (.ok (), d') ∧
      ∀ bytes, d'.readBytes ⟨"l/l"⟩ ≠ .ok bytes := by
  have hentry := locateEntry_loopedDisk
  obtain ⟨d', hwrite⟩ := exists_write readOld_loopedDisk hentry (by decide) "## 1.0.0\n"
  refine ⟨⟨by decide, by decide, rfl⟩, d', hwrite, fun bytes hread => ?_⟩
  obtain ⟨_, _, _, -, hentry', -, hplaced⟩ := placed_of_write hwrite
  cases hentry.symm.trans hentry'
  obtain ⟨loc, hloc, -⟩ := Except.bind_eq_ok_iff.1 hread
  exact locate_ne_ok_of_placed leadsThrough_loopedDisk hplaced hentry (by decide) loc hloc

end ReleaseCut.Changelog
