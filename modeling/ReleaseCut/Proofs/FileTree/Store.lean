import ReleaseCut.Proofs.FileTree.Disk

/-!
# Storing a file

A file is stored by writing a fresh one and moving it to its place. `Disk.Added d temp content d'`
says that the fresh file is all that is new, `Disk.Placed d place content d'` that the file is all
that changes once it was moved (`Added.placed`). A fresh file that is taken away again leaves no
trace (`discard_of_createTemp`).

`Disk.Stored d place content d'` is what the whole may change where other files are removed on the
way: a file stands at the place, some other files are gone, and all else stays. So no directory
comes or goes (`Stored.directory_iff`), and what every file system sees to is kept
(`Stored.isSound`).
-/

namespace ReleaseCut

/-- What every file system sees to. -/
structure Disk.IsSound (d : Disk) : Prop where
  /-- Entries have proper names. -/
  proper : d.tree.IsProper
  /-- Entries stand in directories. -/
  rooted : d.tree.IsRooted
  /-- The working directory is there. -/
  cwd : d.tree.get? d.cwd = some .directory

/-- A file stands where nothing was, and all else stays. -/
structure Disk.Added (d : Disk) (temp : Location) (content : ByteArray) (d' : Disk) : Prop where
  /-- The working directory stays. -/
  cwd : d'.cwd = d.cwd
  /-- Nothing was there. -/
  fresh : d.tree.get? temp = none
  /-- What stands where now. -/
  get? : ∀ loc, d'.tree.get? loc = if loc = temp then some (.file content) else d.tree.get? loc

/-- A file is put at a place where no directory was, and all else stays. -/
structure Disk.Placed (d : Disk) (place : Location) (content : ByteArray) (d' : Disk) : Prop where
  /-- The working directory stays. -/
  cwd : d'.cwd = d.cwd
  /-- The place was not that of a directory. -/
  notDirectory : d.tree.get? place ≠ some .directory
  /-- What stands where now. -/
  get? : ∀ loc, d'.tree.get? loc = if loc = place then some (.file content) else d.tree.get? loc

/-- A file is stored at a place where no directory was. Other files may be gone. -/
structure Disk.Stored (d : Disk) (place : Location) (content : ByteArray) (d' : Disk) : Prop where
  /-- The working directory stays. -/
  cwd : d'.cwd = d.cwd
  /-- The place was not that of a directory. -/
  notDirectory : d.tree.get? place ≠ some .directory
  /-- The file stands at its place. -/
  file : d'.tree.get? place = some (.file content)
  /-- Elsewhere nothing changes, unless a file is removed. -/
  others : ∀ loc, loc ≠ place → d'.tree.get? loc = d.tree.get? loc ∨
    d'.tree.get? loc = none ∧ ∃ c, d.tree.get? loc = some (.file c)

namespace Disk

variable {d d₁ d' : Disk} {p dir : Path} {place parent temp : Location} {name : String}
  {content : ByteArray}

/-- Every path starts in a directory. -/
theorem IsSound.start (h : d.IsSound) (p : Path) : d.tree.get? (d.start p) = some .directory := by
  rw [Disk.start]
  split
  · rfl
  · exact h.cwd

/-! ### A new file -/

namespace Added

theorem file (h : d.Added temp content d') : d'.tree.get? temp = some (.file content) :=
  (h.get? temp).trans (if_pos rfl)

theorem same (h : d.Added temp content d') {loc : Location} (hne : loc ≠ temp) :
    d'.tree.get? loc = d.tree.get? loc :=
  (h.get? loc).trans (if_neg hne)

/-- All that was there still is. -/
theorem get?_of_get? (h : d.Added temp content d') {loc : Location} {e : Entry}
    (hget : d.tree.get? loc = some e) : d'.tree.get? loc = some e := by
  have hne := FileTree.ne_of_get?_eq_none h.fresh hget
  rw [h.same hne, hget]

theorem keeps (h : d.Added temp content d') : d.tree.Keeps d'.tree :=
  fun _ _ hget _ => h.get?_of_get? hget

/-- What is no file was there before. -/
theorem keeps_back (h : d.Added temp content d') : d'.tree.Keeps d.tree := by
  intro loc e hget hfile
  rw [h.get?] at hget
  split at hget
  · exact absurd (Option.some.inj hget).symm (hfile content)
  · exact hget

/-- A new file gets its bytes. -/
theorem setContent (h : d.Added temp content d') (bytes : ByteArray) :
    d.Added temp bytes (d'.setContent temp bytes) := by
  have hne : temp ≠ [] := by
    rintro rfl
    cases h.fresh
  refine ⟨h.cwd, h.fresh, fun loc => ?_⟩
  rw [Disk.setContent, FileTree.get?_put _ _ _ hne, h.get?]
  split <;> rfl

end Added

/-- A temporary file is a new one. -/
theorem added_of_createTemp {start finish : String}
    (h : d.createTemp dir start finish = .ok (temp, d')) : d.Added temp .empty d' := by
  obtain ⟨parent, -, h⟩ := Except.bind_eq_ok_iff.1 h
  cases h
  exact ⟨rfl, d.tree.freshName_fresh _ _ _, fun loc => FileTree.get?_put _ _ _ (by simp)⟩

/-- A temporary file that is taken away leaves no trace. -/
theorem discard_of_createTemp {start finish : String}
    (h : d.createTemp dir start finish = .ok (temp, d')) : d'.discard temp = d := by
  obtain ⟨parent, -, h⟩ := Except.bind_eq_ok_iff.1 h
  cases h
  rw [discard, FileTree.erase_put_of_get?_eq_none _ (d.tree.freshName_fresh start finish parent)]

/-- Its bytes leave none either. -/
theorem discard_setContent_of_createTemp {start finish : String}
    (h : d.createTemp dir start finish = .ok (temp, d')) (bytes : ByteArray) :
    (d'.setContent temp bytes).discard temp = d := by
  obtain ⟨parent, -, h⟩ := Except.bind_eq_ok_iff.1 h
  cases h
  rw [setContent, discard, FileTree.put_put,
    FileTree.erase_put_of_get?_eq_none _ (d.tree.freshName_fresh start finish parent)]

/-- A temporary file is made in a directory that is found. -/
theorem exists_createTemp (hdir : d.locateDirectory dir = .ok parent) (start finish : String) :
    ∃ temp d', d.createTemp dir start finish = .ok (temp, d') := by
  rw [createTemp, hdir]
  exact ⟨_, _, rfl⟩

/-! ### A stored file -/

namespace Stored

/-- What is no file was there before. -/
theorem keeps_back (h : d.Stored place content d') : d'.tree.Keeps d.tree := by
  intro loc e hget hfile
  have hne : loc ≠ place := by
    rintro rfl
    exact hfile content (Option.some.inj (hget.symm.trans h.file))
  rcases h.others loc hne with hsame | ⟨hnone, -⟩
  · rw [← hsame, hget]
  · rw [hnone] at hget
    cases hget

/-- No directory comes or goes. -/
theorem directory_iff (h : d.Stored place content d') (loc : Location) :
    d'.tree.get? loc = some .directory ↔ d.tree.get? loc = some .directory := by
  refine ⟨fun hdir => h.keeps_back _ _ hdir (by simp), fun hdir => ?_⟩
  have hne : loc ≠ place := by
    rintro rfl
    exact h.notDirectory hdir
  rcases h.others loc hne with hsame | ⟨-, c, hfile⟩
  · rw [hsame, hdir]
  · rw [hdir] at hfile
    cases hfile

/-- A file under a proper name in a directory leaves the names proper. -/
theorem isProper (h : d.Stored (name :: parent) content d') (hproper : d.tree.IsProper)
    (hname : IsEntryName name) (hparent : d.tree.get? parent = some .directory) :
    d'.tree.IsProper := by
  intro loc e hget n hn
  by_cases hplace : loc = name :: parent
  · subst hplace
    rcases List.mem_cons.1 hn with rfl | hn
    · exact hname
    · exact hproper _ _ hparent n hn
  · rcases h.others loc hplace with hsame | ⟨hnone, -⟩
    · exact hproper loc e (hsame ▸ hget) n hn
    · rw [hnone] at hget
      cases hget

/-- Nor does it make a disk unsound. -/
theorem isSound (h : d.Stored (name :: parent) content d') (hsound : d.IsSound)
    (hname : IsEntryName name) (hparent : d.tree.get? parent = some .directory) : d'.IsSound where
  proper := h.isProper hsound.proper hname hparent
  rooted := by
    intro n loc e hget
    rw [h.directory_iff]
    by_cases hplace : n :: loc = name :: parent
    · rw [(List.cons.inj hplace).2]
      exact hparent
    · rcases h.others _ hplace with hsame | ⟨hnone, -⟩
      · exact hsound.rooted n loc e (hsame ▸ hget)
      · rw [hnone] at hget
        cases hget
  cwd := by
    rw [h.directory_iff, h.cwd]
    exact hsound.cwd

end Stored

/-- A new file is put at the place that it is moved to. -/
theorem Added.placed (h : d.Added temp content d₁) (hrename : d₁.rename temp p = .ok d') :
    ∃ parent name, d.locateEntry p = .ok (parent, name) ∧ p.endsInSlash = false ∧
      d.Placed (name :: parent) content d' := by
  obtain ⟨parent, name, hentry, hslash, hnotDir, hcwd, hget⟩ := rename_spec h.file hrename
  refine ⟨parent, name, locateEntry_of_keeps hentry h.keeps_back h.cwd.symm, hslash,
    hcwd.trans h.cwd, fun hdir => hnotDir (h.get?_of_get? hdir), fun loc => ?_⟩
  rw [hget, h.get?]
  split
  · rfl
  -- nothing was where the file came from
  · split
    · next heq => rw [heq, h.fresh]
    · rfl

/-- A file that is put at its place is stored there. -/
theorem Placed.stored (h : d.Placed place content d') : d.Stored place content d' where
  cwd := h.cwd
  notDirectory := h.notDirectory
  file := (h.get? place).trans (if_pos rfl)
  others loc hne := .inl ((h.get? loc).trans (if_neg hne))

end Disk

end ReleaseCut
