import Mathlib.Data.List.Nodup
import Mathlib.Data.List.Sort
import Mathlib.Data.String.Basic
import ReleaseCut.Proofs.Except
import ReleaseCut.Proofs.FileTree.Path
import ReleaseCut.Proofs.FileTree.Walk

/-!
# Files in a directory

A path to a directory and the path of a name in it are looked up by the same walk, up to the last
step. So where `Disk.locateDirectory` finds the directory, the operations on files in it work at the
place one would expect: `locateEntry_join`, `readBytes_join`, `removeFile_join`, `rename_join`.

All of this stays as it is while only files come and go (`locateDirectory_of_keeps`).
-/

namespace ReleaseCut

theorem Entry.exists_of_isFile {e : Entry} (h : e.isFile = true) :
    ∃ content, e = .file content := by
  cases e with
  | file content => exact ⟨content, rfl⟩
  | directory | link target => cases h

/-! ### Listings -/

namespace FileTree

variable {t : FileTree} {dir : Location} {name : String} {e : Entry}

/-- What stands somewhere stands elsewhere than at a free location. -/
theorem ne_of_get?_eq_none {loc free : Location} (hfree : t.get? free = none)
    (hget : t.get? loc = some e) : loc ≠ free := by
  rintro rfl
  rw [hfree] at hget
  cases hget

/-- The entry at a location is the only one listed there. -/
theorem get?_eq_some_iff {loc : Location} (h : loc ≠ []) :
    t.get? loc = some e ↔ (loc, e) ∈ t.entries := by
  rw [get?_of_ne_nil t h, Option.map_eq_some_iff]
  constructor
  · rintro ⟨⟨loc', e'⟩, hfind, rfl⟩
    have hloc : loc' = loc := by simpa using List.find?_some hfind
    exact hloc ▸ List.mem_of_find?_eq_some hfind
  · intro hmem
    cases hfind : t.entries.find? (·.1 == loc) with
    | none => exact absurd (List.find?_eq_none.1 hfind _ hmem) (by simp)
    | some entry =>
      have hloc : entry.1 = loc := by simpa using List.find?_some hfind
      have heq := List.inj_on_of_nodup_map t.distinct (List.mem_of_find?_eq_some hfind) hmem hloc
      exact ⟨entry, rfl, by rw [heq]⟩

/-- The entries of a directory before they are sorted. -/
private def inDirectory (dir : Location) : Location × Entry → Option (String × Entry)
  | (name :: parent, e) => if parent = dir then some (name, e) else none
  | ([], _) => none

private theorem children_eq (t : FileTree) (dir : Location) : t.children dir =
    (t.entries.filterMap (inDirectory dir)).mergeSort fun a b => a.1 ≤ b.1 := rfl

private theorem inDirectory_eq_some_iff {entry : Location × Entry} {child : String × Entry} :
    inDirectory dir entry = some child ↔ entry = (child.1 :: dir, child.2) := by
  obtain ⟨loc, e⟩ := entry
  obtain ⟨name, e'⟩ := child
  cases loc with
  | nil => simp [inDirectory]
  | cons n parent =>
    by_cases hparent : parent = dir <;> simp [inDirectory, hparent, Prod.ext_iff]

/-- A directory lists what stands in it. -/
theorem mem_children : (name, e) ∈ t.children dir ↔ t.get? (name :: dir) = some e := by
  rw [children_eq, List.mem_mergeSort, List.mem_filterMap, get?_eq_some_iff (by simp)]
  constructor
  · rintro ⟨entry, hmem, hentry⟩
    exact inDirectory_eq_some_iff.1 hentry ▸ hmem
  · intro hmem
    exact ⟨_, hmem, inDirectory_eq_some_iff.2 rfl⟩

/-- No name is listed twice. -/
theorem nodup_children (t : FileTree) (dir : Location) :
    ((t.children dir).map Prod.fst).Nodup := by
  rw [children_eq, ((List.mergeSort_perm _ _).map _).nodup_iff]
  -- the names come from the locations, which are distinct
  have hnames : (t.entries.filterMap (inDirectory dir)).map Prod.fst =
      (t.entries.map Prod.fst).filterMap fun
        | n :: parent => if parent = dir then some n else none
        | [] => none := by
    rw [List.map_filterMap, List.filterMap_map]
    refine List.filterMap_congr fun entry _ => ?_
    obtain ⟨loc, e⟩ := entry
    cases loc with
    | nil => rfl
    | cons n parent => by_cases hparent : parent = dir <;> simp [inDirectory, hparent]
  rw [hnames]
  refine t.distinct.filterMap fun loc loc' n h h' => ?_
  cases loc with
  | nil => cases h
  | cons m parent =>
    cases loc' with
    | nil => cases h'
    | cons m' parent' => grind

/-- The names are listed in ascending order. -/
theorem pairwise_children (t : FileTree) (dir : Location) :
    (t.children dir).Pairwise fun a b => a.1 < b.1 := by
  have hsorted : (t.children dir).Pairwise fun a b => a.1 ≤ b.1 := by
    rw [children_eq]
    refine (List.pairwise_mergeSort ?_ ?_ _).imp of_decide_eq_true
    · intro a b c hab hbc
      exact decide_eq_true (le_trans (of_decide_eq_true hab) (of_decide_eq_true hbc))
    · intro a b
      simpa using le_total a.1 b.1
  have hne : (t.children dir).Pairwise fun a b => a.1 ≠ b.1 :=
    List.pairwise_map.1 (t.nodup_children dir)
  exact (hsorted.and hne).imp fun ⟨hle, hne⟩ => lt_of_le_of_ne hle hne

/-- What a directory lists depends on nothing but what stands in it. -/
theorem children_congr {t' : FileTree} (h : ∀ loc, t'.get? loc = t.get? loc) (dir : Location) :
    t'.children dir = t.children dir := by
  have hirrefl : Std.Irrefl fun a b : String × Entry => a.1 < b.1 := ⟨fun a => lt_irrefl a.1⟩
  have hantisymm : Std.Antisymm fun a b : String × Entry => a.1 < b.1 :=
    ⟨fun _ _ hab hba => absurd hab (lt_asymm hba)⟩
  refine (t'.pairwise_children dir).eq_of_mem_iff (t.pairwise_children dir) ?_
  rintro ⟨name, e⟩
  rw [mem_children, mem_children, h]

/-- The order in which a tree holds its entries does not show. -/
theorem get?_eq_of_perm {t' : FileTree} (h : t'.entries.Perm t.entries) (loc : Location) :
    t'.get? loc = t.get? loc := by
  by_cases hloc : loc = []
  · rw [hloc]
    rfl
  · refine Option.ext fun e => ?_
    rw [get?_eq_some_iff hloc, get?_eq_some_iff hloc, h.mem_iff]

/-- All names in the tree are names of entries. -/
def IsProper (t : FileTree) : Prop :=
  ∀ loc e, t.get? loc = some e → ∀ name ∈ loc, IsEntryName name

theorem isProper_iff : t.IsProper ↔ ∀ entry ∈ t.entries, ∀ name ∈ entry.1, IsEntryName name := by
  constructor
  · rintro h ⟨loc, e⟩ hmem name hname
    exact h loc e ((get?_eq_some_iff (List.ne_nil_of_mem hname)).2 hmem) name hname
  · intro h loc e hget name hname
    exact h _ ((get?_eq_some_iff (List.ne_nil_of_mem hname)).1 hget) name hname

instance : Decidable t.IsProper :=
  decidable_of_iff _ isProper_iff.symm

theorem isRooted_iff :
    t.IsRooted ↔ ∀ entry ∈ t.entries, t.get? entry.1.tail = some .directory := by
  constructor
  · rintro h ⟨loc, e⟩ hmem
    cases loc with
    | nil => rfl
    | cons name parent => exact h name parent e ((get?_eq_some_iff (by simp)).2 hmem)
  · intro h name parent e hget
    exact h _ ((get?_eq_some_iff (by simp)).1 hget)

instance : Decidable t.IsRooted :=
  decidable_of_iff _ isRooted_iff.symm

end FileTree

/-! ### Directories -/

namespace Disk

variable {d d' : Disk} {dir p : Path} {out parent : Location} {name : String}

theorem locate_eq_ok_iff : d.locate p = .ok out ↔
    p.text ≠ "" ∧ ∃ k ≤ maxLinks, Walks d.tree (d.start p) p.steps k out := by
  rw [locate]
  by_cases hempty : p.text = ""
  · simp [hempty]
  · simp [hempty, walk_eq_ok_iff]

/-- To a directory, the names of a path lead where its steps do. -/
private theorem walks_steps_iff {t : FileTree} {here : Location} {k : Nat}
    (hout : t.get? out = some .directory) :
    Walks t here p.steps k out ↔ Walks t here p.names k out := by
  rw [Path.steps]
  split
  -- a slash at the end is one more step, which stays where it is
  · constructor
    · intro w
      obtain ⟨mid, k₁, k₂, w₁, w₂, rfl⟩ := w.of_append
      obtain ⟨-, w₂⟩ := w₂.of_dot
      cases w₂
      exact w₁
    · intro w
      exact w.append ((Walks.done out).dot hout)
  · rfl

theorem locateDirectory_eq_ok_iff_locate : d.locateDirectory dir = .ok out ↔
    d.locate dir = .ok out ∧ d.tree.get? out = some .directory := by
  rw [locateDirectory, Except.bind_eq_ok_iff]
  constructor
  · rintro ⟨loc, hloc, h⟩
    split at h
    · next hdir => cases h; exact ⟨hloc, hdir⟩
    · cases h
  · rintro ⟨hloc, hdir⟩
    exact ⟨out, hloc, if_pos hdir⟩

/-- A path to a directory leads there along its names. -/
theorem locateDirectory_eq_ok_iff : d.locateDirectory dir = .ok out ↔
    dir.text ≠ "" ∧ d.tree.get? out = some .directory ∧
      ∃ k ≤ maxLinks, Walks d.tree (d.start dir) dir.names k out := by
  rw [locateDirectory_eq_ok_iff_locate, locate_eq_ok_iff]
  constructor
  · rintro ⟨⟨htext, k, hk, w⟩, hdir⟩
    exact ⟨htext, hdir, k, hk, (walks_steps_iff hdir).1 w⟩
  · rintro ⟨htext, hdir, k, hk, w⟩
    exact ⟨⟨htext, k, hk, (walks_steps_iff hdir).2 w⟩, hdir⟩

/-- While only files come and go, a path leads to the same directory. -/
theorem locateDirectory_of_keeps (h : d.locateDirectory dir = .ok out)
    (hkeeps : d.tree.Keeps d'.tree) (hcwd : d'.cwd = d.cwd) : d'.locateDirectory dir = .ok out := by
  obtain ⟨htext, hdir, k, hk, w⟩ := locateDirectory_eq_ok_iff.1 h
  refine locateDirectory_eq_ok_iff.2 ⟨htext, hkeeps out _ hdir (by simp), k, hk, ?_⟩
  rw [start, hcwd]
  exact w.keeps (by simp [hdir]) hkeeps

/-- On the way along a path one looks what stands at a location. -/
def LooksAt (d : Disk) (p : Path) (loc : Location) : Prop :=
  Looks d.tree loc (d.start p) p.steps

/-- Files give nothing more to look at. -/
theorem LooksAt.of_keeps {loc : Location} (h : d'.LooksAt p loc) (hkeeps : d'.tree.Keeps d.tree)
    (hcwd : d'.cwd = d.cwd) : d.LooksAt p loc := by
  rw [LooksAt, start, hcwd] at h
  exact Looks.of_keeps h hkeeps

/-- What a path leads to depends on the directories and on what is looked at. -/
theorem locate_congr (hcwd : d'.cwd = d.cwd)
    (hdirs : ∀ l, d'.tree.get? l = some .directory ↔ d.tree.get? l = some .directory)
    (hsame : ∀ l, d.LooksAt p l → d'.tree.get? l = d.tree.get? l) : d'.locate p = d.locate p := by
  have hstart : d'.start p = d.start p := by rw [start, start, hcwd]
  rw [locate, locate, hstart, walk_congr hdirs hsame]

/-- What is listed depends on nothing but what stands where. -/
theorem list_congr (hcwd : d'.cwd = d.cwd) (hsame : ∀ l, d'.tree.get? l = d.tree.get? l) :
    d'.list p = d.list p := by
  have hlocate : d'.locate p = d.locate p :=
    locate_congr hcwd (fun l => by rw [hsame]) fun l _ => hsame l
  have hchildren : d'.tree.children = d.tree.children := funext (FileTree.children_congr hsame)
  simp only [list, locateDirectory, hlocate, hsame, hchildren]

/-- On the way to a directory one meets no file. -/
theorem LooksAt.notFile {loc : Location} (h : d.LooksAt dir loc)
    (hdir : d.locateDirectory dir = .ok out) :
    ∃ e, d.tree.get? loc = some e ∧ ∀ content, e ≠ .file content := by
  obtain ⟨hlocate, hout⟩ := locateDirectory_eq_ok_iff_locate.1 hdir
  obtain ⟨-, k, -, w⟩ := locate_eq_ok_iff.1 hlocate
  exact w.notFile (by simp [hout]) h

theorem not_looksAt_of_file {loc : Location} {content : ByteArray}
    (hdir : d.locateDirectory dir = .ok out) (hfile : d.tree.get? loc = some (.file content)) :
    ¬ d.LooksAt dir loc := by
  intro hlooks
  obtain ⟨e, hget, hnotFile⟩ := hlooks.notFile hdir
  exact hnotFile content (Option.some.inj (hget.symm.trans hfile))

section Replaced

variable {place : Location} {content : ByteArray} (hcwd : d'.cwd = d.cwd)
  (hfile : d'.tree.get? place = some (.file content))
  (hnotDir : d.tree.get? place ≠ some .directory)
  (hkeeps : ∀ loc e, loc ≠ place → d.tree.get? loc = some e → (∀ c, e ≠ .file c) →
    d'.tree.get? loc = some e) (hdir : d.locateDirectory dir = .ok out)

include hcwd hfile hkeeps hdir

/-- A file that stands in the way of a path blocks it. -/
theorem locateDirectory_ne_ok_of_looksAt (hlooks : d.LooksAt dir place) {out' : Location} :
    d'.locateDirectory dir ≠ .ok out' := by
  intro h
  obtain ⟨hlocate, hout'⟩ := locateDirectory_eq_ok_iff_locate.1 h
  obtain ⟨-, k, -, w⟩ := locate_eq_ok_iff.1 hlocate
  rw [start, hcwd] at w
  refine Looks.blocked hlooks hfile (fun l hl hne => ?_) w hout'
  obtain ⟨e, he, hnotFile⟩ := LooksAt.notFile hl hdir
  rw [he, hkeeps l e hne he hnotFile]

include hnotDir

/-- A file elsewhere does not matter to a path. -/
theorem locateDirectory_of_not_looksAt (hlooks : ¬ d.LooksAt dir place) :
    d'.locateDirectory dir = .ok out := by
  obtain ⟨hlocate, hout⟩ := locateDirectory_eq_ok_iff_locate.1 hdir
  obtain ⟨htext, k, hk, w⟩ := locate_eq_ok_iff.1 hlocate
  -- the file took no directory's place
  have hdirs : ∀ l, d.tree.get? l = some .directory → d'.tree.get? l = some .directory := by
    intro l hl
    refine hkeeps l _ ?_ hl (by simp)
    rintro rfl
    exact hnotDir hl
  refine locateDirectory_eq_ok_iff_locate.2 ⟨locate_eq_ok_iff.2 ⟨htext, k, hk, ?_⟩, hdirs out hout⟩
  rw [start, hcwd]
  refine w.congr hdirs fun l hl => ?_
  obtain ⟨e, he, hnotFile⟩ := LooksAt.notFile hl hdir
  rw [he]
  refine hkeeps l e ?_ he hnotFile
  rintro rfl
  exact hlooks hl

end Replaced

/-! ### Places of names -/

theorem locateEntry_eq_ok_iff : d.locateEntry p = .ok (parent, name) ↔
    ∃ init, p.names = init ++ [name] ∧ d.tree.get? parent = some .directory ∧ name ≠ "." ∧
      name ≠ ".." ∧ ∃ k ≤ maxLinks, Walks d.tree (d.start p) init k parent := by
  rw [locateEntry]
  split
  · next hnames =>
    have hnil : p.names = [] := by simpa using hnames
    simp [hnil]
  · next last init hnames =>
    have hinit : p.names = init.reverse ++ [last] := by
      rw [← List.reverse_reverse p.names, hnames, List.reverse_cons]
    rw [Except.bind_eq_ok_iff]
    constructor
    · rintro ⟨loc, hwalk, h⟩
      split at h
      · cases h
      · next hdir =>
        split at h
        · cases h
        · next hdots =>
          cases h
          rw [not_or] at hdots
          exact ⟨init.reverse, hinit, by simpa using hdir, hdots.1, hdots.2, walk_eq_ok_iff.1 hwalk⟩
    · rintro ⟨init', hinit', hdir, hdot, hdots, hwalk⟩
      -- the last name is the same however the names are cut
      obtain ⟨rfl, hlast⟩ := List.append_inj' (hinit'.symm.trans hinit) rfl
      obtain rfl : name = last := by simpa using hlast
      exact ⟨parent, walk_eq_ok_iff.2 hwalk, by simp [hdir, hdot, hdots]⟩

/-- On the way to its last name, a path leads through a location. -/
def LeadsThrough (d : Disk) (p : Path) (loc : Location) : Prop :=
  Looks d.tree loc (d.start p) p.names.dropLast

theorem leadsThrough_iff {init : List String} {loc : Location} (hnames : p.names = init ++ [name]) :
    d.LeadsThrough p loc ↔ Looks d.tree loc (d.start p) init := by
  rw [LeadsThrough, hnames, List.dropLast_concat]

/-- A path names a place under a proper name in a directory. -/
theorem isEntryName_of_locateEntry (h : d.locateEntry p = .ok (parent, name)) :
    IsEntryName name ∧ d.tree.get? parent = some .directory := by
  obtain ⟨init, hnames, hdir, hdot, hdots, -⟩ := locateEntry_eq_ok_iff.1 h
  have hmem : name ∈ p.names := hnames ▸ List.mem_append_right _ (List.mem_singleton_self _)
  have hempty := Path.ne_empty_of_mem_names hmem
  have hslash := Path.slash_notMem_of_mem_names hmem
  exact ⟨⟨hempty, hslash, hdot, hdots⟩, hdir⟩

/-- While only files come and go, a path names the same place. -/
theorem locateEntry_of_keeps (h : d.locateEntry p = .ok (parent, name))
    (hkeeps : d.tree.Keeps d'.tree) (hcwd : d'.cwd = d.cwd) :
    d'.locateEntry p = .ok (parent, name) := by
  obtain ⟨init, hnames, hdir, hdot, hdots, k, hk, w⟩ := locateEntry_eq_ok_iff.1 h
  refine locateEntry_eq_ok_iff.2 ⟨init, hnames, hkeeps _ _ hdir (by simp), hdot, hdots, k, hk, ?_⟩
  rw [start, hcwd]
  exact w.keeps (by simp [hdir]) hkeeps

/-- A file that is moved stands at the place that the path names, where no directory was. -/
theorem rename_spec {source : Location} {content : ByteArray}
    (hsource : d.tree.get? source = some (.file content)) (h : d.rename source p = .ok d') :
    ∃ parent name, d.locateEntry p = .ok (parent, name) ∧ p.endsInSlash = false ∧
      d.tree.get? (name :: parent) ≠ some .directory ∧ d'.cwd = d.cwd ∧
      ∀ loc, d'.tree.get? loc =
        if loc = name :: parent then some (.file content)
        else if loc = source then none
        else d.tree.get? loc := by
  obtain ⟨⟨parent, name⟩, hentry, h⟩ := Except.bind_eq_ok_iff.1 h
  have hne : source ≠ [] := by
    rintro rfl
    cases hsource
  refine ⟨parent, name, hentry, ?_⟩
  simp only [hsource] at h
  split at h
  · cases h
  · next hslash =>
    split at h
    · cases h
    · next e' heq hnotDir =>
      cases heq
      cases h
      refine ⟨by simpa using hslash, hnotDir, rfl, fun loc => ?_⟩
      rw [FileTree.get?_put _ _ _ (by simp), FileTree.get?_erase _ _ hne]
    · cases h

/-- A file or link is moved to a place that has no directory. -/
theorem exists_rename {source : Location} {e : Entry} (hsource : d.tree.get? source = some e)
    (hentry : d.locateEntry p = .ok (parent, name)) (hslash : p.endsInSlash = false)
    (hplace : d.tree.get? (name :: parent) ≠ some .directory) :
    ∃ d', d.rename source p = .ok d' := by
  rw [rename, hentry]
  simp only [bind, Except.bind, hslash, hsource, Bool.false_eq_true, if_false]
  cases hget : d.tree.get? (name :: parent) with
  | none => exact ⟨_, rfl⟩
  | some e' =>
    cases e' with
    | directory => exact absurd hget hplace
    | file c => exact ⟨_, rfl⟩
    | link target => exact ⟨_, rfl⟩

variable (hdir : d.locateDirectory dir = .ok out) (hname : IsEntryName name)

include hdir hname

/-- The path of a name in a directory names its place there. -/
theorem locateEntry_join : d.locateEntry (dir.join ⟨name⟩) = .ok (out, name) := by
  obtain ⟨-, hout, k, hk, w⟩ := locateDirectory_eq_ok_iff.1 hdir
  refine locateEntry_eq_ok_iff.2
    ⟨dir.names, Path.names_join hname, hout, hname.ne_dot, hname.ne_dots, k, hk, ?_⟩
  rw [start, Path.isAbsolute_join hname]
  exact w

/-- A file in a directory is found under its path. -/
theorem readBytes_join {content : ByteArray}
    (hfile : d.tree.get? (name :: out) = some (.file content)) :
    d.readBytes (dir.join ⟨name⟩) = .ok content := by
  obtain ⟨-, hout, k, hk, w⟩ := locateDirectory_eq_ok_iff.1 hdir
  have hloc : d.locate (dir.join ⟨name⟩) = .ok (name :: out) := by
    refine locate_eq_ok_iff.2 ⟨Path.text_join_ne hname, _, hk, ?_⟩
    rw [start, Path.isAbsolute_join hname, Path.steps_join hname]
    exact w.append <| (Walks.done _).enter hout hname.ne_dot hname.ne_dots hfile (by simp)
  rw [readBytes, hloc]
  simp [bind, Except.bind, hfile]

/-- A file in a directory is removed under its path. -/
theorem removeFile_join {content : ByteArray}
    (hfile : d.tree.get? (name :: out) = some (.file content)) :
    d.removeFile (dir.join ⟨name⟩) = .ok (d.discard (name :: out)) := by
  rw [removeFile, locateEntry_join hdir hname]
  simp [bind, Except.bind, Path.endsInSlash_join hname, hfile]

/-- A file is moved to a name in a directory, unless a directory has the name. -/
theorem rename_join {source : Location} {e : Entry} (hsource : d.tree.get? source = some e) :
    d.rename source (dir.join ⟨name⟩) =
      if d.tree.get? (name :: out) = some .directory then .error .isDirectory
      else .ok { d with tree := (d.tree.erase source).put (name :: out) e } := by
  rw [rename, locateEntry_join hdir hname]
  simp only [bind, Except.bind, Path.endsInSlash_join hname, hsource]
  cases d.tree.get? (name :: out) with
  | none => simp
  | some e' => cases e' <;> simp

end Disk

end ReleaseCut
