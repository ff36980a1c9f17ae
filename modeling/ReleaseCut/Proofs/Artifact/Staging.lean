import ReleaseCut.Proofs.Artifact.Name
import ReleaseCut.Proofs.FileTree.Store

/-!
# The phases of staging

Staging copies the first candidate to a fresh file, removes the stale files, and moves the copy to
its name. `stage_cases` says in what state each end of this leaves the disk.

* Nothing can be picked, and the disk stays as it is. Any other end says that a step failed
  (`stage_eq_error`).
* The stale files are removed (`Cleared`) and the copy is taken away, since it cannot be moved.
* The copy has taken its place (`Replaced`), and what `verify` finds decides.

While files come and go the output directory is found all the time, since a path to a directory
leads through no file.
-/

namespace ReleaseCut

namespace Staging

variable {s : Staging} {d d' d₁ : Disk} {out temp place loc : Location} {content : ByteArray}
  {n : String} {e : Entry} {v : Version} {es : List (String × Entry)}

/-! ### States of the disk -/

/-- A file of the output directory that would be published stands at the location. -/
def IsStale (s : Staging) (d : Disk) (out loc : Location) : Prop :=
  ∃ n content, loc = n :: out ∧ s.name.publishGlob.describes n = true ∧
    d.tree.get? loc = some (.file content)

/-- Without the stale files. -/
structure Cleared (s : Staging) (d : Disk) (out : Location) (d' : Disk) : Prop where
  /-- The working directory stays. -/
  cwd : d'.cwd = d.cwd
  /-- The stale files are gone. -/
  stale : ∀ loc, s.IsStale d out loc → d'.tree.get? loc = none
  /-- All else stays. -/
  same : ∀ loc, ¬ s.IsStale d out loc → d'.tree.get? loc = d.tree.get? loc

/-- Without the stale files, and with a file at a place where no directory was. -/
structure Replaced (s : Staging) (d : Disk) (out place : Location) (content : ByteArray)
    (d' : Disk) : Prop where
  /-- The working directory stays. -/
  cwd : d'.cwd = d.cwd
  /-- The place was not that of a directory. -/
  notDirectory : d.tree.get? place ≠ some .directory
  /-- The file stands at its place. -/
  artifact : d'.tree.get? place = some (.file content)
  /-- The stale files are gone. -/
  stale : ∀ loc, loc ≠ place → s.IsStale d out loc → d'.tree.get? loc = none
  /-- All else stays. -/
  same : ∀ loc, loc ≠ place → ¬ s.IsStale d out loc → d'.tree.get? loc = d.tree.get? loc

/-- What is no file is not stale. -/
theorem not_isStale (h : d.tree.get? loc = some e) (hfile : ∀ c, e ≠ .file c) :
    ¬ s.IsStale d out loc := by
  rintro ⟨n, c, -, -, hget⟩
  exact hfile c (Option.some.inj (h.symm.trans hget))

theorem Cleared.keeps (h : Cleared s d out d') : d.tree.Keeps d'.tree := by
  intro loc e hget hfile
  rw [h.same loc (not_isStale hget hfile), hget]

theorem Replaced.keeps (h : Replaced s d out place content d') (loc : Location) (e : Entry)
    (hne : loc ≠ place) (hget : d.tree.get? loc = some e) (hfile : ∀ c, e ≠ .file c) :
    d'.tree.get? loc = some e := by
  rw [h.same loc hne (not_isStale hget hfile), hget]

/-- What stands elsewhere than the artifact stood there before, and was not stale. -/
theorem Replaced.get?_back (h : Replaced s d out place content d') (hne : loc ≠ place)
    (hget : d'.tree.get? loc = some e) : d.tree.get? loc = some e ∧ ¬ s.IsStale d out loc := by
  have hstale : ¬ s.IsStale d out loc := by
    intro hstale
    rw [h.stale loc hne hstale] at hget
    cases hget
  exact ⟨h.same loc hne hstale ▸ hget, hstale⟩

theorem Cleared.get?_back (h : Cleared s d out d') (hget : d'.tree.get? loc = some e) :
    d.tree.get? loc = some e ∧ ¬ s.IsStale d out loc := by
  have hstale : ¬ s.IsStale d out loc := by
    intro hstale
    rw [h.stale loc hstale] at hget
    cases hget
  exact ⟨h.same loc hstale ▸ hget, hstale⟩

/-- What is new stands at the place of the artifact. -/
theorem Replaced.eq_place (h : Replaced s d out place content d')
    (hnone : d.tree.get? loc = none) (hget : d'.tree.get? loc ≠ none) : loc = place := by
  obtain ⟨e, he⟩ := Option.ne_none_iff_exists'.1 hget
  refine Decidable.byContradiction fun hne => ?_
  rw [(h.get?_back hne he).1] at hnone
  cases hnone

/-! ### Names out of a listing -/

theorem mem_select : n ∈ s.select es ↔ ∃ e, (n, e) ∈ es ∧ s.isCandidate (n, e) = true := by
  have hnames : n ∈ (es.filter s.isCandidate).map Prod.fst ↔
      ∃ e, (n, e) ∈ es ∧ s.isCandidate (n, e) = true := by
    simp [List.mem_map, List.mem_filter]
  rw [select, List.mem_append, List.mem_filter, List.mem_filter, ← and_or_left, hnames]
  cases s.isReleased n <;> simp

/-- Only files are picked. -/
theorem exists_file_of_mem_select (h : n ∈ s.select (d.tree.children out)) :
    ∃ content, d.tree.get? (n :: out) = some (.file content) := by
  obtain ⟨e, hmem, hcandidate⟩ := mem_select.1 h
  rw [FileTree.mem_children] at hmem
  cases e with
  | file content => exact ⟨content, hmem⟩
  | directory => cases hcandidate
  | link target => cases hcandidate

theorem mem_stale : n ∈ s.stale (d.tree.children out) ↔ s.IsStale d out (n :: out) := by
  simp only [stale, published, List.mem_filter, List.mem_map, Prod.exists, exists_and_right,
    exists_eq_right, IsStale, List.cons.injEq, and_true]
  constructor
  · rintro ⟨⟨e, hmem, hfile⟩, hdescribes⟩
    obtain ⟨content, rfl⟩ := Entry.exists_of_isFile hfile
    exact ⟨n, content, rfl, hdescribes, FileTree.mem_children.1 hmem⟩
  · rintro ⟨_, content, rfl, hdescribes, hget⟩
    exact ⟨⟨_, FileTree.mem_children.2 hget, rfl⟩, hdescribes⟩

/-! ### Removing files -/

/-- Without some files of a directory. -/
structure Without (d : Disk) (out : Location) (removed : List String) (d' : Disk) : Prop where
  /-- The working directory stays. -/
  cwd : d'.cwd = d.cwd
  /-- The files are gone. -/
  gone : ∀ n ∈ removed, d'.tree.get? (n :: out) = none
  /-- All else stays. -/
  same : ∀ loc, (∀ n ∈ removed, loc ≠ n :: out) → d'.tree.get? loc = d.tree.get? loc

namespace Without

variable {removed : List String}

theorem nil : Without d out [] d :=
  ⟨rfl, by simp, fun _ _ => rfl⟩

/-- One more file is removed before the others. -/
theorem cons (h : Without (d.discard (n :: out)) out removed d') :
    Without d out (n :: removed) d' := by
  have hget : ∀ loc, (d.discard (n :: out)).tree.get? loc =
      if loc = n :: out then none else d.tree.get? loc :=
    fun loc => FileTree.get?_erase d.tree loc (by simp)
  refine ⟨h.cwd, List.forall_mem_cons.2 ⟨?_, h.gone⟩, fun loc hloc => ?_⟩
  · by_cases hn : n ∈ removed
    · exact h.gone n hn
    · rw [h.same, hget, if_pos rfl]
      rintro m hm heq
      exact hn ((List.cons.inj heq).1 ▸ hm)
  · rw [List.forall_mem_cons] at hloc
    rw [h.same loc hloc.2, hget, if_neg hloc.1]

/-- While files are removed, all else stays. -/
theorem keeps (h : Without d out removed d')
    (hfiles : ∀ n ∈ removed, ∃ c, d.tree.get? (n :: out) = some (.file c)) :
    d.tree.Keeps d'.tree := by
  intro loc e hget hfile
  rw [h.same loc, hget]
  rintro n hn rfl
  obtain ⟨c, hc⟩ := hfiles n hn
  exact hfile c (Option.some.inj (hget.symm.trans hc))

/-- Without the stale files the directory is cleared. -/
theorem cleared (h : Without d out (s.stale (d.tree.children out)) d') : Cleared s d out d' where
  cwd := h.cwd
  stale := by
    intro loc hstale
    obtain ⟨n, _, rfl, -, -⟩ := id hstale
    exact h.gone n (mem_stale.2 hstale)
  same := by
    refine fun loc hstale => h.same loc ?_
    rintro n hn rfl
    exact hstale (mem_stale.1 hn)

end Without

/-- The stale files of a directory are files under different names. -/
private theorem files_of_stale (s : Staging) (out : Location) (hproper : d.tree.IsProper) :
    (s.stale (d.tree.children out)).Nodup ∧ ∀ n ∈ s.stale (d.tree.children out),
      IsEntryName n ∧ ∃ c, d.tree.get? (n :: out) = some (.file c) := by
  refine ⟨(d.tree.nodup_children out).sublist
    (List.filter_sublist.trans (List.filter_sublist.map _)), fun n hn => ?_⟩
  obtain ⟨_, c, -, -, hget⟩ := mem_stale.1 hn
  exact ⟨hproper _ _ hget n (List.mem_cons_self ..), c, hget⟩

/-! ### The phases -/

section Phases

variable (hdir : d.locateDirectory s.outputDir = .ok out)

include hdir

/-- A file of the output directory is copied to a fresh one, unless the system refuses. -/
theorem copyToTemp_cases [sys : OperatingSystem] (hsys : sys.IsFaithful) (hname : IsEntryName n)
    (hfile : d.tree.get? (n :: out) = some (.file content)) :
    (∃ e, s.copyToTemp d n = (.error e, d)) ∨
    ∃ temp d', s.copyToTemp d n = (.ok temp, d') ∧ d.Added temp content d' := by
  rw [copyToTemp]
  split
  · exact .inl ⟨_, rfl⟩
  · next temp d₁ hcreate =>
    have hcreate := hsys.createTemp hcreate
    split
    · exact .inl ⟨_, by rw [Disk.discard_of_createTemp hcreate]⟩
    · next bytes hread =>
      have hadded := Disk.added_of_createTemp hcreate
      have hdir₁ := Disk.locateDirectory_of_keeps hdir hadded.keeps hadded.cwd
      have hfound := Disk.readBytes_join hdir₁ hname (hadded.get?_of_get? hfile)
      obtain rfl : content = bytes := Except.ok.inj (hfound.symm.trans (hsys.readBytes hread))
      exact .inr ⟨temp, _, rfl, hadded.setContent content⟩

/-- The standard system does not refuse. -/
theorem copyToTemp_spec (hname : IsEntryName n)
    (hfile : d.tree.get? (n :: out) = some (.file content)) :
    ∃ temp d', s.copyToTemp d n = (.ok temp, d') ∧ d.Added temp content d' := by
  obtain ⟨temp, d₁, hcreate⟩ := Disk.exists_createTemp hdir ".release-asset-" ".tmp"
  have hadded := Disk.added_of_createTemp hcreate
  have hdir₁ := Disk.locateDirectory_of_keeps hdir hadded.keeps hadded.cwd
  have hread : d₁.readBytes (s.pathOf n) = .ok content :=
    Disk.readBytes_join hdir₁ hname (hadded.get?_of_get? hfile)
  refine ⟨temp, d₁.setContent temp content, ?_, hadded.setContent content⟩
  rw [copyToTemp, OperatingSystem.createTemp_standard, hcreate]
  simp only [OperatingSystem.readBytes_standard, hread]

/-- Files of the output directory are removed one by one, up to the first that the system refuses
to remove. -/
theorem removeAll_cases [sys : OperatingSystem] (hsys : sys.IsFaithful) {names : List String}
    (hnodup : names.Nodup)
    (hnames : ∀ n ∈ names, IsEntryName n ∧ ∃ c, d.tree.get? (n :: out) = some (.file c)) :
    ∃ removed d', Without d out removed d' ∧
      (removed = names ∧ s.removeAll d names = (.ok (), d') ∨
      ∃ n rest e, names = removed ++ n :: rest ∧ sys.removeFile d' (s.pathOf n) = .error e ∧
        s.removeAll d names = (.error (.artifactIo .remove (s.pathOf n) e), d')) := by
  induction names generalizing d with
  | nil => exact ⟨[], d, .nil, .inl ⟨rfl, rfl⟩⟩
  | cons n names ih =>
    rw [removeAll]
    obtain ⟨hname, content, hfile⟩ := hnames n (List.mem_cons_self ..)
    obtain ⟨hnotin, hnodup⟩ := List.nodup_cons.1 hnodup
    split
    · next d₁ hremove =>
      have hremoved := Disk.removeFile_join hdir hname hfile
      obtain rfl := Except.ok.inj ((hsys.removeFile hremove).symm.trans hremoved)
      -- the directory and the other files are still there
      have hone : Without d out [n] (d.discard (n :: out)) := Without.nil.cons
      have hdir₁ := Disk.locateDirectory_of_keeps hdir
        (hone.keeps fun m hm => List.mem_singleton.1 hm ▸ ⟨content, hfile⟩) hone.cwd
      have hnames₁ : ∀ m ∈ names,
          IsEntryName m ∧ ∃ c, (d.discard (n :: out)).tree.get? (m :: out) = some (.file c) := by
        intro m hm
        obtain ⟨hm', c, hc⟩ := hnames m (List.mem_cons_of_mem _ hm)
        refine ⟨hm', c, ?_⟩
        rw [hone.same, hc]
        rintro _ hn heq
        rw [List.mem_singleton.1 hn] at heq
        exact hnotin ((List.cons.inj heq).1 ▸ hm)
      obtain ⟨removed, d', hwithout, hends⟩ := ih hdir₁ hnodup hnames₁
      refine ⟨n :: removed, d', hwithout.cons, ?_⟩
      rcases hends with ⟨rfl, hall⟩ | ⟨m, rest, e, rfl, hrefused, herror⟩
      · exact .inl ⟨rfl, hall⟩
      · exact .inr ⟨m, rest, e, rfl, hrefused, herror⟩
    · next e hrefused => exact ⟨[], d, .nil, .inr ⟨n, names, e, rfl, hrefused, rfl⟩⟩

end Phases

/-! ### The ends -/

/-- Without some files of a directory, and with a copy in a file that was not there. -/
private structure Held (d : Disk) (out : Location) (removed : List String) (temp : Location)
    (content : ByteArray) (d' : Disk) : Prop where
  cwd : d'.cwd = d.cwd
  fresh : d.tree.get? temp = none
  copy : d'.tree.get? temp = some (.file content)
  files : ∀ n ∈ removed, ∃ c, d.tree.get? (n :: out) = some (.file c)
  gone : ∀ n ∈ removed, d'.tree.get? (n :: out) = none
  same : ∀ loc, loc ≠ temp → (∀ n ∈ removed, loc ≠ n :: out) →
    d'.tree.get? loc = d.tree.get? loc

namespace Held

variable {removed : List String}

/-- Files are removed beside the copy. -/
private theorem of_added (hadded : d.Added temp content d₁)
    (hfiles : ∀ n ∈ removed, ∃ c, d.tree.get? (n :: out) = some (.file c))
    (h : Without d₁ out removed d') : Held d out removed temp content d' := by
  refine ⟨h.cwd.trans hadded.cwd, hadded.fresh, ?_, hfiles, h.gone, fun loc hne hloc => ?_⟩
  · rw [h.same, hadded.file]
    rintro n hn rfl
    obtain ⟨c, hc⟩ := hfiles n hn
    cases hadded.fresh.symm.trans hc
  · rw [h.same loc hloc, hadded.same hne]

variable (h : Held d out removed temp content d')

include h

private theorem temp_ne_nil : temp ≠ [] := by
  rintro rfl
  cases h.fresh

private theorem keeps : d.tree.Keeps d'.tree := by
  intro loc e hget hfile
  rw [h.same loc (FileTree.ne_of_get?_eq_none h.fresh hget), hget]
  rintro n hn rfl
  obtain ⟨c, hc⟩ := h.files n hn
  exact hfile c (Option.some.inj (hget.symm.trans hc))

private theorem keeps_back : d'.tree.Keeps d.tree := by
  intro loc e hget hfile
  have hne : loc ≠ temp := by
    rintro rfl
    exact hfile content (Option.some.inj (hget.symm.trans h.copy))
  rw [← h.same loc hne, hget]
  rintro n hn rfl
  rw [h.gone n hn] at hget
  cases hget

/-- The copy is taken away. -/
private theorem without : Without d out removed (d'.discard temp) := by
  have hget : ∀ loc, (d'.discard temp).tree.get? loc =
      if loc = temp then none else d'.tree.get? loc :=
    fun loc => FileTree.get?_erase d'.tree loc h.temp_ne_nil
  refine ⟨h.cwd, fun n hn => ?_, fun loc hloc => ?_⟩
  · rw [hget, h.gone n hn, ite_self]
  · rw [hget]
    split
    · next heq => rw [heq, h.fresh]
    · next hne => exact h.same loc hne hloc

end Held

/-- The copy is moved after the stale files were removed. -/
private theorem Held.replaced {target : Path}
    (h : Held d out (s.stale (d.tree.children out)) temp content d')
    (hrename : d'.rename temp target = .ok d₁) :
    ∃ parent name, d.locateEntry target = .ok (parent, name) ∧
      Replaced s d out (name :: parent) content d₁ := by
  obtain ⟨parent, name, hentry, -, hnotDir, hcwd, hget⟩ := Disk.rename_spec h.copy hrename
  have hcleared := h.without.cleared
  have hwithout : ∀ loc, loc ≠ temp → d'.tree.get? loc = (d'.discard temp).tree.get? loc :=
    fun loc hne => ((FileTree.get?_erase _ loc h.temp_ne_nil).trans (if_neg hne)).symm
  refine ⟨parent, name, Disk.locateEntry_of_keeps hentry h.keeps_back h.cwd.symm, hcwd.trans h.cwd,
    fun hdir => hnotDir (h.keeps _ _ hdir (by simp)), ?_, ?_, ?_⟩
  · rw [hget, if_pos rfl]
  · intro loc hne hstale
    rw [hget, if_neg hne]
    split
    · rfl
    · next hnotTemp => rw [hwithout loc hnotTemp, hcleared.stale loc hstale]
  · intro loc hne hstale
    rw [hget, if_neg hne]
    split
    · next heq => rw [heq, h.fresh]
    · next hnotTemp => rw [hwithout loc hnotTemp, hcleared.same loc hstale]

/-- What is picked is published after it was copied, unless the system refuses before that. -/
private theorem stage_eq_publish_or [sys : OperatingSystem] (hsys : sys.IsFaithful)
    (hproper : d.tree.IsProper) (hdir : d.locateDirectory s.outputDir = .ok out) {chosen : String}
    {rest : List String} (hselect : s.select (d.tree.children out) = chosen :: rest)
    (hfile : d.tree.get? (chosen :: out) = some (.file content)) (v : Version) :
    (∃ e, s.stage d v = (.error e, d)) ∨ ∃ temp d₁, d.Added temp content d₁ ∧
      s.stage d v = s.publish d₁ temp (s.stale (d.tree.children out)) v := by
  rw [stage, scan]
  cases hlist : sys.list d s.outputDir with
  | error e => exact .inl ⟨_, rfl⟩
  | ok es =>
    have hlisted : d.list s.outputDir = .ok (d.tree.children out) := by
      rw [Disk.list, hdir]
      rfl
    obtain rfl := Except.ok.inj ((hsys.list hlist).symm.trans hlisted)
    simp only [hselect]
    rcases copyToTemp_cases hdir hsys (hproper _ _ hfile chosen (List.mem_cons_self ..)) hfile with
      ⟨e, hcopy⟩ | ⟨temp, d₁, hcopy, hadded⟩
    · exact .inl ⟨e, by rw [hcopy]⟩
    · exact .inr ⟨temp, d₁, hadded, by rw [hcopy]⟩

/-- With the standard system it is always copied and published. -/
theorem exists_copy (hproper : d.tree.IsProper)
    (hdir : d.locateDirectory s.outputDir = .ok out) {chosen : String} {rest : List String}
    (hselect : s.select (d.tree.children out) = chosen :: rest)
    (hfile : d.tree.get? (chosen :: out) = some (.file content)) (v : Version) :
    ∃ temp d₁, d.Added temp content d₁ ∧
      s.stage d v = s.publish d₁ temp (s.stale (d.tree.children out)) v := by
  have hscan : s.scan d = .ok (d.tree.children out) := by
    rw [scan, OperatingSystem.list_standard, Disk.list, hdir]
    rfl
  obtain ⟨temp, d₁, hcopy, hadded⟩ :=
    copyToTemp_spec hdir (hproper _ _ hfile chosen (List.mem_cons_self ..)) hfile
  exact ⟨temp, d₁, hadded, by simp only [stage, hscan, hselect, hcopy]⟩

/-- To publish a copy is to move it after the stale files were removed, unless the system refuses
to remove one of them. -/
private theorem publish_cases [sys : OperatingSystem] (hsys : sys.IsFaithful)
    (hproper : d.tree.IsProper) (hdir : d.locateDirectory s.outputDir = .ok out)
    (hadded : d.Added temp content d₁) (v : Version) :
    ∃ removed d₂, Held d out removed temp content d₂ ∧
      ((∃ n rest e, s.stale (d.tree.children out) = removed ++ n :: rest ∧
        sys.removeFile d₂ (s.pathOf n) = .error e ∧
        s.publish d₁ temp (s.stale (d.tree.children out)) v =
          (.error (.artifactIo .remove (s.pathOf n) e), d₂.discard temp)) ∨
      removed = s.stale (d.tree.children out) ∧
        s.publish d₁ temp (s.stale (d.tree.children out)) v =
          match sys.rename d₂ temp (s.pathOf (s.name.instantiate v)) with
          | .error e =>
            (.error (.artifactIo .rename (s.pathOf (s.name.instantiate v)) e), d₂.discard temp)
          | .ok d₃ =>
            match s.verify d₃ (s.pathOf (s.name.instantiate v)) with
            | .error e => (.error e, d₃)
            | .ok () => (.ok ⟨s.pathOf (s.name.instantiate v), v⟩, d₃)) := by
  obtain ⟨hnodup, hstale⟩ := files_of_stale s out hproper
  have hdir₁ := Disk.locateDirectory_of_keeps hdir hadded.keeps hadded.cwd
  -- the stale files are still there, beside the copy
  have hnames : ∀ n ∈ s.stale (d.tree.children out),
      IsEntryName n ∧ ∃ c, d₁.tree.get? (n :: out) = some (.file c) := by
    intro n hn
    obtain ⟨hname, c, hget⟩ := hstale n hn
    exact ⟨hname, c, hadded.get?_of_get? hget⟩
  obtain ⟨removed, d₂, hwithout, ⟨rfl, hremove⟩ | ⟨n, rest, e, hcut, hrefused, hremove⟩⟩ :=
    removeAll_cases hdir₁ hsys hnodup hnames
  · refine ⟨_, d₂, .of_added hadded (fun n hn => (hstale n hn).2) hwithout, .inr ⟨rfl, ?_⟩⟩
    rw [publish]
    exact hremove ▸ rfl
  · refine ⟨removed, d₂, .of_added hadded (fun m hm => (hstale m ?_).2) hwithout,
      .inl ⟨n, rest, e, hcut, hrefused, ?_⟩⟩
    · exact hcut ▸ List.mem_append_left _ hm
    · rw [publish]
      exact hremove ▸ rfl

/-- Staging gives up after it removed some of the stale files: the system does not remove the next
one, or all of them are removed and it does not move the copy. The copy is taken away. -/
structure GivesUp [OperatingSystem] (s : Staging) (d : Disk) (out : Location) (v : Version)
    (removed : List String) : Prop where
  /-- The files removed are all that is gone. -/
  without : Without d out removed (s.stage d v).2
  /-- What is refused. -/
  refused :
    (∃ n rest cause, s.stale (d.tree.children out) = removed ++ n :: rest ∧
      (s.stage d v).1 = .error (.artifactIo .remove (s.pathOf n) cause)) ∨
    removed = s.stale (d.tree.children out) ∧ ∃ cause,
      (s.stage d v).1 = .error (.artifactIo .rename (s.pathOf (s.name.instantiate v)) cause)

/-- Whatever the system refuses, staging changes nothing, gives up in between, or has moved the
copy to its place. -/
theorem stage_ends [sys : OperatingSystem] (hsys : sys.IsFaithful) (hproper : d.tree.IsProper)
    (hdir : d.locateDirectory s.outputDir = .ok out) {chosen : String} {rest : List String}
    (hselect : s.select (d.tree.children out) = chosen :: rest)
    (hfile : d.tree.get? (chosen :: out) = some (.file content)) (v : Version) :
    (s.stage d v).2 = d ∨ (∃ removed, s.GivesUp d out v removed) ∨
    ∃ parent name, d.locateEntry (s.pathOf (s.name.instantiate v)) = .ok (parent, name) ∧
      Replaced s d out (name :: parent) content (s.stage d v).2 := by
  obtain ⟨e, hstage⟩ | ⟨temp, d₁, hadded, hstage⟩ :=
    stage_eq_publish_or hsys hproper hdir hselect hfile v
  · exact .inl (by rw [hstage])
  obtain ⟨removed, d₂, hheld, ⟨n, rest, e, hcut, -, hpublish⟩ | ⟨rfl, hpublish⟩⟩ :=
    publish_cases hsys hproper hdir hadded v
  · have hstage := hstage.trans hpublish
    refine .inr (.inl ⟨removed, ?_, .inl ⟨n, rest, e, hcut, ?_⟩⟩)
    · rw [hstage]
      exact hheld.without
    · rw [hstage]
  · have hstage := hstage.trans hpublish
    cases hrename : sys.rename d₂ temp (s.pathOf (s.name.instantiate v)) with
    | error e =>
      rw [hrename] at hstage
      refine .inr (.inl ⟨_, ?_, .inr ⟨rfl, e, ?_⟩⟩)
      · rw [hstage]
        exact hheld.without
      · rw [hstage]
    | ok d₃ =>
      rw [hrename] at hstage
      obtain ⟨parent, name, hentry, hreplaced⟩ := hheld.replaced (hsys.rename hrename)
      refine .inr (.inr ⟨parent, name, hentry, ?_⟩)
      rw [hstage]
      dsimp only
      split <;> exact hreplaced

/-- Before the copy is moved, it is held in a fresh file and the stale files are gone. -/
private theorem stage_eq (hproper : d.tree.IsProper)
    (hdir : d.locateDirectory s.outputDir = .ok out) {chosen : String} {rest : List String}
    (hselect : s.select (d.tree.children out) = chosen :: rest)
    (hfile : d.tree.get? (chosen :: out) = some (.file content)) (v : Version) :
    ∃ temp d₁, Held d out (s.stale (d.tree.children out)) temp content d₁ ∧ s.stage d v =
      match d₁.rename temp (s.pathOf (s.name.instantiate v)) with
      | .error e =>
        (.error (.artifactIo .rename (s.pathOf (s.name.instantiate v)) e), d₁.discard temp)
      | .ok d₂ =>
        match s.verify d₂ (s.pathOf (s.name.instantiate v)) with
        | .error e => (.error e, d₂)
        | .ok () => (.ok ⟨s.pathOf (s.name.instantiate v), v⟩, d₂) := by
  obtain ⟨temp, d₁, hadded, hstage⟩ := exists_copy hproper hdir hselect hfile v
  obtain ⟨removed, d₂, hheld, ⟨n, rest, e, hcut, hrefused, -⟩ | ⟨rfl, hpublish⟩⟩ :=
    publish_cases OperatingSystem.isFaithful_standard hproper hdir hadded v
  · -- a stale file that is left is not refused
    obtain ⟨hnodup, hstale⟩ := files_of_stale s out hproper
    rw [hcut] at hnodup hstale
    obtain ⟨hname, c, hget⟩ := hstale n (List.mem_append_right _ (List.mem_cons_self ..))
    have hdir₂ := Disk.locateDirectory_of_keeps hdir hheld.keeps hheld.cwd
    have hget₂ : d₂.tree.get? (n :: out) = some (.file c) := by
      rw [hheld.same _ (FileTree.ne_of_get?_eq_none hheld.fresh hget), hget]
      rintro m hm heq
      obtain rfl := (List.cons.inj heq).1
      exact (List.nodup_append.1 hnodup).2.2 n hm n (List.mem_cons_self ..) rfl
    cases hrefused.symm.trans (Disk.removeFile_join hdir₂ hname hget₂)
  · exact ⟨temp, d₂, hheld, hstage.trans hpublish⟩

/-- How staging ends, and in what state it leaves the disk. -/
theorem stage_cases (hproper : d.tree.IsProper) (s : Staging) (v : Version) :
    (∃ dir listing, s.stage d v = (.error (.noArtifactFound dir listing), d) ∧
      ∀ out, d.locateDirectory s.outputDir = .ok out → s.select (d.tree.children out) = []) ∨
    ∃ out chosen rest content, d.locateDirectory s.outputDir = .ok out ∧
      s.select (d.tree.children out) = chosen :: rest ∧
      d.tree.get? (chosen :: out) = some (.file content) ∧
      ((∃ cause d', s.stage d v =
          (.error (.artifactIo .rename (s.pathOf (s.name.instantiate v)) cause), d') ∧
          Cleared s d out d' ∧ (IsEntryName (s.name.instantiate v) →
            d.tree.get? (s.name.instantiate v :: out) = some .directory)) ∨
      ∃ parent name d', d.locateEntry (s.pathOf (s.name.instantiate v)) = .ok (parent, name) ∧
        Replaced s d out (name :: parent) content d' ∧ s.stage d v =
          match s.verify d' (s.pathOf (s.name.instantiate v)) with
          | .error e => (.error e, d')
          | .ok () => (.ok ⟨s.pathOf (s.name.instantiate v), v⟩, d')) := by
  cases hdir : d.locateDirectory s.outputDir with
  | error e =>
    refine .inl ⟨s.outputDir, .unreadable e, ?_, by simp⟩
    simp [stage, scan, Disk.list, hdir, Except.map]
  | ok out =>
    cases hselect : s.select (d.tree.children out) with
    | nil =>
      refine .inl ⟨s.outputDir, .entries (d.tree.children out), ?_, ?_⟩
      · simp [stage, scan, Disk.list, hdir, Except.map, hselect]
      · rintro _ ⟨⟩
        exact hselect
    | cons chosen rest =>
      obtain ⟨content, hfile⟩ := exists_file_of_mem_select (hselect ▸ List.mem_cons_self ..)
      refine .inr ⟨out, chosen, rest, content, rfl, hselect, hfile, ?_⟩
      obtain ⟨temp, d₁, hheld, hstage⟩ := stage_eq hproper hdir hselect hfile v
      cases hrename : d₁.rename temp (s.pathOf (s.name.instantiate v)) with
      | error cause =>
        rw [hrename] at hstage
        refine .inl ⟨cause, _, hstage, hheld.without.cleared, fun hname => ?_⟩
        -- an entry name cannot be refused unless a directory has it
        have hdir₁ := Disk.locateDirectory_of_keeps hdir hheld.keeps hheld.cwd
        rw [pathOf, Disk.rename_join hdir₁ hname hheld.copy] at hrename
        split at hrename
        · next hget => exact hheld.keeps_back _ _ hget (by simp)
        · cases hrename
      | ok d₂ =>
        rw [hrename] at hstage
        obtain ⟨parent, name, hentry, hreplaced⟩ := hheld.replaced hrename
        exact .inr ⟨parent, name, d₂, hentry, hreplaced, hstage⟩

/-- A place that the path of the artifact leads to, where no directory stands. -/
structure IsPlace (s : Staging) (d : Disk) (v : Version) (place : Location) : Prop where
  /-- The path ends in the name of an entry. -/
  entry : ∃ parent name, d.locateEntry (s.pathOf (s.name.instantiate v)) = .ok (parent, name) ∧
    place = name :: parent
  /-- The path does not ask for a directory. -/
  slash : (s.pathOf (s.name.instantiate v)).endsInSlash = false
  /-- No directory stands there. -/
  notDirectory : d.tree.get? place ≠ some .directory

/-- There is one place for the artifact at most. -/
theorem IsPlace.unique {place' : Location} (h : s.IsPlace d v place) (h' : s.IsPlace d v place') :
    place = place' := by
  obtain ⟨_, _, hentry, rfl⟩ := h.entry
  obtain ⟨_, _, hentry', rfl⟩ := h'.entry
  cases hentry.symm.trans hentry'
  rfl

/-- What is picked is moved exactly if there is a place for it. -/
theorem stage_of_select (hproper : d.tree.IsProper)
    (hdir : d.locateDirectory s.outputDir = .ok out) {chosen : String} {rest : List String}
    (hselect : s.select (d.tree.children out) = chosen :: rest)
    (hfile : d.tree.get? (chosen :: out) = some (.file content)) (v : Version) :
    (∀ place, ¬ s.IsPlace d v place) ∧ Cleared s d out (s.stage d v).2 ∨
      ∃ place, s.IsPlace d v place ∧ Replaced s d out place content (s.stage d v).2 := by
  obtain ⟨temp, d₁, hheld, hstage⟩ := stage_eq hproper hdir hselect hfile v
  rw [hstage]
  cases hrename : d₁.rename temp (s.pathOf (s.name.instantiate v)) with
  | error cause =>
    refine .inl ⟨fun place hplace => ?_, hheld.without.cleared⟩
    obtain ⟨parent, name, hentry, rfl⟩ := hplace.entry
    have hentry₁ := Disk.locateEntry_of_keeps hentry hheld.keeps hheld.cwd
    obtain ⟨d₂, hmoved⟩ := Disk.exists_rename hheld.copy hentry₁ hplace.slash fun hget =>
      hplace.notDirectory (hheld.keeps_back _ _ hget (by simp))
    cases hrename.symm.trans hmoved
  | ok d₂ =>
    obtain ⟨_, _, -, hslash, -, -, -⟩ := Disk.rename_spec hheld.copy hrename
    obtain ⟨parent, name, hentry, hreplaced⟩ := hheld.replaced hrename
    refine .inr ⟨name :: parent, ⟨⟨parent, name, hentry, rfl⟩, hslash, hreplaced.notDirectory⟩, ?_⟩
    dsimp only
    split <;> exact hreplaced

/-! ### Errors -/

/-- The errors of the steps that touch files. -/
inductive IsStepError : ReleaseError → Prop
  /-- A step fails. -/
  | io (step : StagingStep) (path : Path) (cause : IoError) :
      IsStepError (.artifactIo step path cause)
  /-- Other files would be published. -/
  | postcondition (dir : Path) (glob : String) (found : List String) :
      IsStepError (.artifactPostcondition dir glob found)

section Errors

variable {e : ReleaseError}

private theorem isStepError_of_copyToTemp (h : s.copyToTemp d n = (.error e, d')) :
    IsStepError e := by
  rw [copyToTemp] at h
  split at h
  · cases h
    exact .io ..
  · split at h <;> cases h
    exact .io ..

private theorem isStepError_of_removeAll {names : List String}
    (h : s.removeAll d names = (.error e, d')) : IsStepError e := by
  induction names generalizing d with
  | nil => cases h
  | cons name names ih =>
    rw [removeAll] at h
    split at h
    · exact ih h
    · cases h
      exact .io ..

private theorem isStepError_of_verify {target : Path} (h : s.verify d target = .error e) :
    IsStepError e := by
  rw [verify] at h
  split at h
  · cases h
    exact .io ..
  · dsimp only at h
    split at h <;> cases h
    exact .postcondition ..

private theorem isStepError_of_publish {stale : List String}
    (h : s.publish d temp stale v = (.error e, d')) : IsStepError e := by
  rw [publish] at h
  split at h
  · next hremove =>
    cases h
    exact isStepError_of_removeAll hremove
  · split at h
    · cases h
      exact .io ..
    · split at h
      · next hverify =>
        cases h
        exact isStepError_of_verify hverify
      · cases h

/-- Staging finds no artifact and changes nothing, or one of its steps fails. -/
theorem stage_eq_error (h : s.stage d v = (.error e, d')) :
    (∃ dir listing, e = .noArtifactFound dir listing ∧ d' = d) ∨ IsStepError e := by
  rw [stage] at h
  split at h
  · next hscan =>
    cases h
    rw [scan] at hscan
    split at hscan <;> cases hscan
    exact .inl ⟨_, _, rfl, rfl⟩
  · split at h
    · cases h
      exact .inl ⟨_, _, rfl, rfl⟩
    · split at h
      · next hcopy =>
        cases h
        exact .inr (isStepError_of_copyToTemp hcopy)
      · exact .inr (isStepError_of_publish h)

/-- No artifact is found where nothing can be picked or the directory cannot be listed. -/
theorem stage_eq_noArtifactFound_iff :
    (∃ dir listing, (s.stage d v).1 = .error (.noArtifactFound dir listing)) ↔
      s.candidates d = .ok [] ∨ ∃ e, d.list s.outputDir = .error e := by
  rcases hlist : d.list s.outputDir with e | es
  · simp [stage, scan, hlist]
  · rcases hselect : s.select es with _ | ⟨chosen, rest⟩
    · simp [stage, candidates, scan, hlist, hselect, bind, Except.bind, pure, Except.pure]
    · have hcandidates : s.candidates d ≠ .ok [] := by
        simp [candidates, scan, hlist, hselect, bind, Except.bind, pure, Except.pure]
      simp only [hcandidates, reduceCtorEq, exists_false, or_self, iff_false]
      rintro ⟨dir, listing, h⟩
      -- only the steps after the choice can fail
      have hstep : IsStepError (.noArtifactFound dir listing) := by
        have hstage : s.stage d v = (.error (.noArtifactFound dir listing), (s.stage d v).2) :=
          Prod.ext h rfl
        simp only [stage, scan, OperatingSystem.list_standard, hlist, hselect] at hstage
        split at hstage
        · next hcopy =>
          cases (Prod.ext_iff.1 hstage).1
          exact isStepError_of_copyToTemp hcopy
        · exact isStepError_of_publish hstage
      cases hstep

/-- Where no artifact is found, nothing changes. -/
theorem eq_of_stage_eq_noArtifactFound {dir : Path} {listing : Listing}
    (h : s.stage d v = (.error (.noArtifactFound dir listing), d')) : d' = d := by
  rcases stage_eq_error h with ⟨_, _, -, hsame⟩ | hstep
  · exact hsame
  · cases hstep

end Errors

end Staging

end ReleaseCut
