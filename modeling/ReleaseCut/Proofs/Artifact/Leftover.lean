import ReleaseCut.Proofs.Artifact.Selection

/-!
# What is left of the build output

Staging copies the file that is picked before it removes any. This does not keep the bytes in each
case, since a copy that cannot be moved is taken away again, and nothing is rolled back
(`Staging.bytes_left_iff`).

Nor does a second run always give what the first one gave. The file that was picked may be gone, and
the artifact is one of an earlier release by now: any candidate that was spared comes before it
(`Published.select_eq`). So it depends on the bytes of the first of these, or, where there are none,
on whether the artifact may be picked itself (`Staging.stage_again_iff`).
-/

namespace ReleaseCut

namespace Staging

variable {outputDir : Path} {extension exclude pattern : String} {s : Staging} {d d' d'' : Disk}
  {out : Location} {bytes bytes' : ByteArray} {n : String} {v : Version} {asset : Asset}

/-! ### After one run -/

/-- Where the name for the version is no name of an entry, no entry has a name of the published
form. -/
private theorem not_describes_of_not_isEntryName
    (hname : ArtifactName.ofPattern pattern = .ok s.name)
    (hinst : ¬ IsEntryName (s.name.instantiate v)) (hn : IsEntryName n) :
    s.name.publishGlob.describes n = false := by
  have hslash : '/' ∈ pattern.toList := by_contra fun hslash =>
    hinst (ArtifactName.isEntryName_instantiate hname hslash v)
  exact ArtifactName.not_describes_of_slash hname hslash hn.slash

/-- Files whose names have not the published form are not stale. -/
private theorem not_isStale_of_not_describes (h : s.name.publishGlob.describes n = false) :
    ¬ s.IsStale d out (n :: out) := by
  rintro ⟨m, _, heq, hm, -⟩
  obtain rfl := (List.cons.inj heq).1
  rw [h] at hm
  cases hm

/-- Where the stale files were cleared, the other files are left. -/
theorem Cleared.exists_file_iff (h : Cleared s d out d') :
    (∃ n, d'.tree.get? (n :: out) = some (.file bytes)) ↔
      ∃ n, d.tree.get? (n :: out) = some (.file bytes) ∧
        s.name.publishGlob.describes n = false := by
  constructor
  · rintro ⟨n, hget⟩
    exact ⟨n, (h.get?_back hget).1, h.not_describes hget⟩
  · rintro ⟨n, hget, hn⟩
    exact ⟨n, (h.same _ (not_isStale_of_not_describes hn)).trans hget⟩

/-- Where the copy was moved, it stands in the directory, or the file that was picked does. -/
private theorem Replaced.exists_file {place : Location} {chosen : String}
    (h : Replaced s d out place bytes d') (hname : ArtifactName.ofPattern pattern = .ok s.name)
    (hchosen : IsEntryName chosen) (hfile : d.tree.get? (chosen :: out) = some (.file bytes))
    (hplace : IsEntryName (s.name.instantiate v) → place = s.name.instantiate v :: out) :
    ∃ n, d'.tree.get? (n :: out) = some (.file bytes) := by
  by_cases hinst : IsEntryName (s.name.instantiate v)
  · exact ⟨_, hplace hinst ▸ h.artifact⟩
  -- what is picked has the name of an entry, so it is spared
  · have hspared := not_describes_of_not_isEntryName hname hinst hchosen
    refine ⟨chosen, ?_⟩
    by_cases heq : chosen :: out = place
    · rw [heq, h.artifact]
    · rw [h.same _ heq (not_isStale_of_not_describes hspared), hfile]

section Picked

variable (hproper : d.tree.IsProper) (hdir : d.locateDirectory s.outputDir = .ok out) {first : Path}
  {rest : List Path} (h : s.candidates d = .ok (first :: rest))

include hproper hdir h

/-- Where a directory has the name for the version, the copy cannot be moved. -/
theorem cleared_of_directory
    (hdirectory : d.tree.get? (s.name.instantiate v :: out) = some .directory) :
    ∃ cause, (s.stage d v).1 =
        .error (.artifactIo .rename (s.pathOf (s.name.instantiate v)) cause) ∧
      Cleared s d out (s.stage d v).2 := by
  obtain ⟨out', chosen, bytes, hdir', -, -, hends⟩ := stage_of_candidates hproper h v
  obtain rfl := Except.ok.inj (hdir.symm.trans hdir')
  rcases hends with ⟨cause, herror, hcleared, -⟩ | ⟨place, hreplaced, hplace⟩
  · exact ⟨cause, herror, hcleared⟩
  · obtain rfl := hplace (hproper _ _ hdirectory _ (List.mem_cons_self ..))
    exact absurd hdirectory hreplaced.notDirectory

/-- Otherwise the copy takes its place, or the file that was picked is spared. -/
private theorem exists_file_of_not_directory
    (hname : ArtifactName.ofPattern pattern = .ok s.name) (hread : d.readBytes first = .ok bytes)
    (hnotDir : d.tree.get? (s.name.instantiate v :: out) ≠ some .directory) :
    ∃ n, (s.stage d v).2.tree.get? (n :: out) = some (.file bytes) := by
  obtain ⟨out', chosen, bytes', hdir', hread', hfile, hends⟩ := stage_of_candidates hproper h v
  obtain rfl := Except.ok.inj (hdir.symm.trans hdir')
  obtain rfl := Except.ok.inj (hread.symm.trans hread')
  have hchosen := hproper _ _ hfile chosen (List.mem_cons_self ..)
  rcases hends with ⟨_, -, hcleared, hdirectory⟩ | ⟨place, hreplaced, hplace⟩
  · have hinst := mt hdirectory hnotDir
    exact hcleared.exists_file_iff.2
      ⟨chosen, hfile, not_describes_of_not_isEntryName hname hinst hchosen⟩
  · exact hreplaced.exists_file hname hchosen hfile hplace

/-- Whatever the system refuses, this is so unless staging gives up in between. -/
private theorem exists_file_or_givesUp [sys : OperatingSystem] (hsys : sys.IsFaithful)
    (hname : ArtifactName.ofPattern pattern = .ok s.name) (hread : d.readBytes first = .ok bytes) :
    (∃ n, (s.stage d v).2.tree.get? (n :: out) = some (.file bytes)) ∨
      ∃ removed, s.GivesUp d out v removed := by
  obtain ⟨out', chosen, others, hdir', hselect, rfl⟩ := select_of_candidates h
  obtain rfl := Except.ok.inj (hdir.symm.trans hdir')
  obtain ⟨content, hfile⟩ := exists_file_of_mem_select (hselect ▸ List.mem_cons_self ..)
  have hchosen := hproper _ _ hfile chosen (List.mem_cons_self ..)
  obtain rfl := Except.ok.inj (hread.symm.trans (Disk.readBytes_join hdir hchosen hfile))
  obtain hsame | hgives | ⟨parent, name, hentry, hreplaced⟩ :=
    stage_ends hsys hproper hdir hselect hfile v
  · exact .inl ⟨chosen, by rwa [hsame]⟩
  · exact .inr hgives
  · exact .inl <| hreplaced.exists_file hname hchosen hfile fun hinst =>
      eq_place_of_isEntryName hdir hinst hentry

end Picked

/-- Where staging gives up, the files that were not removed are left. -/
theorem GivesUp.exists_file_iff [OperatingSystem] {removed : List String}
    (h : s.GivesUp d out v removed) :
    (∃ n, (s.stage d v).2.tree.get? (n :: out) = some (.file bytes)) ↔
      ∃ n, d.tree.get? (n :: out) = some (.file bytes) ∧ n ∉ removed := by
  have hsame : ∀ n, n ∉ removed →
      (s.stage d v).2.tree.get? (n :: out) = d.tree.get? (n :: out) := by
    refine fun n hn => h.without.same _ ?_
    rintro m hm heq
    exact hn ((List.cons.inj heq).1 ▸ hm)
  constructor
  · rintro ⟨n, hget⟩
    have hn : n ∉ removed := by
      intro hn
      rw [h.without.gone n hn] at hget
      cases hget
    exact ⟨n, (hsame n hn).symm.trans hget, hn⟩
  · rintro ⟨n, hget, hn⟩
    exact ⟨n, (hsame n hn).trans hget⟩

/-- **What is left of the bytes that were picked.** However staging ends, a file of the output
directory holds them, unless staging gives up after it removed all files with these bytes. Its copy
is taken away then.

A system that refuses nothing of its own makes it give up exactly where a directory has the name for
the version: all files of the published form are removed before the copy is found to have no
place. -/
theorem bytes_left_iff (hs : ofPatterns outputDir extension exclude pattern = .ok s)
    (hproper : d.tree.IsProper) {first : Path} {rest : List Path}
    (h : s.candidates d = .ok (first :: rest)) (v : Version) : ∃ out bytes,
      d.locateDirectory s.outputDir = .ok out ∧ d.readBytes first = .ok bytes ∧
      (∀ [sys : OperatingSystem], sys.IsFaithful →
        ((∀ n, (s.stage d v).2.tree.get? (n :: out) ≠ some (.file bytes)) ↔
          ∃ removed, s.GivesUp d out v removed ∧
            ∀ n, d.tree.get? (n :: out) = some (.file bytes) → n ∈ removed)) ∧
      ((∃ n, (s.stage d v).2.tree.get? (n :: out) = some (.file bytes)) ↔
        d.tree.get? (s.name.instantiate v :: out) ≠ some .directory ∨
          ∃ n, d.tree.get? (n :: out) = some (.file bytes) ∧
            s.name.publishGlob.describes n = false) ∧
      (d.tree.get? (s.name.instantiate v :: out) = some .directory →
        ∃ cause, (s.stage d v).1 =
            .error (.artifactIo .rename (s.pathOf (s.name.instantiate v)) cause) ∧
          Cleared s d out (s.stage d v).2) := by
  obtain ⟨out, chosen, bytes, hdir, hread, -, -⟩ := stage_of_candidates hproper h v
  have hname := ofPattern_of_ofPatterns hs
  refine ⟨out, bytes, hdir, hread, fun {sys} hsys => ?_, ?_, cleared_of_directory hproper hdir h⟩
  · rw [← not_exists]
    constructor
    · intro hlost
      obtain ⟨removed, hgives⟩ :=
        (exists_file_or_givesUp hproper hdir h hsys hname hread).resolve_left hlost
      refine ⟨removed, hgives, fun n hget => by_contra fun hn => hlost ?_⟩
      exact hgives.exists_file_iff.2 ⟨n, hget, hn⟩
    · rintro ⟨removed, hgives, hall⟩ hleft
      obtain ⟨n, hget, hn⟩ := hgives.exists_file_iff.1 hleft
      exact hn (hall n hget)
  by_cases hdirectory : d.tree.get? (s.name.instantiate v :: out) = some .directory
  · obtain ⟨_, -, hcleared⟩ := cleared_of_directory hproper hdir h hdirectory
    simp only [hcleared.exists_file_iff, hdirectory, ne_eq, not_true_eq_false, false_or]
  · exact iff_of_true (exists_file_of_not_directory hproper hdir h hname hread hdirectory)
      (.inl hdirectory)

/-- A directory whose only archive has a name of the published form. -/
def snapshotDisk : Disk where
  tree := ⟨[(["target"], .directory), (["app-1.0-SNAPSHOT.jar", "target"], .file ⟨#[1]⟩)], by simp⟩
  cwd := []

/-- An older file gives way, so the bytes are left. They are lost where the only archive was removed
and the system finds the name for the version too long. -/
theorem bytes_left_beside_file :
    (∃ n, ((appStaging ⟨"target"⟩).stage (appDisk (.file ⟨#[2]⟩)) .initial).2.tree.get?
      [n, "target"] = some (.file ⟨#[1]⟩)) ∧
    ∃ removed, @GivesUp (.withNameLimit 10) (appStaging ⟨"target"⟩) snapshotDisk ["target"]
      .initial removed ∧ "app-1.0-SNAPSHOT.jar" ∈ removed := by
  have hs := ofPatterns_appStaging ⟨"target"⟩
  constructor
  · have hdir : (appDisk (.file ⟨#[2]⟩)).locateDirectory ⟨"target"⟩ = .ok ["target"] := by
      decide +kernel
    obtain ⟨rest, h⟩ := exists_candidates_appDisk hdir
    obtain ⟨out, bytes, hout, hread, -, hleft, -⟩ := bytes_left_iff hs (by decide) h .initial
    cases hdir.symm.trans hout
    have hbytes : (appDisk (.file ⟨#[2]⟩)).readBytes ((appStaging ⟨"target"⟩).pathOf "x.jar") =
        .ok ⟨#[1]⟩ := by decide +kernel
    obtain rfl := Except.ok.inj (hbytes.symm.trans hread)
    exact hleft.2 (.inl (by decide +kernel))
  · have hdir : snapshotDisk.locateDirectory ⟨"target"⟩ = .ok ["target"] := by decide +kernel
    have h : (appStaging ⟨"target"⟩).candidates snapshotDisk =
        .ok [⟨"target/app-1.0-SNAPSHOT.jar"⟩] := by decide +kernel
    obtain ⟨out, bytes, hout, hread, hlost, -⟩ := bytes_left_iff hs (by decide) h .initial
    cases hdir.symm.trans hout
    have hbytes : snapshotDisk.readBytes ⟨"target/app-1.0-SNAPSHOT.jar"⟩ = .ok ⟨#[1]⟩ := by
      decide +kernel
    obtain rfl := Except.ok.inj (hbytes.symm.trans hread)
    -- no file is left
    have hentries : (@stage (.withNameLimit 10) (appStaging ⟨"target"⟩) snapshotDisk
        .initial).2.tree.entries = [(["target"], .directory)] := by decide +kernel
    obtain ⟨removed, hgives, hall⟩ :=
      (@hlost (.withNameLimit 10) (OperatingSystem.isFaithful_withNameLimit 10)).1 fun n hget => by
        rw [FileTree.get?_eq_some_iff (by simp), hentries] at hget
        simp at hget
    exact ⟨removed, hgives, hall _ rfl⟩

/-- The archive is removed, and the copy of it cannot be moved. -/
theorem stage_loses_bytes :
    ofPatterns ⟨"target"⟩ "jar" "" "app-{version}.jar" = .ok (appStaging ⟨"target"⟩) ∧
    blockedDisk.tree.IsProper ∧ blockedDisk.locateDirectory ⟨"target"⟩ = .ok ["target"] ∧
    ∃ first rest bytes, (appStaging ⟨"target"⟩).candidates blockedDisk = .ok (first :: rest) ∧
      blockedDisk.readBytes first = .ok bytes ∧
      ∀ n, ((appStaging ⟨"target"⟩).stage blockedDisk .initial).2.tree.get? [n, "target"] ≠
        some (.file bytes) := by
  have hproper : blockedDisk.tree.IsProper := by decide
  have hdir := locateDirectory_blockedDisk
  obtain ⟨first, rest, h⟩ := exists_candidates_blockedDisk
  obtain ⟨out, chosen, bytes, -, hread, -, -⟩ := stage_of_candidates hproper h .initial
  refine ⟨ofPatterns_appStaging ⟨"target"⟩, hproper, hdir, first, rest, bytes, h, hread,
    fun n hget => ?_⟩
  have hdirectory : blockedDisk.tree.get?
      ((appStaging ⟨"target"⟩).name.instantiate .initial :: ["target"]) = some .directory := by
    decide +kernel
  obtain ⟨_, -, hcleared⟩ := cleared_of_directory hproper hdir h hdirectory
  -- no file but the archive was there, and it was stale
  obtain ⟨m, hm, hspared⟩ := hcleared.exists_file_iff.1 ⟨n, hget⟩
  rw [FileTree.get?_eq_some_iff (by simp)] at hm
  obtain ⟨rfl, -⟩ : m = "app-1.0-SNAPSHOT.jar" ∧ bytes = ⟨#[1]⟩ := by simpa [blockedDisk] using hm
  revert hspared
  decide

/-! ### A second run -/

/-- The candidates of a listing that staging leaves where they are. -/
def spared (s : Staging) (listing : List (String × Entry)) : List String :=
  (s.select listing).filter (!s.name.publishGlob.describes ·)

/-- The name for a version where a file of this name may be picked itself, and nothing otherwise. -/
def repicked (s : Staging) (v : Version) : List String :=
  [s.name.instantiate v].filter fun n => s.isCandidate (n, .file .empty)

theorem mem_repicked : n ∈ s.repicked v ↔ n = s.name.instantiate v ∧
    s.extension.toList <:+ n.toList ∧ s.exclude.describes n = false := by
  simp [repicked, isCandidate, Entry.isFile]

/-- A second run finds the bytes that the first one published. -/
inductive FindsAgain (s : Staging) (d : Disk) (out : Location) (v : Version) (bytes : ByteArray) :
    Prop where
  /-- The first candidate that was spared has the same bytes. -/
  | spared {n : String} {others : List String}
      (hspared : s.spared (d.tree.children out) = n :: others)
      (hfile : d.tree.get? (n :: out) = some (.file bytes))
  /-- No candidate was spared, and the artifact may be picked. -/
  | artifact (hspared : s.spared (d.tree.children out) = [])
      (hextension : s.extension.toList <:+ (s.name.instantiate v).toList)
      (hkept : s.exclude.describes (s.name.instantiate v) = false)

namespace Published

theorem get?_of_not_describes (h : Published s d out v bytes d')
    (hn : s.name.publishGlob.describes n = false) :
    d'.tree.get? (n :: out) = d.tree.get? (n :: out) := by
  refine h.same _ fun m hm heq => ?_
  obtain rfl := (List.cons.inj heq).1
  rw [hn] at hm
  cases hm

/-- Of the published form, only the artifact is there. -/
theorem eq_instantiate {e : Entry} (h : Published s d out v bytes d')
    (hn : s.name.publishGlob.describes n = true) (hget : d'.tree.get? (n :: out) = some e) :
    n = s.name.instantiate v := by
  by_contra hne
  rw [h.others n hne hn] at hget
  cases hget

/-- Fresh candidates that were spared are fresh again, and the artifact has the name of a release.
-/
private theorem isRanking {fresh old : List String} (h : Published s d out v bytes d')
    (hname : ArtifactName.ofPattern pattern = .ok s.name)
    (hranking : s.IsRanking d.tree out fresh old) :
    s.IsRanking d'.tree out (fresh.filter (!s.name.publishGlob.describes ·)) (s.repicked v) where
  mem_fresh n := by
    rw [List.mem_filter, hranking.mem_fresh, isEligible_iff, isEligible_iff]
    cases hn : s.name.publishGlob.describes n with
    | false => simp [h.get?_of_not_describes hn]
    | true =>
      simp only [Bool.not_true, Bool.false_eq_true, and_false, false_iff]
      rintro ⟨⟨e, hget, -⟩, hnone⟩
      -- the artifact is the only one of the published form, and it is released
      obtain rfl := h.eq_instantiate hn hget
      rw [ArtifactName.releasedVersion?_eq_some_iff.2 rfl] at hnone
      cases hnone
  mem_old n := by
    rw [mem_repicked]
    constructor
    · rintro ⟨rfl, hextension, hkept⟩
      exact ⟨⟨⟨bytes, h.artifact⟩, hextension, hkept⟩, v,
        ArtifactName.releasedVersion?_eq_some_iff.2 rfl⟩
    · rintro ⟨⟨⟨content, hget⟩, hextension, hkept⟩, w, hw⟩
      -- what is released has the published form
      have hdescribes := ArtifactName.describes_instantiate hname w
      rw [ArtifactName.releasedVersion?_eq_some_iff.1 hw] at hdescribes
      exact ⟨h.eq_instantiate hdescribes hget, hextension, hkept⟩
  ascending_fresh := hranking.ascending_fresh.filter _
  ascending_old := (List.pairwise_singleton ..).filter _

/-- After an artifact was published, the candidates are those that were spared, and then the
artifact if it may be picked. -/
theorem select_eq (h : Published s d out v bytes d')
    (hname : ArtifactName.ofPattern pattern = .ok s.name) :
    s.select (d'.tree.children out) = s.spared (d.tree.children out) ++ s.repicked v := by
  obtain ⟨fresh, old, hselect, hranking⟩ := s.exists_ranking d.tree out
  obtain ⟨fresh', old', hselect', hranking'⟩ := s.exists_ranking d'.tree out
  obtain ⟨rfl, rfl⟩ := hranking'.unique (h.isRanking hname hranking)
  -- candidates of earlier releases have the published form
  have hold : old.filter (!s.name.publishGlob.describes ·) = [] := by
    refine List.filter_eq_nil_iff.2 fun n hn => ?_
    obtain ⟨-, w, hw⟩ := (hranking.mem_old n).1 hn
    rw [← ArtifactName.releasedVersion?_eq_some_iff.1 hw,
      ArtifactName.describes_instantiate hname w]
    simp
  rw [hselect', spared, hselect, List.filter_append, hold, List.append_nil]

/-- A second run finds the bytes exactly where its first candidate has them. -/
theorem findsAgain_iff (h : Published s d out v bytes d')
    (hname : ArtifactName.ofPattern pattern = .ok s.name) : s.FindsAgain d out v bytes ↔
      ∃ n others, s.select (d'.tree.children out) = n :: others ∧
        d'.tree.get? (n :: out) = some (.file bytes) := by
  have hsame : ∀ n ∈ s.spared (d.tree.children out),
      d'.tree.get? (n :: out) = d.tree.get? (n :: out) :=
    fun n hn => h.get?_of_not_describes (by simpa using (List.mem_filter.1 hn).2)
  rw [h.select_eq hname]
  constructor
  · rintro (⟨hspared, hfile⟩ | ⟨hspared, hextension, hkept⟩)
    · rw [hspared] at hsame ⊢
      exact ⟨_, _, List.cons_append .., (hsame _ (List.mem_cons_self ..)).trans hfile⟩
    · have hmem : s.name.instantiate v ∈ s.repicked v := mem_repicked.2 ⟨rfl, hextension, hkept⟩
      obtain ⟨n, others, hrepicked⟩ := List.exists_cons_of_ne_nil (List.ne_nil_of_mem hmem)
      obtain ⟨rfl, -⟩ := mem_repicked.1 (hrepicked ▸ List.mem_cons_self ..)
      exact ⟨_, others, by rw [hspared, List.nil_append, hrepicked], h.artifact⟩
  · rintro ⟨n, others, hselect, hget⟩
    rcases List.append_eq_cons_iff.1 hselect with ⟨hspared, hrepicked⟩ | ⟨others', hspared, -⟩
    · obtain ⟨rfl, hextension, hkept⟩ := mem_repicked.1 (hrepicked ▸ List.mem_cons_self ..)
      exact .artifact hspared hextension hkept
    · exact .spared hspared ((hsame n (hspared ▸ List.mem_cons_self ..)).symm.trans hget)

/-- What was published gives way to the next artifact. -/
theorem givesWay (h : Published s d out v bytes d') : s.GivesWay d' out v := by
  intro n e hget hn
  obtain rfl := h.eq_instantiate hn hget
  rw [h.artifact] at hget
  cases hget
  exact .inl rfl

/-- A second artifact for the same version is all that changes. -/
theorem get?_again (h : Published s d out v bytes d') (h' : Published s d' out v bytes' d'')
    {loc : Location} (hne : loc ≠ s.name.instantiate v :: out) :
    d''.tree.get? loc = d'.tree.get? loc := by
  by_cases hloc : ∃ n, s.name.publishGlob.describes n = true ∧ loc = n :: out
  · obtain ⟨n, hn, rfl⟩ := hloc
    have hname : n ≠ s.name.instantiate v := fun heq => hne (heq ▸ rfl)
    rw [h.others n hname hn, h'.others n hname hn]
  · exact h'.same loc fun n hn heq => hloc ⟨n, hn, heq⟩

end Published

/-- Names are proper after an artifact was published. -/
private theorem isProper_of_stage (hs : ofPatterns outputDir extension exclude pattern = .ok s)
    (hproper : d.tree.IsProper) (h : s.stage d v = (.ok asset, d')) : d'.tree.IsProper := by
  obtain ⟨out, content, hdir, hinst, hstored, -⟩ := stored_of_stage hs hproper h
  exact hstored.isProper hproper hinst (Disk.locateDirectory_eq_ok_iff_locate.1 hdir).2

section Again

variable (hs : ofPatterns outputDir extension exclude pattern = .ok s) (hproper : d.tree.IsProper)
  (hdir : d.locateDirectory s.outputDir = .ok out) (h : s.stage d v = (.ok asset, d'))

include hs hproper hdir h

/-- A second run succeeds where it has a candidate. -/
private theorem exists_stage_again {n : String} {others : List String}
    (hselect : s.select (d'.tree.children out) = n :: others) :
    ∃ asset' d'', s.stage d' v = (.ok asset', d'') := by
  obtain ⟨-, hslash, -, -⟩ := (exists_stage_iff hs hproper hdir v).1 ⟨asset, d', h⟩
  obtain ⟨-, _, _, bytes, -, -, hpublished⟩ := select_of_stage hs hproper hdir h
  have hdir' := locateDirectory_of_stage hproper hdir h
  have hproper' := isProper_of_stage hs hproper h
  -- the path to the directory does not lead through the artifact, which is a file
  refine (exists_stage_iff hs hproper' hdir' v).2 ⟨?_, hslash, hpublished.givesWay,
    Disk.not_looksAt_of_file hdir' hpublished.artifact⟩
  rw [candidates_eq hdir', hselect]
  exact ⟨_, _, rfl⟩

/-- A second run that leaves the artifact as it was has found the same bytes. -/
private theorem findsAgain_of_stage (hpublished : Published s d out v bytes d') {asset' : Asset}
    (hagain : s.stage d' v = (.ok asset', d''))
    (hsame : d''.tree.get? (s.name.instantiate v :: out) =
      d'.tree.get? (s.name.instantiate v :: out)) : s.FindsAgain d out v bytes := by
  obtain ⟨-, n, others, bytes', hselect, hfile, hpublished'⟩ := select_of_stage hs
    (isProper_of_stage hs hproper h) (locateDirectory_of_stage hproper hdir h) hagain
  rw [hpublished'.artifact, hpublished.artifact] at hsame
  cases hsame
  exact (hpublished.findsAgain_iff (ofPattern_of_ofPatterns hs)).2 ⟨n, others, hselect, hfile⟩

/-- A second run that finds the same bytes changes nothing. -/
private theorem exists_stage_of_findsAgain (hpublished : Published s d out v bytes d')
    (hfinds : s.FindsAgain d out v bytes) : ∃ d'', s.stage d' v = (.ok asset, d'') ∧
      d''.cwd = d'.cwd ∧ ∀ loc, d''.tree.get? loc = d'.tree.get? loc := by
  obtain ⟨n, others, hselect, hfile⟩ :=
    (hpublished.findsAgain_iff (ofPattern_of_ofPatterns hs)).1 hfinds
  obtain ⟨asset', d'', hagain⟩ := exists_stage_again hs hproper hdir h hselect
  obtain ⟨rfl, n', _, bytes', hselect', hfile', hpublished'⟩ := select_of_stage hs
    (isProper_of_stage hs hproper h) (locateDirectory_of_stage hproper hdir h) hagain
  obtain ⟨rfl, -⟩ := select_of_stage hs hproper hdir h
  obtain ⟨rfl, -⟩ := List.cons.inj (hselect.symm.trans hselect')
  obtain rfl : bytes = bytes' := by simpa using hfile.symm.trans hfile'
  refine ⟨d'', hagain, hpublished'.cwd, fun loc => ?_⟩
  by_cases hloc : loc = s.name.instantiate v :: out
  · rw [hloc, hpublished'.artifact, hpublished.artifact]
  · exact hpublished.get?_again hpublished' hloc

end Again

/-- **A second run for the same version** gives the same artifact and changes nothing exactly where
it finds the bytes again. Whenever it succeeds, it gives the same artifact, and this is all that
changes. -/
theorem stage_again_iff (hs : ofPatterns outputDir extension exclude pattern = .ok s)
    (hproper : d.tree.IsProper) (hdir : d.locateDirectory s.outputDir = .ok out)
    (h : s.stage d v = (.ok asset, d')) : ∃ first rest bytes,
      s.candidates d = .ok (first :: rest) ∧ d.readBytes first = .ok bytes ∧
      ((∃ d'', s.stage d' v = (.ok asset, d'') ∧ d''.cwd = d'.cwd ∧
        ∀ loc, d''.tree.get? loc = d'.tree.get? loc) ↔ s.FindsAgain d out v bytes) ∧
      ∀ asset' d'', s.stage d' v = (.ok asset', d'') → asset' = asset ∧ d''.cwd = d'.cwd ∧
        ∀ loc, loc ≠ s.name.instantiate v :: out → d''.tree.get? loc = d'.tree.get? loc := by
  obtain ⟨hasset, first, rest, bytes, hcandidates, hread, hpublished⟩ :=
    published_of_stage hs hproper hdir h
  refine ⟨first, rest, bytes, hcandidates, hread, ⟨?_, ?_⟩, ?_⟩
  · rintro ⟨d'', hagain, -, hsame⟩
    exact findsAgain_of_stage hs hproper hdir h hpublished hagain (hsame _)
  · exact exists_stage_of_findsAgain hs hproper hdir h hpublished
  intro asset' d'' hagain
  obtain ⟨hasset', -, -, _, -, -, hpublished'⟩ := published_of_stage hs
    (isProper_of_stage hs hproper h) (locateDirectory_of_stage hproper hdir h) hagain
  exact ⟨hasset'.trans hasset.symm, hpublished'.cwd, fun _ => hpublished.get?_again hpublished'⟩

/-- The archives of a build are published twice, where all of them have names of the published
form. -/
theorem stage_again_built : ∃ asset d' d'',
    (appStaging ⟨"target"⟩).stage builtDisk .initial = (.ok asset, d') ∧
    (appStaging ⟨"target"⟩).stage d' .initial = (.ok asset, d'') ∧
    ∀ loc, d''.tree.get? loc = d'.tree.get? loc := by
  have hs := ofPatterns_appStaging ⟨"target"⟩
  have hproper : builtDisk.tree.IsProper := by decide
  have hdir : builtDisk.locateDirectory ⟨"target"⟩ = .ok ["target"] := by decide +kernel
  have hway : (appStaging ⟨"target"⟩).GivesWay builtDisk ["target"] .initial := by
    intro n e hn hdescribes
    rcases get?_builtDisk hn with ⟨-, hfile⟩ | ⟨hn, -⟩
    · exact .inl hfile
    · revert hdescribes
      have hspared : ∀ n ∈ ["classes.jar", "latest.jar"],
          ¬ (appStaging ⟨"target"⟩).name.publishGlob.describes n = true := by decide
      exact fun hdescribes => absurd hdescribes (hspared n hn)
  have hlooks : ¬ builtDisk.LooksAt ⟨"target"⟩ ["app-1.0.0.jar", "target"] :=
    Disk.not_looksAt_of_file hdir rfl
  obtain ⟨asset, d', h⟩ := (exists_stage_iff hs hproper hdir .initial).2
    ⟨(exists_candidates_iff hdir).2 ⟨"app-1.0.0.jar", .file ⟨#[1]⟩, rfl, by decide +kernel⟩,
      by decide, hway, hlooks⟩
  obtain ⟨_, _, bytes, -, -, hagain, -⟩ := stage_again_iff hs hproper hdir h
  have hspared : (appStaging ⟨"target"⟩).spared (builtDisk.tree.children ["target"]) = [] := by
    refine List.filter_eq_nil_iff.2 fun n hn => ?_
    obtain ⟨content, hget⟩ := exists_file_of_mem_select hn
    have hpublished : ∀ n ∈ ["app-1.0-SNAPSHOT.jar", "app-1.1-SNAPSHOT.jar", "app-0.9.0.jar",
        "app-1.0.0.jar"], ¬ (!(appStaging ⟨"target"⟩).name.publishGlob.describes n) = true := by
      decide
    rcases get?_builtDisk hget with ⟨hn, -⟩ | ⟨-, hfile⟩
    · exact hpublished n hn
    · cases hfile
  obtain ⟨d'', hsecond, -, hsame⟩ := hagain.2 (.artifact hspared (by decide) (by decide))
  exact ⟨asset, d', d'', h, hsecond, hsame⟩

/-- A directory with two archives, where the first one has a name of the published form. -/
def rebuiltDisk : Disk where
  tree := ⟨[(["target"], .directory), (["app-1.0-SNAPSHOT.jar", "target"], .file ⟨#[1]⟩),
    (["x.jar", "target"], .file ⟨#[2]⟩)], by simp⟩
  cwd := []

private theorem get?_rebuiltDisk {e : Entry} (h : rebuiltDisk.tree.get? [n, "target"] = some e) :
    n = "app-1.0-SNAPSHOT.jar" ∧ e = .file ⟨#[1]⟩ ∨ n = "x.jar" ∧ e = .file ⟨#[2]⟩ := by
  rw [FileTree.get?_eq_some_iff (by simp)] at h
  simpa [rebuiltDisk] using h

private theorem select_rebuiltDisk :
    (appStaging ⟨"target"⟩).select (rebuiltDisk.tree.children ["target"]) =
      ["app-1.0-SNAPSHOT.jar", "x.jar"] := by
  obtain ⟨fresh, old, hselect, hranking⟩ :=
    (appStaging ⟨"target"⟩).exists_ranking rebuiltDisk.tree ["target"]
  have hboth : (appStaging ⟨"target"⟩).IsRanking rebuiltDisk.tree ["target"]
      ["app-1.0-SNAPSHOT.jar", "x.jar"] [] := by
    refine .of_mem_iff (fun n => ⟨fun hn => ?_, ?_⟩) (by decide +kernel) (by simp)
      (by decide +kernel)
    · have heligible : ∀ n ∈ ["app-1.0-SNAPSHOT.jar", "x.jar"],
          (appStaging ⟨"target"⟩).IsEligible rebuiltDisk.tree ["target"] n := by
        rw [List.forall_mem_cons, List.forall_mem_singleton]
        exact ⟨⟨⟨_, rfl⟩, by decide, by decide⟩, ⟨⟨_, rfl⟩, by decide, by decide⟩⟩
      exact heligible n hn
    · rintro ⟨⟨content, hget⟩, -, -⟩
      rcases get?_rebuiltDisk hget with ⟨rfl, -⟩ | ⟨rfl, -⟩ <;> simp
  obtain ⟨rfl, rfl⟩ := hranking.unique hboth
  exact hselect

/-- The first archive is removed when it is published, and then it is the turn of the second. -/
theorem stage_again_other_bytes :
    ofPatterns ⟨"target"⟩ "jar" "" "app-{version}.jar" = .ok (appStaging ⟨"target"⟩) ∧
    rebuiltDisk.tree.IsProper ∧ ∃ asset d',
      (appStaging ⟨"target"⟩).stage rebuiltDisk .initial = (.ok asset, d') ∧
      ¬ ∃ d'', (appStaging ⟨"target"⟩).stage d' .initial = (.ok asset, d'') ∧
        ∀ n, d''.tree.get? [n, "target"] = d'.tree.get? [n, "target"] := by
  have hs := ofPatterns_appStaging ⟨"target"⟩
  have hproper : rebuiltDisk.tree.IsProper := by decide
  have hdir : rebuiltDisk.locateDirectory ⟨"target"⟩ = .ok ["target"] := by decide +kernel
  have hway : (appStaging ⟨"target"⟩).GivesWay rebuiltDisk ["target"] .initial := by
    intro n e hget _
    rcases get?_rebuiltDisk hget with ⟨rfl, rfl⟩ | ⟨rfl, rfl⟩ <;> exact .inl rfl
  have hlooks : ¬ rebuiltDisk.LooksAt ⟨"target"⟩ ["app-1.0.0.jar", "target"] := by
    intro hlooks
    obtain ⟨e, hget, -⟩ := hlooks.notFile hdir
    cases hget
  obtain ⟨asset, d', h⟩ := (exists_stage_iff hs hproper hdir .initial).2
    ⟨(exists_candidates_iff hdir).2 ⟨"x.jar", .file ⟨#[2]⟩, rfl, by decide +kernel⟩, by decide,
      hway, hlooks⟩
  refine ⟨hs, hproper, asset, d', h, ?_⟩
  rintro ⟨d'', hagain, hsame⟩
  -- the first run published the bytes of the first archive
  obtain ⟨-, chosen, _, bytes, hselect, hfile, hpublished⟩ := select_of_stage hs hproper hdir h
  obtain ⟨rfl, -⟩ := List.cons.inj (select_rebuiltDisk.symm.trans hselect)
  cases hfile
  have hspared : (appStaging ⟨"target"⟩).spared (rebuiltDisk.tree.children ["target"]) =
      ["x.jar"] := by
    rw [spared, select_rebuiltDisk]
    decide
  rcases findsAgain_of_stage hs hproper hdir h hpublished hagain (hsame _) with
    ⟨hspared', hfile⟩ | ⟨hspared', -, -⟩
  · obtain ⟨rfl, -⟩ := List.cons.inj (hspared.symm.trans hspared')
    cases hfile
  · cases hspared.symm.trans hspared'

end Staging

end ReleaseCut
