import ReleaseCut.Changelog
import ReleaseCut.Release.Plan

/-!
# Cutting a release

`Workspace.cut` carries out a plan: it stages the artifact, adds the release notes to the changelog
and tags the commit checked out, in this order, so that the step that cannot be taken back comes
last. The first failure ends the run. What was done before stays, and no tag is created.
-/

namespace ReleaseCut

/-- A repository and the files around it. The files in which the repository keeps its own data are
not among these, so that to write one is not to change the other. -/
structure Workspace (ρ : Type) where
  /-- The repository. -/
  repository : ρ
  /-- The files. -/
  disk : Disk

/-- What is asked of a run. -/
structure Request where
  /-- The directory that configured paths start from. -/
  root : Path
  /-- The branch to release in place of the one checked out. -/
  branch : Option String
  /-- Whether to plan only. -/
  dryRun : Bool
  /-- Whether to leave the tag to someone else. -/
  noTag : Bool
  /-- The day of the release. -/
  date : Date
  deriving DecidableEq

/-- What a run did for a release. -/
structure Release where
  /-- The plan. -/
  plan : Plan
  /-- The artifact, unless only planned. -/
  asset : Option Asset
  /-- The changelog written, unless only planned. -/
  changelog : Option Path
  /-- Whether the tag was created. -/
  tagged : Bool
  deriving DecidableEq

/-- How a run ends that does not fail. -/
inductive Outcome where
  /-- No release was warranted. -/
  | skipped (reason : SkipReason) (warnings : List Warning)
  /-- A release was made, or planned only. -/
  | released (release : Release)
  deriving DecidableEq

namespace Workspace

variable {ρ : Type}

/-- Stages the artifact of a plan. -/
def stageAsset (w : Workspace ρ) (c : Config) (root : Path) (p : Plan) :
    Except ReleaseError Asset × Workspace ρ :=
  match c.staging root with
  | .error e => (.error e, w)
  | .ok s =>
    let (result, disk) := s.stage w.disk p.version
    (result, { w with disk })

/-- Adds the notes of a plan to the changelog. -/
def writeNotes (w : Workspace ρ) (changelog : Path) (p : Plan) :
    Except ReleaseError Unit × Workspace ρ :=
  let (result, disk) := Changelog.write w.disk changelog p.notes.render
  (result, { w with disk })

/-- Creates the tag of a plan. -/
def tagRelease [Repository ρ] (w : Workspace ρ) (p : Plan) :
    Except ReleaseError Unit × Workspace ρ :=
  match Repository.createTag w.repository p.tag with
  | .error e => (.error e, w)
  | .ok repository => (.ok (), { w with repository })

/-- Carries out a plan. -/
def carryOut [Repository ρ] (w : Workspace ρ) (c : Config) (q : Request) (p : Plan) :
    Except ReleaseError Release × Workspace ρ :=
  let changelog := q.root.join c.changelogFile
  match w.stageAsset c q.root p with
  | (.error e, w) => (.error e, w)
  | (.ok asset, w) =>
    match w.writeNotes changelog p with
    | (.error e, w) => (.error e, w)
    | (.ok (), w) =>
      let release : Release :=
        { plan := p, asset := some asset, changelog := some changelog, tagged := !q.noTag }
      if q.noTag then (.ok release, w)
      else match w.tagRelease p with
        | (.error e, w) => (.error e, w)
        | (.ok (), w) => (.ok release, w)

/-- Makes the release that is due, if one is. The workspace is that after the run, successful or
not. -/
def cut [Repository ρ] (w : Workspace ρ) (c : Config) (q : Request) :
    Except ReleaseError Outcome × Workspace ρ :=
  match Decision.make w.repository c q.branch q.date with
  | .error e => (.error e, w)
  | .ok (.skip reason warnings) => (.ok (.skipped reason warnings), w)
  | .ok (.release p) =>
    if q.dryRun then
      (.ok (.released { plan := p, asset := none, changelog := none, tagged := false }), w)
    else
      let (result, w) := w.carryOut c q p
      (result.map .released, w)

end Workspace

end ReleaseCut
