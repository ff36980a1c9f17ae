import ReleaseCut.Proofs.Release.Cut
import ReleaseCut.Proofs.Repository.Commits

/-!
# Runs over the life of a project

Between calls of `Workspace.cut` a project goes on: commits are added on top of the one checked out,
and other programs change files.

* `Run c changes w log w'` says that such a life leads from the workspace `w` to `w'`, with the
  calls in `log`; `changes` says which changes of files other programs may make.
* `Call.tagging?` is what a call tagged, if it did; `taggings` lists what the calls of a log tagged.
* `Call.Succeeds` says that a call asked for a whole release and did not fail. If it made a release,
  then it tagged it (`Call.Succeeds.tagged`).

All this is said for any library that walks histories.
-/

namespace ReleaseCut

variable [History.Walker]

/-- A call, the workspace in which it was made and what it gave. -/
structure Call where
  /-- The workspace before the call. -/
  before : Workspace GitRepository
  /-- What was asked for. -/
  request : Request
  /-- The result. -/
  result : Except ReleaseError Outcome

/-- A release that was tagged. -/
structure Tagging where
  /-- The repository before. -/
  before : GitRepository
  /-- The plan of the release. -/
  plan : Plan
  /-- The day of the release. -/
  date : Date

/-- What a call tagged. -/
def Call.tagging? (call : Call) : Option Tagging :=
  match call.result with
  | .ok (.released release) =>
    if release.tagged then some ⟨call.before.repository, release.plan, call.request.date⟩ else none
  | _ => none

/-- What the calls of a log tagged, in order. -/
def taggings (log : List Call) : List Tagging :=
  log.filterMap Call.tagging?

/-- A life of a project, with the calls made in it. -/
inductive Run (c : Config) (changes : Disk → Disk → Prop) (w₀ : Workspace GitRepository) :
    List Call → Workspace GitRepository → Prop
  /-- Nothing has happened. -/
  | start : Run c changes w₀ [] w₀
  /-- A commit is added that has the one checked out among its parents. -/
  | commit {log : List Call} {w : Workspace GitRepository} (hash : String) (message : ByteArray)
      (parents : List Nat)
      (hhead : ∀ head, w.repository.headCommit = .ok head → head ∈ parents) :
      Run c changes w₀ log w →
      Run c changes w₀ log { w with repository := w.repository.commitOn hash message parents }
  /-- Another program changes files. -/
  | files {log : List Call} {w : Workspace GitRepository} (disk : Disk)
      (hchange : changes w.disk disk) :
      Run c changes w₀ log w → Run c changes w₀ log { w with disk }
  /-- A release is called for. -/
  | call {log : List Call} {w : Workspace GitRepository} (q : Request) :
      Run c changes w₀ log w →
      Run c changes w₀ (log ++ [⟨w, q, (w.cut c q).1⟩]) (w.cut c q).2

namespace Workspace

variable {w : Workspace GitRepository} {c : Config} {q : Request} {log : List Call}

/-- A call adds what it tagged, and leaves the repository alone where it tagged nothing. -/
theorem taggings_call (w : Workspace GitRepository) (c : Config) (q : Request) (log : List Call) :
    ((w.cut c q).2.repository = w.repository ∧
      taggings (log ++ [⟨w, q, (w.cut c q).1⟩]) = taggings log) ∨
    ∃ release, w.TagsRelease c q release ∧
      taggings (log ++ [⟨w, q, (w.cut c q).1⟩]) =
        taggings log ++ [⟨w.repository, release.plan, q.date⟩] := by
  rw [taggings, List.filterMap_append, taggings]
  rcases w.cut_cases c q with ⟨hsame, huntagged⟩ | ⟨release, h⟩
  · refine .inl ⟨hsame, ?_⟩
    have hnone : Call.tagging? ⟨w, q, (w.cut c q).1⟩ = none := by
      rw [Call.tagging?]
      split
      · next release hresult => simp [huntagged release hresult]
      · rfl
    simp [hnone]
  · refine .inr ⟨release, h, ?_⟩
    simp [Call.tagging?, h.result, h.tagged]

/-- No call changes the history. -/
theorem history_cut (w : Workspace GitRepository) (c : Config) (q : Request) :
    (w.cut c q).2.repository.history = w.repository.history := by
  rcases w.cut_cases c q with ⟨hsame, -⟩ | ⟨release, h⟩
  · rw [hsame]
  · obtain ⟨_, _, -, -, -, -, hhistory, -⟩ := GitRepository.createTag_spec h.created
    exact hhistory

end Workspace

/-- A call that goes a known way. -/
theorem Run.call_eq {c : Config} {changes : Disk → Disk → Prop} {w₀ w w' : Workspace GitRepository}
    {log : List Call} {q : Request} {result : Except ReleaseError Outcome}
    (run : Run c changes w₀ log w) (h : w.cut c q = (result, w')) :
    Run c changes w₀ (log ++ [⟨w, q, result⟩]) w' := by
  have hcall := run.call q
  rwa [h] at hcall

/-- The log has the results of the calls. -/
theorem Run.result_eq {c : Config} {changes : Disk → Disk → Prop} {w₀ w : Workspace GitRepository}
    {log : List Call} (run : Run c changes w₀ log w) (call : Call) (h : call ∈ log) :
    call.result = (call.before.cut c call.request).1 := by
  induction run with
  | start => cases h
  | commit _ _ _ _ _ ih => exact ih h
  | files _ _ _ ih => exact ih h
  | call q _ ih =>
    rcases List.mem_append.1 h with h | h
    · exact ih h
    · rw [List.mem_singleton.1 h]

/-! ### Calls that succeed -/

/-- A call for a whole release, below a directory, that did not fail. -/
structure Call.Succeeds (root : Path) (call : Call) : Prop where
  /-- Configured paths start from the directory. -/
  root : call.request.root = root
  /-- It is not only planned. -/
  full : call.request.dryRun = false
  /-- The tag is asked for. -/
  tags : call.request.noTag = false
  /-- The call gave a result. -/
  ok : ∃ outcome, call.result = .ok outcome

/-- Every release that a successful call made is tagged. -/
theorem Call.Succeeds.tagged {root : Path} {call : Call} {c : Config} {release : Release}
    (h : call.Succeeds root) (hcut : call.result = (call.before.cut c call.request).1)
    (hresult : call.result = .ok (.released release)) : release.tagged = true := by
  have hreleased : call.before.cut c call.request =
      (.ok (.released release), (call.before.cut c call.request).2) :=
    Prod.ext (hcut.symm.trans hresult) rfl
  obtain ⟨-, _, _, _, -, -, -, hrelease, -⟩ := (Workspace.cut_eq_released_iff h.full).1 hreleased
  rw [hrelease]
  simpa using h.tags

end ReleaseCut
