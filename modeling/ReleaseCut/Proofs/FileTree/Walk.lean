import ReleaseCut.FileTree.Disk

/-!
# Walks through a file tree

`Walks t here steps links loc` says that the steps lead from `here` to `loc` through `links`
symbolic links. `Disk.walk` succeeds exactly along such walks (`walk_eq_ok_iff`), and fails along
them for want of links only (`Walks.walk_eq`).

`Looks t loc here steps` says that on the way along the steps, wherever it may end, one looks what
stands at `loc`. Besides the directories this is all that a walk depends on (`Disk.walk_congr`).

* Walks are put together and taken apart (`Walks.append`, `Walks.of_append`).
* A walk that does not end at a file meets directories and links only (`Walks.notFile`). So it is
  the same in every tree that keeps these (`Walks.keeps`), and no tree makes more to look at than
  one that keeps its directories and links (`Looks.of_keeps`).
* Where a file takes the place of something looked at, no walk leads to a directory any more
  (`Looks.blocked`). A link looked at on the way to a directory leads to a directory itself
  (`Looks.link_leads`).
-/

namespace ReleaseCut

/-- The steps lead from a location to another. A step enters what is no link and follows what is
one. -/
inductive Walks (t : FileTree) : Location → List String → (links : Nat) → Location → Prop
  /-- No step is left. -/
  | done (here : Location) : Walks t here [] 0 here
  /-- A dot stays in a directory. -/
  | dot {here loc : Location} {rest : List String} {links : Nat}
      (hdir : t.get? here = some .directory) :
      Walks t here rest links loc → Walks t here ("." :: rest) links loc
  /-- Two dots leave a directory. -/
  | up {here loc : Location} {rest : List String} {links : Nat}
      (hdir : t.get? here = some .directory) :
      Walks t here.tail rest links loc → Walks t here (".." :: rest) links loc
  /-- A name enters what has it. -/
  | enter {here loc : Location} {step : String} {rest : List String} {e : Entry} {links : Nat}
      (hdir : t.get? here = some .directory) (hdot : step ≠ ".") (hup : step ≠ "..")
      (hget : t.get? (step :: here) = some e) (hlink : ∀ target, e ≠ .link target) :
      Walks t (step :: here) rest links loc → Walks t here (step :: rest) links loc
  /-- The name of a link leads where the link does. -/
  | follow {here loc : Location} {step : String} {rest : List String} {target : Path} {links : Nat}
      (hdir : t.get? here = some .directory) (hdot : step ≠ ".") (hup : step ≠ "..")
      (hget : t.get? (step :: here) = some (.link target)) :
      Walks t (if target.isAbsolute then [] else here) (target.steps ++ rest) links loc →
      Walks t here (step :: rest) (links + 1) loc

/-- On the way along the steps one looks what stands at a location. -/
inductive Looks (t : FileTree) (loc : Location) : Location → List String → Prop
  /-- The next step is a name of the location. -/
  | now {here : Location} {step : String} {rest : List String}
      (hdir : t.get? here = some .directory) (hdot : step ≠ ".") (hup : step ≠ "..")
      (hloc : step :: here = loc) : Looks t loc here (step :: rest)
  /-- After a dot. -/
  | dot {here : Location} {rest : List String} (hdir : t.get? here = some .directory) :
      Looks t loc here rest → Looks t loc here ("." :: rest)
  /-- After two dots. -/
  | up {here : Location} {rest : List String} (hdir : t.get? here = some .directory) :
      Looks t loc here.tail rest → Looks t loc here (".." :: rest)
  /-- Behind what has a name. -/
  | enter {here : Location} {step : String} {rest : List String} {e : Entry}
      (hdir : t.get? here = some .directory) (hdot : step ≠ ".") (hup : step ≠ "..")
      (hget : t.get? (step :: here) = some e) (hlink : ∀ target, e ≠ .link target) :
      Looks t loc (step :: here) rest → Looks t loc here (step :: rest)
  /-- Along a link and behind it. -/
  | follow {here : Location} {step : String} {rest : List String} {target : Path}
      (hdir : t.get? here = some .directory) (hdot : step ≠ ".") (hup : step ≠ "..")
      (hget : t.get? (step :: here) = some (.link target)) :
      Looks t loc (if target.isAbsolute then [] else here) (target.steps ++ rest) →
      Looks t loc here (step :: rest)

/-- What is no file in one tree is the same in the other. -/
def FileTree.Keeps (t t' : FileTree) : Prop :=
  ∀ loc e, t.get? loc = some e → (∀ content, e ≠ .file content) → t'.get? loc = some e

/-- Whatever stands in something stands in a directory. -/
def FileTree.IsRooted (t : FileTree) : Prop :=
  ∀ name parent e, t.get? (name :: parent) = some e → t.get? parent = some .directory

/-- Two dots lead from a directory to a directory. -/
theorem FileTree.IsRooted.tail {t : FileTree} {loc : Location} (h : t.IsRooted)
    (hdir : t.get? loc = some .directory) : t.get? loc.tail = some .directory := by
  cases loc with
  | nil => rfl
  | cons name parent => exact h name parent _ hdir

/-! ### The function and the relations -/

section Function

open Disk (walk walkWith)

variable {t t' : FileTree} {here loc : Location} {steps : List String} {links : Nat}

/-- What `Disk.walk` does at a link. -/
private def atLink (t : FileTree) : Nat → Location → List String → Except IoError Location
  | 0 => fun _ _ => .error .tooManyLinks
  | links + 1 => walk t true links

private theorem walk_def (t : FileTree) (links : Nat) :
    walk t true links = walkWith t true (atLink t links) := by
  cases links <;> rfl

/-- If links lead along walks, then so do steps. -/
private theorem walks_of_walkWith {follow : Location → List String → Except IoError Location}
    (hfollow : ∀ here steps loc, follow here steps = .ok loc →
      ∃ k < links, Walks t here steps k loc)
    (h : walkWith t true follow here steps = .ok loc) : ∃ k ≤ links, Walks t here steps k loc := by
  induction steps generalizing here with
  | nil =>
    obtain rfl : here = loc := by simpa [walkWith] using h
    exact ⟨0, Nat.zero_le _, .done here⟩
  | cons step rest ih =>
    rw [walkWith] at h
    split at h
    · cases h
    · next hdir =>
      have hdir : t.get? here = some .directory := by simpa using hdir
      split at h
      · next hdot =>
        obtain ⟨k, hk, w⟩ := ih h
        exact ⟨k, hk, hdot ▸ w.dot hdir⟩
      · next hdot =>
        split at h
        · next hup =>
          obtain ⟨k, hk, w⟩ := ih h
          exact ⟨k, hk, hup ▸ w.up hdir⟩
        · next hup =>
          split at h
          · cases h
          · next target hget =>
            rw [Bool.true_or, if_pos rfl] at h
            obtain ⟨k, hk, w⟩ := hfollow _ _ _ h
            exact ⟨k + 1, hk, w.follow hdir hdot hup hget⟩
          · next e hlink hget =>
            obtain ⟨k, hk, w⟩ := ih h
            exact ⟨k, hk, w.enter hdir hdot hup hget fun target he => hlink target he⟩

/-- Along a walk all goes well while links are left. -/
theorem Walks.walk_eq {k : Nat} (w : Walks t here steps k loc) (links : Nat) :
    walk t true links here steps = if k ≤ links then .ok loc else .error .tooManyLinks := by
  induction w generalizing links with
  | done => simp [walk_def, walkWith]
  | dot hdir _ ih =>
    rw [walk_def, walkWith, if_neg (by simp [hdir]), if_pos rfl, ← walk_def]
    exact ih links
  | up hdir _ ih =>
    rw [walk_def, walkWith, if_neg (by simp [hdir]), if_neg (by decide), if_pos rfl, ← walk_def]
    exact ih links
  | @enter here loc step rest e k hdir hdot hup hget hlink _ ih =>
    rw [walk_def, walkWith, if_neg (by simp [hdir]), if_neg hdot, if_neg hup, hget]
    cases e with
    | link target => exact absurd rfl (hlink target)
    | file content => exact walk_def t links ▸ ih links
    | directory => exact walk_def t links ▸ ih links
  | follow hdir hdot hup hget _ ih =>
    rw [walk_def, walkWith, if_neg (by simp [hdir]), if_neg hdot, if_neg hup, hget]
    cases links with
    | zero => rfl
    | succ links => simpa [atLink] using ih links

/-- The steps that `Disk.walk` can take are those of a walk through few enough links. -/
theorem Disk.walk_eq_ok_iff :
    walk t true links here steps = .ok loc ↔ ∃ k ≤ links, Walks t here steps k loc := by
  constructor
  · intro h
    induction links generalizing here steps loc with
    | zero =>
      rw [walk_def] at h
      exact walks_of_walkWith (fun _ _ _ h => by cases h) h
    | succ links ih =>
      rw [walk_def] at h
      refine walks_of_walkWith (fun here steps loc h => ?_) h
      obtain ⟨k, hk, w⟩ := ih h
      exact ⟨k, Nat.lt_succ_of_le hk, w⟩
  · rintro ⟨k, hk, w⟩
    rw [w.walk_eq, if_pos hk]

/-- If links lead the same way in both trees, then so do steps. -/
private theorem walkWith_congr {follow follow' : Location → List String → Except IoError Location}
    (hdirs : ∀ l, t'.get? l = some .directory ↔ t.get? l = some .directory)
    (hfollow : ∀ here steps, (∀ l, Looks t l here steps → t'.get? l = t.get? l) →
      follow' here steps = follow here steps)
    (hsame : ∀ l, Looks t l here steps → t'.get? l = t.get? l) :
    walkWith t' true follow' here steps = walkWith t true follow here steps := by
  induction steps generalizing here with
  | nil => rfl
  | cons step rest ih =>
    by_cases hdir : t.get? here = some .directory
    · by_cases hdot : step = "."
      · have hrest := ih fun l hl => hsame l (hdot ▸ hl.dot hdir)
        simpa [walkWith, hdirs, hdir, hdot] using hrest
      · by_cases hup : step = ".."
        · have hrest := ih fun l hl => hsame l (hup ▸ hl.up hdir)
          simpa [walkWith, hdirs, hdir, hup] using hrest
        · have hstep := hsame _ (.now hdir hdot hup rfl)
          simp only [walkWith, hdirs, hdir, hdot, hup, hstep, ne_eq, not_true_eq_false, if_false]
          cases hget : t.get? (step :: here) with
          | none => rfl
          | some e =>
            cases e with
            | link target =>
              simpa using hfollow _ _ fun l hl => hsame l (hl.follow hdir hdot hup hget)
            | file content => exact ih fun l hl => hsame l (hl.enter hdir hdot hup hget (by simp))
            | directory => exact ih fun l hl => hsame l (hl.enter hdir hdot hup hget (by simp))
    · simp [walkWith, hdirs, hdir]

/-- What comes of walking depends on the directories and on what is looked at. -/
theorem Disk.walk_congr (hdirs : ∀ l, t'.get? l = some .directory ↔ t.get? l = some .directory)
    (hsame : ∀ l, Looks t l here steps → t'.get? l = t.get? l) :
    walk t' true links here steps = walk t true links here steps := by
  induction links generalizing here steps with
  | zero => exact walkWith_congr hdirs (fun _ _ _ => rfl) hsame
  | succ links ih => exact walkWith_congr hdirs (fun _ _ => ih) hsame

end Function

namespace Walks

variable {t t' : FileTree} {here mid loc loc' : Location} {steps rest : List String}
  {links links' : Nat}

/-! ### Longer and shorter walks -/

theorem append (w : Walks t here steps links mid) (w' : Walks t mid rest links' loc) :
    Walks t here (steps ++ rest) (links + links') loc := by
  induction w with
  | done => simpa using w'
  | dot hdir _ ih => exact (ih w').dot hdir
  | up hdir _ ih => exact (ih w').up hdir
  | enter hdir hdot hup hget hlink _ ih => exact (ih w').enter hdir hdot hup hget hlink
  | follow hdir hdot hup hget _ ih =>
    have w'' := ih w'
    rw [List.append_assoc] at w''
    exact Nat.add_right_comm .. ▸ w''.follow hdir hdot hup hget

/-- No steps and others. -/
private theorem of_nil_append (w : Walks t here steps links loc) (hsteps : [] ++ rest = steps) :
    ∃ mid k k', Walks t here [] k mid ∧ Walks t mid rest k' loc ∧ links = k + k' := by
  obtain rfl : rest = steps := hsteps
  exact ⟨here, 0, links, .done here, w, (Nat.zero_add _).symm⟩

/-- A walk along two lists of steps passes a location in between. -/
theorem of_append (w : Walks t here (steps ++ rest) links loc) :
    ∃ mid k k', Walks t here steps k mid ∧ Walks t mid rest k' loc ∧ links = k + k' := by
  generalize hall : steps ++ rest = all at w
  induction w generalizing steps with
  | done here =>
    obtain ⟨rfl, rfl⟩ := List.append_eq_nil_iff.1 hall
    exact of_nil_append (.done here) rfl
  | dot hdir w ih =>
    cases steps with
    | nil => exact of_nil_append (w.dot hdir) hall
    | cons step steps =>
      simp only [List.cons_append, List.cons.injEq] at hall
      obtain ⟨rfl, hall⟩ := hall
      obtain ⟨mid, k, k', w₁, w₂, hk⟩ := ih hall
      exact ⟨mid, k, k', w₁.dot hdir, w₂, hk⟩
  | up hdir w ih =>
    cases steps with
    | nil => exact of_nil_append (w.up hdir) hall
    | cons step steps =>
      simp only [List.cons_append, List.cons.injEq] at hall
      obtain ⟨rfl, hall⟩ := hall
      obtain ⟨mid, k, k', w₁, w₂, hk⟩ := ih hall
      exact ⟨mid, k, k', w₁.up hdir, w₂, hk⟩
  | enter hdir hdot hup hget hlink w ih =>
    cases steps with
    | nil => exact of_nil_append (w.enter hdir hdot hup hget hlink) hall
    | cons step steps =>
      simp only [List.cons_append, List.cons.injEq] at hall
      obtain ⟨rfl, hall⟩ := hall
      obtain ⟨mid, k, k', w₁, w₂, hk⟩ := ih hall
      exact ⟨mid, k, k', w₁.enter hdir hdot hup hget hlink, w₂, hk⟩
  | follow hdir hdot hup hget w ih =>
    cases steps with
    | nil => exact of_nil_append (w.follow hdir hdot hup hget) hall
    | cons step steps =>
      simp only [List.cons_append, List.cons.injEq] at hall
      obtain ⟨rfl, rfl⟩ := hall
      obtain ⟨mid, k, k', w₁, w₂, hk⟩ := ih (List.append_assoc ..)
      refine ⟨mid, k + 1, k', w₁.follow hdir hdot hup hget, w₂, ?_⟩
      omega

theorem of_dot (w : Walks t here ("." :: rest) links loc) :
    t.get? here = some .directory ∧ Walks t here rest links loc := by
  generalize hsteps : "." :: rest = steps at w
  cases w with
  | dot hdir w => cases hsteps; exact ⟨hdir, w⟩
  | enter _ hdot => cases hsteps; exact absurd rfl hdot
  | follow _ hdot => cases hsteps; exact absurd rfl hdot
  | done | up => simp at hsteps

/-- Dots lead nowhere. -/
theorem of_dots {n : Nat} (w : Walks t here (List.replicate n ".") links loc) :
    loc = here ∧ links = 0 := by
  induction n with
  | zero =>
    cases w
    exact ⟨rfl, rfl⟩
  | succ n ih => exact ih w.of_dot.2

theorem of_up (w : Walks t here (".." :: rest) links loc) :
    t.get? here = some .directory ∧ Walks t here.tail rest links loc := by
  generalize hsteps : ".." :: rest = steps at w
  cases w with
  | up hdir w => cases hsteps; exact ⟨hdir, w⟩
  | enter _ _ hup => cases hsteps; exact absurd rfl hup
  | follow _ _ hup => cases hsteps; exact absurd rfl hup
  | done | dot => simp at hsteps

theorem of_enter {step : String} {e : Entry} (w : Walks t here (step :: rest) links loc)
    (hdot : step ≠ ".") (hup : step ≠ "..") (hget : t.get? (step :: here) = some e)
    (hlink : ∀ target, e ≠ .link target) : Walks t (step :: here) rest links loc := by
  cases w with
  | dot => exact absurd rfl hdot
  | up => exact absurd rfl hup
  | enter _ _ _ _ _ w => exact w
  | follow _ _ _ hget' => exact absurd (Option.some.inj (hget.symm.trans hget')) (hlink _)

theorem of_follow {step : String} {target : Path} (w : Walks t here (step :: rest) links loc)
    (hdot : step ≠ ".") (hup : step ≠ "..") (hget : t.get? (step :: here) = some (.link target)) :
    ∃ k, Walks t (if target.isAbsolute then [] else here) (target.steps ++ rest) k loc := by
  cases w with
  | dot => exact absurd rfl hdot
  | up => exact absurd rfl hup
  | enter _ _ _ hget' hlink => exact absurd (Option.some.inj (hget'.symm.trans hget)) (hlink _)
  | follow _ _ _ hget' w =>
    cases hget.symm.trans hget'
    exact ⟨_, w⟩

/-! ### Where a walk ends -/

/-- From a file no step leads on. -/
theorem eq_of_notDirectory (w : Walks t here steps links loc)
    (hdir : t.get? here ≠ some .directory) : loc = here := by
  cases w with
  | done => rfl
  | dot h | up h | enter h | follow h => exact absurd h hdir

/-- The next step of a walk is taken in a directory. -/
theorem directory_of_cons {step : String} (w : Walks t here (step :: rest) links loc) :
    t.get? here = some .directory := by
  cases w with
  | dot h | up h | enter h | follow h => exact h

/-- On the way to a directory nothing is left but directories. -/
theorem directory_of_directory (w : Walks t here steps links loc)
    (hloc : t.get? loc = some .directory) : t.get? here = some .directory := by
  by_cases hdir : t.get? here = some .directory
  · exact hdir
  · rwa [← w.eq_of_notDirectory hdir]

/-- A walk from a directory looks at where it ends, unless that is a directory. -/
theorem looks (w : Walks t here steps links loc) (hhere : t.get? here = some .directory)
    (hrooted : t.IsRooted) (hloc : t.get? loc ≠ some .directory) : Looks t loc here steps := by
  induction w with
  | done => exact absurd hhere hloc
  | dot hdir _ ih => exact (ih hdir hloc).dot hdir
  | up hdir _ ih => exact (ih (hrooted.tail hdir) hloc).up hdir
  | @enter here loc step rest e links hdir hdot hup hget hlink w ih =>
    by_cases hstep : t.get? (step :: here) = some .directory
    · exact (ih hstep hloc).enter hdir hdot hup hget hlink
    · exact .now hdir hdot hup (w.eq_of_notDirectory hstep).symm
  | @follow here loc step rest target links hdir hdot hup hget w ih =>
    refine (ih ?_ hloc).follow hdir hdot hup hget
    split
    · rfl
    · exact hdir

/-! ### What a walk depends on -/

/-- A walk depends on the directories and on what is looked at. -/
theorem congr (w : Walks t here steps links loc)
    (hdirs : ∀ l, t.get? l = some .directory → t'.get? l = some .directory)
    (hsame : ∀ l, Looks t l here steps → t'.get? l = t.get? l) : Walks t' here steps links loc := by
  induction w with
  | done here => exact .done here
  | dot hdir _ ih => exact (ih fun l hl => hsame l (hl.dot hdir)).dot (hdirs _ hdir)
  | up hdir _ ih => exact (ih fun l hl => hsame l (hl.up hdir)).up (hdirs _ hdir)
  | enter hdir hdot hup hget hlink _ ih =>
    have hget' := (hsame _ (.now hdir hdot hup rfl)).trans hget
    exact (ih fun l hl => hsame l (hl.enter hdir hdot hup hget hlink)).enter (hdirs _ hdir) hdot hup
      hget' hlink
  | follow hdir hdot hup hget _ ih =>
    have hget' := (hsame _ (.now hdir hdot hup rfl)).trans hget
    exact (ih fun l hl => hsame l (hl.follow hdir hdot hup hget)).follow (hdirs _ hdir) hdot hup
      hget'

/-- A walk that does not end at a file meets directories and links only. -/
theorem notFile {l : Location} (w : Walks t here steps links loc)
    (hloc : ∀ content, t.get? loc ≠ some (.file content)) (hl : Looks t l here steps) :
    ∃ e, t.get? l = some e ∧ ∀ content, e ≠ .file content := by
  induction hl generalizing links with
  | now hdir hdot hup hstep =>
    subst hstep
    cases w with
    | dot => exact absurd rfl hdot
    | up => exact absurd rfl hup
    | @enter _ _ _ _ e _ _ _ _ hget _ w =>
      refine ⟨e, hget, ?_⟩
      rintro content rfl
      exact hloc content (w.eq_of_notDirectory (by simp [hget]) ▸ hget)
    | follow _ _ _ hget => exact ⟨_, hget, by simp⟩
  | dot _ _ ih => exact ih w.of_dot.2
  | up _ _ ih => exact ih w.of_up.2
  | enter _ hdot hup hget hlink _ ih => exact ih (w.of_enter hdot hup hget hlink)
  | follow _ hdot hup hget _ ih =>
    obtain ⟨k, w⟩ := w.of_follow hdot hup hget
    exact ih w

/-- In a tree that keeps all that is no file, a walk that does not end at a file is the same. -/
theorem keeps (w : Walks t here steps links loc)
    (hloc : ∀ content, t.get? loc ≠ some (.file content)) (hkeeps : t.Keeps t') :
    Walks t' here steps links loc := by
  refine w.congr (fun l hl => hkeeps l _ hl (by simp)) fun l hl => ?_
  obtain ⟨e, he, hfile⟩ := w.notFile hloc hl
  rw [he, hkeeps l e he hfile]

end Walks

/-! ### What is looked at -/

namespace Looks

variable {t t' : FileTree} {here loc x : Location} {steps rest : List String} {links : Nat}

/-- Files give nothing more to look at. -/
theorem of_keeps (h : Looks t' x here steps) (hkeeps : t'.Keeps t) : Looks t x here steps := by
  have hdirs : ∀ l, t'.get? l = some .directory → t.get? l = some .directory :=
    fun l hl => hkeeps l _ hl (by simp)
  induction h with
  | now hdir hdot hup hstep => exact .now (hdirs _ hdir) hdot hup hstep
  | dot hdir _ ih => exact ih.dot (hdirs _ hdir)
  | up hdir _ ih => exact ih.up (hdirs _ hdir)
  | @enter here step rest e hdir hdot hup hget hlink h ih =>
    -- one looks further behind a directory only
    have hstep : t'.get? (step :: here) = some .directory := by
      cases h <;> assumption
    exact ih.enter (hdirs _ hdir) hdot hup (hdirs _ hstep) (by simp)
  | follow hdir hdot hup hget _ ih =>
    exact ih.follow (hdirs _ hdir) hdot hup (hkeeps _ _ hget (by simp))

/-- Where a file stands in place of something looked at, no walk leads to a directory. -/
theorem blocked {content : ByteArray} (h : Looks t x here steps)
    (hfile : t'.get? x = some (.file content))
    (hsame : ∀ l, Looks t l here steps → l ≠ x → t'.get? l = t.get? l)
    (w : Walks t' here steps links loc) : t'.get? loc ≠ some .directory := by
  -- behind the file there is no way on
  have hend : ∀ {here step rest k}, step ≠ "." → step ≠ ".." → step :: here = x →
      Walks t' here (step :: rest) k loc → t'.get? loc ≠ some .directory := by
    rintro here step rest k hdot hup rfl w
    rw [(w.of_enter hdot hup hfile (by simp)).eq_of_notDirectory (by simp [hfile]), hfile]
    simp
  induction h generalizing links with
  | now hdir hdot hup hstep => exact hend hdot hup hstep w
  | dot hdir _ ih => exact ih (fun l hl => hsame l (hl.dot hdir)) w.of_dot.2
  | up hdir _ ih => exact ih (fun l hl => hsame l (hl.up hdir)) w.of_up.2
  | @enter here step rest e hdir hdot hup hget hlink _ ih =>
    by_cases hstep : step :: here = x
    · exact hend hdot hup hstep w
    · have hget' := (hsame _ (.now hdir hdot hup rfl) hstep).trans hget
      have hrest := w.of_enter hdot hup hget' hlink
      exact ih (fun l hl => hsame l (hl.enter hdir hdot hup hget hlink)) hrest
  | @follow here step rest target hdir hdot hup hget _ ih =>
    by_cases hstep : step :: here = x
    · exact hend hdot hup hstep w
    · have hget' := (hsame _ (.now hdir hdot hup rfl) hstep).trans hget
      obtain ⟨k, w⟩ := w.of_follow hdot hup hget'
      exact ih (fun l hl => hsame l (hl.follow hdir hdot hup hget)) w

/-- A link looked at on the way to a directory leads to a directory. -/
theorem link_leads {name : String} {parent : Location} {target : Path}
    (h : Looks t (name :: parent) here steps) (w : Walks t here steps links loc)
    (hloc : t.get? loc = some .directory) (hget : t.get? (name :: parent) = some (.link target)) :
    ∃ k mid, Walks t (if target.isAbsolute then [] else parent) target.steps k mid ∧
      t.get? mid = some .directory := by
  induction h generalizing links with
  | now hdir hdot hup hstep =>
    obtain ⟨rfl, rfl⟩ := List.cons.inj hstep
    obtain ⟨k, w⟩ := w.of_follow hdot hup hget
    -- the walk goes along the target first
    obtain ⟨mid, k₁, k₂, w₁, w₂, -⟩ := w.of_append
    exact ⟨k₁, mid, w₁, w₂.directory_of_directory hloc⟩
  | dot _ _ ih => exact ih w.of_dot.2
  | up _ _ ih => exact ih w.of_up.2
  | enter _ hdot hup hget hlink _ ih => exact ih (w.of_enter hdot hup hget hlink)
  | follow _ hdot hup hget _ ih =>
    obtain ⟨k, w⟩ := w.of_follow hdot hup hget
    exact ih w

end Looks

end ReleaseCut
