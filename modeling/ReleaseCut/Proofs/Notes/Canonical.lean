import ReleaseCut.Notes.Markdown
import ReleaseCut.Proofs.Notes.Groups

/-!
# Release notes and the order of the commits

An absent scope and an empty one read the same, so entries that differ in nothing else rank equal,
and sorting leaves them in the order of their commits (`Notes.Entry.filter_mergeSort`). Two
statements are to be kept apart:

* The groups are the same for every order of the commits exactly if no entry without a scope stands
  beside one that has the empty scope and is equal otherwise. In any case they are the same up to
  that difference (`Notes.groupsOf_perm_iff`).
* The text is the same for every order of the commits, be scopes absent or empty
  (`Notes.render_eq_of_perm`).
-/

namespace ReleaseCut

/-- The commit with the empty scope in place of an absent one. -/
def Commit.withScope (c : Commit) : Commit :=
  { c with scope := some (c.scope.getD "") }

namespace Notes

/-! ### Entries that rank equal -/

namespace Entry

/-- **Entries of one rank keep their order** when they are sorted. -/
theorem filter_mergeSort (e : Entry) (es : List Entry) :
    (es.mergeSort mayPrecede).filter (e.compare · == .eq) = es.filter (e.compare · == .eq) := by
  have htied : (es.filter (e.compare · == .eq)).Pairwise (·.mayPrecede · = true) := by
    refine List.pairwise_of_forall_mem_list fun a ha b hb => ?_
    have hea : e.compare a = .eq := by simpa using (List.mem_filter.1 ha).2
    have heb : e.compare b = .eq := by simpa using (List.mem_filter.1 hb).2
    rw [mayPrecede, Std.TransCmp.congr_left (Std.OrientedCmp.eq_symm hea), heb]
    rfl
  have hsub : (es.filter (e.compare · == .eq)).Sublist (es.mergeSort mayPrecede) := by
    refine List.sublist_mergeSort (fun a b c hab hbc => ?_) mayPrecede_total htied
      List.filter_sublist
    exact mayPrecede_trans hab hbc
  have hboth := hsub.filter (e.compare · == .eq)
  rw [List.filter_filter] at hboth
  simp only [Bool.and_self] at hboth
  exact (hboth.eq_of_length ((List.mergeSort_perm es _).filter _).length_eq.symm).symm

end Entry

/-- Exchanging the first two commits changes the groups, if their entries differ but stand under one
heading and rank equal. -/
theorem groupsOf_swap_ne {c d : Commit} {a b : Entry} (ha : Entry.ofCommit? c = some a)
    (hb : Entry.ofCommit? d = some b) (hheading : b.heading = a.heading)
    (hrank : a.compare b = .eq) (hne : a ≠ b) (cs : List Commit) (order : List Section) :
    groupsOf (c :: d :: cs) order ≠ groupsOf (d :: c :: cs) order := by
  intro h
  have hself : a.compare a = .eq := Std.ReflCmp.compare_self
  have hsorted := congrArg (List.filter (a.compare · == .eq)) (groupsOf_eq_iff.1 h a.heading)
  rw [Entry.filter_mergeSort, Entry.filter_mergeSort] at hsorted
  simp only [entriesOf, underHeading, List.filterMap_cons, ha, hb, hheading, List.filter_cons,
    hself, hrank, beq_self_eq_true, ↓reduceIte, List.cons.injEq] at hsorted
  exact hne hsorted.1

/-! ### Absent and empty scopes -/

/-- The entry with the empty scope in place of an absent one. -/
def Entry.withScope (e : Entry) : Entry :=
  { e with scope := some e.scopeText }

/-- The group with the empty scope in place of absent ones. -/
def Group.withScope (g : Group) : Group :=
  { g with entries := g.entries.map Entry.withScope }

/-- Entries of one section that rank equal are equal up to absent and empty scopes. -/
theorem Entry.eq_or_eq_withScope {a b : Entry} (hrank : a.compare b = .eq)
    (hheading : a.heading = b.heading) :
    a = b ∨ (a.scope = none ∧ b = a.withScope) ∨ (b.scope = none ∧ a = b.withScope) := by
  cases ha : a.scope with
  | none => cases hb : b.scope with
    | none => exact .inl (eq_of_compare_eq hrank hheading (by rw [ha, hb]))
    | some t =>
      have htwin : a.withScope = b := eq_of_compare_eq hrank hheading (by rw [hb]; rfl)
      exact .inr (.inl ⟨rfl, htwin.symm⟩)
  | some s => cases hb : b.scope with
    | none =>
      have htwin : a = b.withScope := eq_of_compare_eq hrank hheading (by rw [ha]; rfl)
      exact .inr (.inr ⟨rfl, htwin⟩)
    | some t => exact .inl (eq_of_compare_eq hrank hheading (by rw [ha, hb]; rfl))

theorem Entry.ofCommit?_withScope (c : Commit) :
    ofCommit? c.withScope = (ofCommit? c).map withScope := by
  rw [ofCommit?, ofCommit?, Option.map_map]
  rfl

theorem entriesOf_map_withScope (cs : List Commit) :
    entriesOf (cs.map Commit.withScope) = (entriesOf cs).map Entry.withScope := by
  rw [entriesOf, entriesOf, List.filterMap_map, List.map_filterMap]
  exact List.filterMap_congr fun c _ => Entry.ofCommit?_withScope c

/-- The groups are made alike, whether scopes are absent or empty. -/
theorem groupsOf_map_withScope (cs : List Commit) (order : List Section) :
    groupsOf (cs.map Commit.withScope) order = (groupsOf cs order).map Group.withScope := by
  have hunder : ∀ s, underHeading ((entriesOf cs).map Entry.withScope) s =
      (underHeading (entriesOf cs) s).map Entry.withScope := by
    intro s
    rw [underHeading, underHeading, List.filter_map]
    rfl
  have hsorted : ∀ es : List Entry, (es.map Entry.withScope).mergeSort Entry.mayPrecede =
      (es.mergeSort Entry.mayPrecede).map Entry.withScope :=
    -- the order only looks at the text of scopes
    fun es => (List.map_mergeSort (f := Entry.withScope) fun a _ b _ => rfl).symm
  rw [groupsOf, groupsOf, ← entriesOf, ← entriesOf, entriesOf_map_withScope, List.map_filterMap]
  refine List.filterMap_congr fun s _ => ?_
  rw [group?_eq, group?_eq, hunder, hsorted]
  by_cases hnil : underHeading (entriesOf cs) s = []
  · simp [hnil]
  · simp [hnil, Group.withScope]

/-- The groups are the same up to absent and empty scopes, if the commits are. -/
theorem groupsOf_withScope_eq_of_perm {xs ys : List Commit} {order : List Section}
    (h : (xs.map Commit.withScope).Perm (ys.map Commit.withScope)) :
    (groupsOf xs order).map Group.withScope = (groupsOf ys order).map Group.withScope := by
  rw [← groupsOf_map_withScope, ← groupsOf_map_withScope]
  -- where all scopes are present, only equal entries of a section rank equal
  refine groupsOf_eq_of_perm (h.filterMap _) fun a ha b hb hheading hrank => ?_
  rw [entriesOf_map_withScope] at ha hb
  obtain ⟨_, -, rfl⟩ := List.mem_map.1 ha
  obtain ⟨_, -, rfl⟩ := List.mem_map.1 hb
  exact Entry.eq_of_compare_eq hrank hheading rfl

/-- **When the groups do not depend on the order of the commits.** They are always the same up to
absent and empty scopes. They are the same altogether exactly if no entry without a scope stands
beside one that has the empty scope and is equal otherwise. -/
theorem groupsOf_perm_iff (cs : List Commit) (order : List Section) :
    (∀ cs', cs'.Perm cs →
      (groupsOf cs' order).map Group.withScope = (groupsOf cs order).map Group.withScope) ∧
    ((∀ cs', cs'.Perm cs → groupsOf cs' order = groupsOf cs order) ↔
      ∀ e ∈ entriesOf cs, e.scope = none → e.withScope ∉ entriesOf cs) := by
  refine ⟨fun cs' h => groupsOf_withScope_eq_of_perm (h.map _), fun hall e he hscope htwin => ?_,
    fun htwins cs' h => ?_⟩
  · obtain ⟨c, hc, hce⟩ := List.mem_filterMap.1 he
    obtain ⟨d, hd, hde⟩ := List.mem_filterMap.1 htwin
    have hne : e ≠ e.withScope := fun heq => by
      rw [heq] at hscope
      exact Option.some_ne_none _ hscope
    have hdc : d ∈ cs.erase c := (List.mem_erase_of_ne (by rintro rfl; simp_all)).2 hd
    -- with the two commits in front, only one of their two orders can make these groups
    have hperm : cs.Perm (c :: d :: (cs.erase c).erase d) :=
      (List.perm_cons_erase hc).trans ((List.perm_cons_erase hdc).cons c)
    have hrank : e.compare e.withScope = .eq := Entry.compare_eq_iff.2 ⟨rfl, rfl, rfl⟩
    refine groupsOf_swap_ne hce hde rfl hrank hne ((cs.erase c).erase d) order ?_
    rw [hall _ hperm.symm, hall _ ((List.Perm.swap c d _).trans hperm.symm)]
  · refine groupsOf_eq_of_perm (h.filterMap _) fun a ha b hb hheading hrank => ?_
    have ha' : a ∈ entriesOf cs := (h.filterMap _).mem_iff.1 ha
    have hb' : b ∈ entriesOf cs := (h.filterMap _).mem_iff.1 hb
    rcases Entry.eq_or_eq_withScope hrank hheading with heq | ⟨hscope, rfl⟩ | ⟨hscope, rfl⟩
    · exact heq
    · exact absurd hb' (htwins a ha' hscope)
    · exact absurd ha' (htwins b hb' hscope)

/-- A feature without a scope. -/
def unscopedFeature : Commit := ⟨"✨ x", "✨", "x", none, "abc"⟩

/-- A feature and its twin with the empty scope are listed in the order in which they are given. -/
theorem groupsOf_twins_ne :
    [unscopedFeature.withScope, unscopedFeature].Perm
      [unscopedFeature, unscopedFeature.withScope] ∧
    groupsOf [unscopedFeature.withScope, unscopedFeature] Section.all ≠
      groupsOf [unscopedFeature, unscopedFeature.withScope] Section.all := by
  have hentry : Entry.ofCommit? unscopedFeature = some ⟨.features, none, "x", "abc"⟩ := rfl
  have htwin : Entry.ofCommit? unscopedFeature.withScope =
      some ⟨.features, some "", "x", "abc"⟩ := rfl
  exact ⟨.swap _ _ _, groupsOf_swap_ne htwin hentry rfl rfl (by decide) [] Section.all⟩

/-! ### The text -/

theorem Group.render_withScope (g : Group) : g.withScope.render = g.render := by
  rw [render, render, withScope, List.map_map]
  rfl

/-- **The text of release notes is canonical.** It is the same for every order of the commits, be
their scopes absent or empty. -/
theorem render_eq_of_perm {xs ys : List Commit}
    (h : (xs.map Commit.withScope).Perm (ys.map Commit.withScope))
    (v : Version) (d : Date) (order : List Section) :
    (Notes.mk v d (groupsOf xs order)).render = (Notes.mk v d (groupsOf ys order)).render := by
  have hgroups : ∀ cs, (groupsOf cs order).map Group.render =
      ((groupsOf cs order).map Group.withScope).map Group.render := by
    intro cs
    rw [List.map_map]
    exact List.map_congr_left fun g _ => g.render_withScope.symm
  simp only [render, hgroups, groupsOf_withScope_eq_of_perm h]
  rfl

/-- A fix with a scope. -/
def scopedFix : Commit := ⟨"🐛 y", "🐛", "y", some "ui", "def"⟩

/-- A day in summer. -/
def midsummer : Date := ⟨2025, 6, 24, by decide, by decide, by decide, by decide⟩

/-- Notes on a fix and a feature, in another order and with the empty scope in place of none. -/
theorem render_swapped_features :
    ([unscopedFeature.withScope, scopedFix].map Commit.withScope).Perm
      ([scopedFix, unscopedFeature].map Commit.withScope) ∧
    (Notes.mk (.release 1 0 0) midsummer
        (groupsOf [unscopedFeature.withScope, scopedFix] Section.all)).render =
      (Notes.mk (.release 1 0 0) midsummer
        (groupsOf [scopedFix, unscopedFeature] Section.all)).render := by
  have hperm : ([unscopedFeature.withScope, scopedFix].map Commit.withScope).Perm
      ([scopedFix, unscopedFeature].map Commit.withScope) := .swap _ _ _
  exact ⟨hperm, render_eq_of_perm hperm _ _ _⟩

end Notes

end ReleaseCut
