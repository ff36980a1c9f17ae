import ReleaseCut.Bytes
import ReleaseCut.FileTree.Path

/-!
# File trees

A file tree says what stands at each location: a file with its bytes, a directory or a symbolic
link.

* A location lists the names from the innermost to the outermost, so the tail of a location is the
  directory that holds it; the empty location is the top directory.
* `FileTree.get?` is the view: `put` and `erase` change it at one location and nowhere else
  (`get?_put`, `get?_erase`).
* `FileTree.children` lists a directory in the order of names.
* `FileTree.freshName` is a name that no entry of the tree has (`freshName_fresh`).
-/

namespace ReleaseCut

/-- A place in a file tree, as the names from the innermost to the outermost. -/
abbrev Location := List String

/-- What stands at a location. -/
inductive Entry where
  /-- A file with its bytes. -/
  | file (content : ByteArray)
  /-- A directory. -/
  | directory
  /-- A symbolic link. -/
  | link (target : Path)
  deriving DecidableEq

/-- Whether an entry is a file. -/
def Entry.isFile : Entry → Bool
  | .file _ => true
  | _ => false

/-- A tree of files, directories and symbolic links. -/
structure FileTree where
  /-- What stands where, except for the top directory. -/
  entries : List (Location × Entry)
  /-- At most one entry stands at each location. -/
  distinct : (entries.map Prod.fst).Nodup

namespace FileTree

/-- The tree of the top directory alone. -/
def empty : FileTree := ⟨[], List.nodup_nil⟩

/-- What stands at a location. -/
def get? (t : FileTree) : Location → Option Entry
  | [] => some .directory
  | loc => (t.entries.find? (·.1 == loc)).map Prod.snd

/-- Removes what stands at a location, but nothing below it. -/
def erase (t : FileTree) (loc : Location) : FileTree where
  entries := t.entries.filter (·.1 != loc)
  distinct := t.distinct.sublist (List.filter_sublist.map _)

/-- Removes what stands at a location and below it. -/
def eraseBelow (t : FileTree) (loc : Location) : FileTree where
  entries := t.entries.filter (!loc.isSuffixOf ·.1)
  distinct := t.distinct.sublist (List.filter_sublist.map _)

/-- Puts an entry at a location, in place of what stands there. -/
def put (t : FileTree) (loc : Location) (e : Entry) : FileTree where
  entries := (loc, e) :: (t.erase loc).entries
  distinct := by
    refine List.nodup_cons.2 ⟨?_, (t.erase loc).distinct⟩
    simp [erase]

/-- The entries of a directory by name, in the order of names. -/
def children (t : FileTree) (dir : Location) : List (String × Entry) :=
  let here := t.entries.filterMap fun
    | (name :: parent, e) => if parent = dir then some (name, e) else none
    | ([], _) => none
  here.mergeSort fun a b => a.1 ≤ b.1

/-- A name around `middle` with given ends, that no entry of the tree has: it is longer than each of
their names. -/
def freshName (t : FileTree) (start finish : String) : String :=
  let longest := (t.entries.map fun (loc, _) => (loc.headD "").length).foldr max 0
  start ++ String.ofList (List.replicate (longest + 1) 'x') ++ finish

/-! ### The view after a change -/

theorem get?_of_ne_nil (t : FileTree) {loc : Location} (h : loc ≠ []) :
    t.get? loc = (t.entries.find? (·.1 == loc)).map Prod.snd := by
  cases loc with
  | nil => exact absurd rfl h
  | cons n l => rfl

theorem get?_erase (t : FileTree) {loc : Location} (other : Location) (h : loc ≠ []) :
    (t.erase loc).get? other = if other = loc then none else t.get? other := by
  cases other with
  | nil => simp [get?, h.symm]
  | cons n l =>
    rw [get?_of_ne_nil _ (by simp), get?_of_ne_nil _ (by simp), erase, List.find?_filter]
    split
    · next he => simp [he]
    · next he =>
      congr 2
      funext x
      by_cases hx : x.1 = n :: l <;> simp_all

theorem get?_put (t : FileTree) {loc : Location} (e : Entry) (other : Location) (h : loc ≠ []) :
    (t.put loc e).get? other = if other = loc then some e else t.get? other := by
  cases other with
  | nil => simp [get?, h.symm]
  | cons n l =>
    rw [get?_of_ne_nil _ (by simp), put, List.find?_cons]
    by_cases he : loc = n :: l
    · simp [he]
    · have := get?_erase t (n :: l) h
      rw [get?_of_ne_nil _ (by simp), if_neg (Ne.symm he)] at this
      rw [beq_eq_false_iff_ne.2 he, if_neg (Ne.symm he)]
      exact this

/-- What is put at a location twice is there as it was put last. -/
theorem put_put (t : FileTree) (loc : Location) (e e' : Entry) :
    (t.put loc e).put loc e' = t.put loc e' := by
  have hfilter : ((loc, e) :: t.entries.filter (·.1 != loc)).filter (·.1 != loc) =
      t.entries.filter (·.1 != loc) := by
    rw [List.filter_cons_of_neg (by simp), List.filter_filter]
    simp only [Bool.and_self]
  simp only [put, erase, hfilter]

/-- Putting an entry where nothing stood and removing it again changes nothing. -/
theorem erase_put_of_get?_eq_none {t : FileTree} {loc : Location} (e : Entry)
    (h : t.get? loc = none) : (t.put loc e).erase loc = t := by
  have hne : loc ≠ [] := by rintro rfl; simp [get?] at h
  rw [get?_of_ne_nil _ hne] at h
  rw [Option.map_eq_none_iff, List.find?_eq_none] at h
  have hf : t.entries.filter (·.1 != loc) = t.entries :=
    List.filter_eq_self.2 fun x hx => by simpa using h x hx
  obtain ⟨entries, distinct⟩ := t
  simp only [erase, put, FileTree.mk.injEq] at hf ⊢
  rw [hf, List.filter_cons_of_neg (by simp), hf]

private theorem length_le_foldr_max {n : Nat} {ns : List Nat} (h : n ∈ ns) :
    n ≤ ns.foldr max 0 := by
  induction ns with
  | nil => simp at h
  | cons m ms ih =>
    rcases List.mem_cons.1 h with rfl | h
    · exact Nat.le_max_left ..
    · exact Nat.le_trans (ih h) (Nat.le_max_right ..)

/-- Nothing stands under a fresh name, in any directory. -/
theorem freshName_fresh (t : FileTree) (start finish : String) (dir : Location) :
    t.get? (t.freshName start finish :: dir) = none := by
  rw [get?_of_ne_nil _ (by simp), Option.map_eq_none_iff, List.find?_eq_none]
  rintro ⟨loc, e⟩ hmem heq
  have hloc : loc = t.freshName start finish :: dir := by simpa using heq
  have hle : (loc.headD "").length ≤
      (t.entries.map fun (loc, _) => (loc.headD "").length).foldr max 0 :=
    length_le_foldr_max (List.mem_map.2 ⟨(loc, e), hmem, rfl⟩)
  rw [hloc] at hle
  simp only [List.headD_cons, freshName, String.length_append, String.length_ofList,
    List.length_replicate] at hle
  omega

end FileTree

end ReleaseCut
