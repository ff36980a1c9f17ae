import ReleaseCut.Bump
import ReleaseCut.Proofs.Version.Text

/-!
# The order of versions

Identifiers, pre-release parts and versions are compared by what is decisive first. Written as such
a chain of comparisons, each of the three is a total preorder (`Std.TransOrd`).

Versions are written in one way only, so those that compare equal are equal (`Std.LawfulEqOrd`).

A version that is raised becomes the release with the raised components (`Bump.raised`), and the
further the larger the bump is. So it moves forward in precedence (`precedes_of_applyTo?`), and goes
beyond everything that the version before was not behind (`Precedes.of_compare_isLE`). Nothing but a
component that is spent (`Bump.IsSpent`) keeps it from being raised (`Bump.next?_eq_error_iff`).
-/

namespace ReleaseCut

/-! ### Total preorders -/

namespace Identifier

/-- Numeric identifiers come first, by value and length; the others by their characters. -/
private theorem compare_eq_lex : Identifier.compare =
    compareLex (compareOn (!·.isNumeric)) (compareLex
      (compareOn fun i => if i.isNumeric then i.value else 0) (compareLex
        (compareOn fun i => if i.isNumeric then i.toList.length else 0)
        (compareOn fun i => if i.isNumeric then [] else i.toList))) := by
  funext i j
  cases hi : i.isNumeric <;> cases hj : j.isNumeric <;>
    simp [Identifier.compare, compareLex, compareOn, hi, hj] <;> rfl

instance : Std.TransOrd Identifier := by
  have htrans : Std.TransCmp Identifier.compare := by
    rw [compare_eq_lex]
    infer_instance
  exact htrans

end Identifier

namespace Version

/-- An empty pre-release part comes last, the others go by their identifiers. -/
private theorem comparePre_eq_lex :
    comparePre = compareLex (compareOn List.isEmpty) (Ord.compare (α := List Identifier)) := by
  funext p q
  cases p <;> cases q <;> simp [comparePre, compareLex, compareOn] <;> rfl

private theorem precedence_eq_lex : precedence =
    compareLex (compareOn (·.major.toNat)) (compareLex (compareOn (·.minor.toNat)) (compareLex
      (compareOn (·.patch.toNat)) (fun v w => comparePre v.pre w.pre))) := rfl

instance : Std.TransCmp comparePre := by
  rw [comparePre_eq_lex]
  infer_instance

instance : Std.TransCmp fun v w : Version => comparePre v.pre w.pre where
  eq_swap := Std.OrientedCmp.eq_swap
  isLE_trans := Std.TransCmp.isLE_trans

instance : Std.TransCmp precedence := by
  rw [precedence_eq_lex]
  infer_instance

instance : Std.TransOrd Version := by
  have htrans : Std.TransCmp (compareLex precedence (compareOn Version.build)) := inferInstance
  exact htrans

theorem Precedes.trans {u v w : Version} (huv : u.Precedes v) (hvw : v.Precedes w) :
    u.Precedes w :=
  Std.TransCmp.lt_trans huv hvw

theorem not_precedes_self (v : Version) : ¬ v.Precedes v := by
  have hself : v.precedence v = .eq := Std.ReflCmp.compare_self
  rw [Precedes, hself]
  exact nofun

/-- What is not behind in the total order is not behind in precedence. -/
theorem Precedes.of_compare_isLE {u v w : Version} (huv : (compare u v).isLE)
    (hvw : v.Precedes w) : u.Precedes w := by
  have hle : (u.precedence v).isLE := by
    change ((u.precedence v).then (compare u.build v.build)).isLE at huv
    exact (Ordering.isLE_then_iff_and.1 huv).1
  exact Std.TransCmp.lt_of_isLE_of_lt hle hvw

end Version

/-! ### Equal versions -/

/-- As many digits of the same value are the same digits. -/
private theorem eq_of_ofDigitChars {s t : List Char} {m n : Nat} (hs : s.all Char.isDigit = true)
    (ht : t.all Char.isDigit = true) (hlength : s.length = t.length)
    (hvalue : Nat.ofDigitChars 10 s m = Nat.ofDigitChars 10 t n) : m = n ∧ s = t := by
  induction s generalizing t m n with
  | nil =>
    obtain rfl := List.eq_nil_of_length_eq_zero hlength.symm
    exact ⟨hvalue, rfl⟩
  | cons c s ih =>
    cases t with
    | nil => cases hlength
    | cons d t =>
      rw [List.all_cons, Bool.and_eq_true] at hs ht
      obtain ⟨a, ha, rfl⟩ := Version.exists_digitChar hs.1
      obtain ⟨b, hb, rfl⟩ := Version.exists_digitChar ht.1
      rw [Nat.ofDigitChars_cons_digitChar_of_lt_ten ha,
        Nat.ofDigitChars_cons_digitChar_of_lt_ten hb] at hvalue
      obtain ⟨hfirst, rfl⟩ := ih hs.2 ht.2 (Nat.succ.inj hlength) hvalue
      obtain ⟨rfl, rfl⟩ : m = n ∧ a = b := by omega
      exact ⟨rfl, rfl⟩

theorem Identifier.eq_of_toList_eq {i j : Identifier} (h : i.toList = j.toList) : i = j := by
  cases i
  cases j
  cases h
  rfl

instance : Std.LawfulEqOrd Identifier where
  toReflCmp := inferInstance
  eq_of_compare {i j} h := by
    have h : Identifier.compare i j = .eq := h
    rw [Identifier.compare] at h
    refine Identifier.eq_of_toList_eq ?_
    split at h
    · next hi hj =>
      rw [Ordering.then_eq_eq, Std.LawfulEqOrd.compare_eq_iff_eq,
        Std.LawfulEqOrd.compare_eq_iff_eq] at h
      exact (eq_of_ofDigitChars hi hj h.2 h.1).2
    · cases h
    · cases h
    · exact Std.LawfulEqOrd.eq_of_compare h

namespace Version

private theorem eq_of_comparePre {p q : List Identifier} (h : comparePre p q = .eq) : p = q := by
  cases p <;> cases q
  · rfl
  · cases h
  · cases h
  · exact Std.LawfulEqOrd.eq_of_compare h

instance : Std.LawfulEqOrd Version where
  toReflCmp := inferInstance
  eq_of_compare {v w} h := by
    have h : (v.precedence w).then (compare v.build w.build) = .eq := h
    simp only [precedence, Ordering.then_eq_eq, Std.LawfulEqOrd.compare_eq_iff_eq,
      UInt64.toNat_inj] at h
    obtain ⟨⟨hmajor, hminor, hpatch, hpre⟩, hbuild⟩ := h
    have hpre := eq_of_comparePre hpre
    cases v
    cases w
    simp_all

end Version

/-! ### Raised versions -/

namespace Version

/-- The components as numbers, which do not wrap around. -/
def numbers (v : Version) : List Nat :=
  [v.major.toNat, v.minor.toNat, v.patch.toNat]

/-- The components decide before the pre-release part does. -/
theorem precedes_of_numbers_lt {v w : Version} (h : v.numbers < w.numbers) : v.Precedes w := by
  simp only [numbers, List.cons_lt_cons_iff, List.not_lt_nil, and_false, or_false] at h
  rcases h with hmajor | ⟨hmajor, hminor | ⟨hminor, hpatch⟩⟩
  · simp [Precedes, precedence, Nat.compare_eq_lt.2 hmajor]
  · simp [Precedes, precedence, hmajor, Nat.compare_eq_lt.2 hminor]
  · simp [Precedes, precedence, hmajor, hminor, Nat.compare_eq_lt.2 hpatch]

/-- A release is its components. -/
theorem eq_of_numbers_eq {v w : Version} (hv : v.isRelease = true) (hw : w.isRelease = true)
    (h : v.numbers = w.numbers) : v = w := by
  cases v
  cases w
  simp_all [isRelease, numbers, UInt64.toNat_inj]

end Version

namespace Bump

/-- The components that a bump leads to, as numbers: one more in the component to be raised, and
zero in those below it. -/
def raised (b : Bump) (v : Version) : List Nat :=
  match b with
  | .none => v.numbers
  | .patch => [v.major.toNat, v.minor.toNat, v.patch.toNat + 1]
  | .minor => [v.major.toNat, v.minor.toNat + 1, 0]
  | .major => [v.major.toNat + 1, 0, 0]

/-- A larger bump leads further. -/
theorem raised_lt_raised {a b : Bump} (h : a < b) (v : Version) : a.raised v < b.raised v := by
  have hrank : a.rank < b.rank := h
  cases a <;> cases b <;>
    simp_all [rank, raised, Version.numbers, List.cons_lt_cons_iff]

/-- A raised component is the next number, without wrapping around. -/
private theorem toNat_of_raise {v : Version} {n m : UInt64} (h : raise v n = .ok m) :
    m.toNat = n.toNat + 1 := by
  rw [raise] at h
  split at h
  · next hlt =>
    cases h
    rw [UInt64.toNat_add, UInt64.toNat_one, Nat.mod_eq_of_lt hlt]
  · cases h

/-- A version made from a raised component is made from the next number. -/
private theorem exists_of_map_raise {v w : Version} {n : UInt64} {f : UInt64 → Version}
    (h : ((raise v n).map fun m => some (f m)) = .ok (some w)) :
    ∃ m, m.toNat = n.toNat + 1 ∧ f m = w := by
  cases hr : raise v n with
  | error e => simp [hr, Except.map] at h
  | ok m => exact ⟨m, toNat_of_raise hr, by simpa [hr, Except.map] using h⟩

/-- The component of a version that a bump raises. -/
def component? (b : Bump) (v : Version) : Option UInt64 :=
  match b with
  | .none => .none
  | .patch => some v.patch
  | .minor => some v.minor
  | .major => some v.major

/-- A version is spent if the component to be raised has the largest value there is. -/
def IsSpent (b : Bump) (v : Version) : Prop :=
  ∃ n ∈ b.component? v, n.toNat + 1 = UInt64.size

/-- The empty bump raises nothing. -/
theorem not_isSpent_none (v : Version) : ¬ Bump.none.IsSpent v := by
  rintro ⟨n, hn, -⟩
  cases hn

private theorem map_raise_eq_error_iff {α : Type} {v : Version} {n : UInt64} {f : UInt64 → α}
    {o : Overflow} : (raise v n).map f = .error o ↔ n.toNat + 1 = UInt64.size ∧ o = ⟨v⟩ := by
  have hle : n.toNat + 1 ≤ UInt64.size := n.toNat_lt_size
  rw [raise]
  split
  · next hlt =>
    refine ⟨nofun, fun ⟨hmax, _⟩ => ?_⟩
    omega
  · next hge =>
    have hmax : n.toNat + 1 = UInt64.size := by omega
    simp [Except.map, hmax, eq_comm]

/-- A bump fails on the versions that are spent, and says so. -/
theorem applyTo?_eq_error_iff {b : Bump} {v : Version} {o : Overflow} :
    b.applyTo? v = .error o ↔ b.IsSpent v ∧ o = ⟨v⟩ := by
  cases b with
  | none => simp [applyTo?, IsSpent, component?]
  | patch => simpa [applyTo?, IsSpent, component?] using map_raise_eq_error_iff
  | minor => simpa [applyTo?, IsSpent, component?] using map_raise_eq_error_iff
  | major => simpa [applyTo?, IsSpent, component?] using map_raise_eq_error_iff

/-- There is no next version of one that is spent, and of no other. -/
theorem next?_eq_error_iff {b : Bump} {previous : Option Version} {o : Overflow} :
    b.next? previous = .error o ↔ ∃ v ∈ previous, b.IsSpent v ∧ o = ⟨v⟩ := by
  cases previous with
  | none => simp [next?]
  | some v => simp [next?, applyTo?_eq_error_iff]

/-- Only the empty bump asks for no version. -/
theorem next?_eq_none_iff {b : Bump} {previous : Option Version} :
    b.next? previous = .ok .none ↔ b = .none := by
  constructor
  · intro h
    cases previous with
    | none => simpa [next?, isRelease] using h
    | some v =>
      have hmap : ∀ {n : UInt64} {f : UInt64 → Version},
          (raise v n).map (fun m => some (f m)) ≠ .ok .none := by
        intro n f
        cases raise v n <;> simp [Except.map]
      cases b with
      | none => rfl
      | patch => exact absurd h hmap
      | minor => exact absurd h hmap
      | major => exact absurd h hmap
  · rintro rfl
    cases previous <;> rfl

/-- There is a next version exactly if one is asked for and the previous one is not spent. -/
theorem exists_next?_iff {b : Bump} {previous : Option Version} :
    (∃ v, b.next? previous = .ok (some v)) ↔ b ≠ .none ∧ ∀ v ∈ previous, ¬ b.IsSpent v := by
  cases h : b.next? previous with
  | error o =>
    obtain ⟨v, hv, hspent, -⟩ := next?_eq_error_iff.1 h
    refine ⟨nofun, fun ⟨_, hfree⟩ => absurd hspent (hfree v hv)⟩
  | ok next =>
    have hfree : ∀ v ∈ previous, ¬ b.IsSpent v := fun v hv hspent => by
      cases h.symm.trans (next?_eq_error_iff.2 ⟨v, hv, hspent, rfl⟩)
    refine Iff.trans ?_ (and_iff_left hfree).symm
    rw [Ne, ← @next?_eq_none_iff b previous, h]
    cases next <;> simp

/-- A bump leads to a release with the raised components. -/
theorem numbers_of_applyTo? {b : Bump} {v w : Version} (h : b.applyTo? v = .ok (some w)) :
    w.isRelease = true ∧ w.numbers = b.raised v := by
  cases b with
  | none => cases h
  | patch =>
    obtain ⟨m, hm, rfl⟩ := exists_of_map_raise h
    simp [Version.release, Version.isRelease, Version.numbers, raised, hm]
  | minor =>
    obtain ⟨m, hm, rfl⟩ := exists_of_map_raise h
    simp [Version.release, Version.isRelease, Version.numbers, raised, hm]
  | major =>
    obtain ⟨m, hm, rfl⟩ := exists_of_map_raise h
    simp [Version.release, Version.isRelease, Version.numbers, raised, hm]

/-- A bump leads to the release with the raised components, where there is one. -/
theorem applyTo?_eq_some_iff {b : Bump} {v w : Version} : b.applyTo? v = .ok (some w) ↔
    b ≠ .none ∧ ¬ b.IsSpent v ∧ w.isRelease = true ∧ w.numbers = b.raised v := by
  have hexists : (∃ w, b.applyTo? v = .ok (some w)) ↔ b ≠ .none ∧ ¬ b.IsSpent v := by
    simpa [next?] using @exists_next?_iff b (some v)
  constructor
  · intro h
    obtain ⟨hne, hfree⟩ := hexists.1 ⟨w, h⟩
    exact ⟨hne, hfree, numbers_of_applyTo? h⟩
  · rintro ⟨hne, hfree, hrelease, hnumbers⟩
    obtain ⟨u, hu⟩ := hexists.2 ⟨hne, hfree⟩
    obtain ⟨hurelease, hunumbers⟩ := numbers_of_applyTo? hu
    rw [hu, Version.eq_of_numbers_eq hrelease hurelease (hnumbers.trans hunumbers.symm)]

/-- A bump that leads to a version is not the empty one. -/
theorem none_lt_of_applyTo? {b : Bump} {v w : Version} (h : b.applyTo? v = .ok (some w)) :
    Bump.none < b := by
  cases b with
  | none => cases h
  | patch => decide
  | minor => decide
  | major => decide

/-- A bump leads to a version of higher precedence. -/
theorem precedes_of_applyTo? {b : Bump} {v w : Version} (h : b.applyTo? v = .ok (some w)) :
    v.Precedes w := by
  apply Version.precedes_of_numbers_lt
  rw [(numbers_of_applyTo? h).2]
  exact raised_lt_raised (none_lt_of_applyTo? h) v

/-- Of two bumps of a version the larger one leads to the version of higher precedence. -/
theorem precedes_of_lt {a b : Bump} {v w x : Version} (hab : a < b)
    (hw : a.applyTo? v = .ok (some w)) (hx : b.applyTo? v = .ok (some x)) : w.Precedes x := by
  apply Version.precedes_of_numbers_lt
  rw [(numbers_of_applyTo? hw).2, (numbers_of_applyTo? hx).2]
  exact raised_lt_raised hab v

/-- A first release has the initial version. -/
theorem eq_initial_of_next? {b : Bump} {v : Version} (h : b.next? .none = .ok (some v)) :
    v = .initial := by
  rw [next?] at h
  split at h
  · exact (Option.some.inj (Except.ok.inj h)).symm
  · cases h

/-- The next version has neither a pre-release part nor build metadata. -/
theorem isRelease_of_next? {b : Bump} {previous : Option Version} {v : Version}
    (h : b.next? previous = .ok (some v)) : v.isRelease = true := by
  cases previous with
  | none =>
    rw [eq_initial_of_next? h]
    rfl
  | some u => exact (numbers_of_applyTo? h).1

end Bump

end ReleaseCut
