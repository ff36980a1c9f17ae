/-!
# The order of texts by their bytes

Texts are compared character by character. Comparing the bytes of their UTF-8 forms comes to the
same (`compare_eq_compare_bytes`), so it does not matter which of the two a sorted list goes by.

A character is encoded by its digits in base 64, of which the first also tells how many there are
(`Encodes`). Of two characters the greater one has more digits, or is greater at the first digit
that differs. Either way the encodings differ at a byte that both have, so what follows them plays
no part (`Encodes.compare_append`). Nor is any byte of it zero, unless the character is NUL
(`zero_notMem_toUTF8`).
-/

namespace ReleaseCut

/-! ### Sequences of bytes -/

private theorem toList_loop_eq (bytes : ByteArray) (i : Nat) (r : List UInt8) :
    ByteArray.toList.loop bytes i r = r.reverse ++ bytes.data.toList.drop i := by
  fun_induction ByteArray.toList.loop bytes i r with
  | case1 i r hlt ih =>
    have hlt : i < bytes.data.toList.length := by simpa using hlt
    have hget : bytes.get! i = bytes.data.toList[i] := by
      rw [Array.getElem_toList]
      exact getElem!_pos bytes.data i _
    rw [ih, List.drop_eq_getElem_cons hlt, List.reverse_cons, List.append_assoc, hget]
    rfl
  | case2 i r hle =>
    rw [List.drop_eq_nil_of_le (by simpa using hle), List.append_nil]

/-- A sequence of bytes as a list. -/
private theorem toList_bytes_eq (bytes : ByteArray) : bytes.toList = bytes.data.toList := by
  rw [ByteArray.toList, toList_loop_eq]
  rfl

namespace Text

/-- The bytes of a text in UTF-8, as numbers. -/
def bytes (s : String) : List Nat :=
  s.toUTF8.toList.map UInt8.toNat

/-- The bytes of a text are those of its characters. -/
theorem bytes_eq (s : String) :
    bytes s = s.toList.flatMap fun c => (String.utf8EncodeChar c).map UInt8.toNat := by
  have hutf8 : s.toUTF8 = s.toList.utf8Encode := by
    rw [String.toUTF8_eq_toByteArray, ← String.toByteArray_ofList, String.ofList_toList]
  rw [bytes, toList_bytes_eq, hutf8, List.utf8Encode, List.toList_data_toByteArray,
    List.map_flatMap]

/-! ### Characters -/

/-- The encoding of a number: itself, if it has seven bits, and otherwise its digits in base 64,
each with a mark. No shorter encoding is possible. -/
inductive Encodes : Nat → List Nat → Prop
  /-- A single byte. -/
  | one {a : Nat} (ha : a < 128) : Encodes a [a]
  /-- Two digits. -/
  | two {a b : Nat} (ha : a < 32) (hb : b < 64) (hlong : 128 ≤ 64 * a + b) :
    Encodes (64 * a + b) [a + 192, b + 128]
  /-- Three digits. -/
  | three {a b c : Nat} (ha : a < 16) (hb : b < 64) (hc : c < 64)
    (hlong : 2048 ≤ 4096 * a + 64 * b + c) :
    Encodes (4096 * a + 64 * b + c) [a + 224, b + 128, c + 128]
  /-- Four digits. -/
  | four {a b c d : Nat} (ha : a < 8) (hb : b < 64) (hc : c < 64) (hd : d < 64)
    (hlong : 65536 ≤ 262144 * a + 4096 * b + 64 * c + d) :
    Encodes (262144 * a + 4096 * b + 64 * c + d) [a + 240, b + 128, c + 128, d + 128]

/-- UTF-8 encodes the number of a character. -/
theorem encodes_utf8EncodeChar (c : Char) :
    Encodes c.val.toNat ((String.utf8EncodeChar c).map UInt8.toNat) := by
  have hc : c.val.toNat < 0x110000 := by
    rcases c.valid with h | h
    · exact Nat.lt_trans h (by decide)
    · exact h.2
  have hbyte : ∀ n < 256, (UInt8.ofNat n).toNat = n := fun n hn => UInt8.toNat_ofNat_of_lt' hn
  generalize hv : c.val.toNat = v at hc
  simp only [String.utf8EncodeChar, hv]
  split
  · simp (disch := omega) only [List.map_cons, List.map_nil, hbyte]
    exact .one (by omega)
  split
  · have hdigits : v = 64 * (v / 64 % 32) + v % 64 := by omega
    have hencodes : Encodes (64 * (v / 64 % 32) + v % 64) [v / 64 % 32 + 192, v % 64 + 128] :=
      .two (by omega) (by omega) (by omega)
    simp (disch := omega) only [List.map_cons, List.map_nil, hbyte]
    rwa [← hdigits] at hencodes
  split
  · have hdigits : v = 4096 * (v / 4096 % 16) + 64 * (v / 64 % 64) + v % 64 := by omega
    have hencodes : Encodes (4096 * (v / 4096 % 16) + 64 * (v / 64 % 64) + v % 64)
        [v / 4096 % 16 + 224, v / 64 % 64 + 128, v % 64 + 128] :=
      .three (by omega) (by omega) (by omega) (by omega)
    simp (disch := omega) only [List.map_cons, List.map_nil, hbyte]
    rwa [← hdigits] at hencodes
  · have hdigits : v =
        262144 * (v / 262144 % 8) + 4096 * (v / 4096 % 64) + 64 * (v / 64 % 64) + v % 64 := by
      omega
    have hencodes : Encodes
        (262144 * (v / 262144 % 8) + 4096 * (v / 4096 % 64) + 64 * (v / 64 % 64) + v % 64)
        [v / 262144 % 8 + 240, v / 4096 % 64 + 128, v / 64 % 64 + 128, v % 64 + 128] :=
      .four (by omega) (by omega) (by omega) (by omega) (by omega)
    simp (disch := omega) only [List.map_cons, List.map_nil, hbyte]
    rwa [← hdigits] at hencodes

/-- No byte of an encoding is zero, unless the number is. -/
theorem Encodes.zero_notMem {n : Nat} {bs : List Nat} (h : Encodes n bs) (hn : n ≠ 0) :
    0 ∉ bs := by
  cases h <;> simp only [List.mem_cons, List.not_mem_nil, or_false] <;> omega

/-- A text without NUL has no byte that is zero. -/
theorem zero_notMem_toUTF8 {s : String} (h : '\x00' ∉ s.toList) : 0 ∉ s.toUTF8.data.toList := by
  intro hmem
  have hbytes : 0 ∈ bytes s := List.mem_map.2 ⟨0, toList_bytes_eq _ ▸ hmem, rfl⟩
  rw [bytes_eq, List.mem_flatMap] at hbytes
  obtain ⟨c, hc, hzero⟩ := hbytes
  refine (encodes_utf8EncodeChar c).zero_notMem (fun hval => h ?_) hzero
  -- NUL is the only character of this number
  have hnul : c = '\x00' := Char.ext (UInt32.toNat_inj.1 hval)
  exact hnul ▸ hc

/-- The smaller number has the encoding that comes first, whatever follows the two. -/
theorem Encodes.compare_append {m n : Nat} {a b : List Nat} (ha : Encodes m a) (hb : Encodes n b)
    (hlt : m < n) (s t : List Nat) : compare (a ++ s) (b ++ t) = .lt := by
  -- the mark of the first digit grows with their number; with as many digits they decide in turn
  cases ha <;> cases hb <;>
    simp only [List.cons_append, List.nil_append, List.compare_cons_cons, Ordering.then_eq_lt,
      Nat.compare_eq_lt, Nat.compare_eq_eq] <;>
    omega

/-! ### Texts -/

private theorem compare_append_left (p s t : List Nat) :
    compare (p ++ s) (p ++ t) = compare s t := by
  induction p with
  | nil => rfl
  | cons a p ih => simp [List.compare_cons_cons, ih]

/-- The bytes of a smaller text come first. -/
private theorem compare_bytes_of_lt {s t : String} (h : s < t) :
    compare (bytes s) (bytes t) = .lt := by
  have h : List.Lex (· < ·) s.toList t.toList := h
  rw [bytes_eq, bytes_eq]
  generalize s.toList = s, t.toList = t at h
  -- the texts go together up to the first character that differs, or to the end of the first one
  induction h with
  | @nil c t =>
    have hne : (String.utf8EncodeChar c).map UInt8.toNat ≠ [] := by simp
    obtain ⟨b, bs, hb⟩ := List.exists_cons_of_ne_nil hne
    rw [List.flatMap_nil, List.flatMap_cons, hb, List.cons_append, List.compare_nil_cons]
  | rel hlt =>
    rw [List.flatMap_cons, List.flatMap_cons]
    exact (encodes_utf8EncodeChar _).compare_append (encodes_utf8EncodeChar _) hlt _ _
  | cons _ ih => rwa [List.flatMap_cons, List.flatMap_cons, compare_append_left]

/-- **Texts are ordered by their bytes.** -/
theorem compare_eq_compare_bytes (s t : String) : compare s t = compare (bytes s) (bytes t) := by
  cases h : compare s t with
  | lt => exact (compare_bytes_of_lt (compareOfLessAndEq_eq_lt.1 h)).symm
  | eq =>
    rw [Std.LawfulEqOrd.eq_of_compare h]
    exact Std.ReflCmp.compare_self.symm
  | gt =>
    have hswap : compare t s = .lt := Std.OrientedCmp.lt_of_gt h
    have hbytes := compare_bytes_of_lt (compareOfLessAndEq_eq_lt.1 hswap)
    exact (Std.OrientedCmp.gt_of_lt hbytes).symm

theorem compare_bytes_eq_lt_iff {s t : String} : compare (bytes s) (bytes t) = .lt ↔ s < t := by
  rw [← compare_eq_compare_bytes]
  exact compareOfLessAndEq_eq_lt

end Text

end ReleaseCut
