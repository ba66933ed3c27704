import RawPcm.Text.Number

/-! Texts as bytes: where they can be split, and what the bytes of digits are. -/
namespace RawPcm
namespace Text

theorem isBoundary_iff {text : String} {offset : Nat} :
    isBoundary text offset ↔ ∃ a b : String, text = a ++ b ∧ offset = a.utf8ByteSize := by
  rw [isBoundary, String.Pos.Raw.isValid_eq_true_iff, String.Pos.Raw.isValid_iff_exists_append]
  simp only [String.Pos.Raw.ext_iff, String.byteIdx_rawEndPos]

theorem splitAt_append (a b : String) : splitAt (a ++ b) a.utf8ByteSize = .ok (a, b) := by
  have h : (String.Pos.Raw.mk a.utf8ByteSize).IsValid (a ++ b) :=
    String.Pos.Raw.isValid_iff_exists_append.mpr ⟨a, b, rfl, rfl⟩
  rw [splitAt, dif_pos h]
  simp only [Except.ok.injEq, Prod.mk.injEq, ← String.toByteArray_inj, String.toByteArray_append]
  constructor
  · exact ByteArray.extract_append_eq_left rfl
  · rw [String.utf8ByteSize_append]
    exact ByteArray.extract_append_eq_right rfl rfl

theorem bytes_ofList (cs : List Char) :
    bytes (String.ofList cs) = cs.flatMap String.utf8EncodeChar := by
  rw [bytes, String.toByteArray_ofList, List.utf8Encode, List.toList_data_toByteArray]

theorem isDigitByte_ofNat {n : Nat} (h : n < 256) :
    isDigitByte (UInt8.ofNat n) = (decide (48 ≤ n) && decide (n ≤ 57)) := by
  simp [isDigitByte, UInt8.le_iff_toNat_le, Nat.mod_eq_of_lt h]

theorem isDigit_eq (c : Char) :
    c.isDigit = (decide (48 ≤ c.val.toNat) && decide (c.val.toNat ≤ 57)) := by
  simp [Char.isDigit, UInt32.le_iff_toNat_le]

/-- The first of several bytes is greater than that of any digit. -/
theorem all_isDigitByte_char (c : Char) :
    (String.utf8EncodeChar c).all isDigitByte = c.isDigit := by
  rw [String.utf8EncodeChar, isDigit_eq]
  generalize c.val.toNat = v
  have hd (n : Nat) (h : n < 256) (h57 : 57 < n) : isDigitByte (UInt8.ofNat n) = false := by
    rw [isDigitByte_ofNat h, decide_eq_false (Nat.not_le_of_lt h57), Bool.and_false]
  split
  · rename_i h
    simp [isDigitByte_ofNat (Nat.lt_of_le_of_lt h (by decide))]
  · rw [show decide (v ≤ 57) = false from decide_eq_false (by omega), Bool.and_false]
    split
    · rw [List.all_cons, hd _ (by omega) (by omega), Bool.false_and]
    · split <;> rw [List.all_cons, hd _ (by omega) (by omega), Bool.false_and]

theorem all_isDigitByte (cs : List Char) :
    (bytes (String.ofList cs)).all isDigitByte ↔ ∀ c ∈ cs, c.isDigit := by
  rw [bytes_ofList, List.all_flatMap, List.all_eq_true]
  simp only [all_isDigitByte_char]

theorem utf8ByteSize_of_isDigit {cs : List Char} (h : ∀ c ∈ cs, c.isDigit) :
    (String.ofList cs).utf8ByteSize = cs.length := by
  induction cs with
  | nil => rfl
  | cons c cs ih =>
    obtain ⟨hc, hcs⟩ := List.forall_mem_cons.mp h
    have h1 : (String.utf8EncodeChar c).length = 1 := by
      rw [isDigit_eq, Bool.and_eq_true, decide_eq_true_eq, decide_eq_true_eq] at hc
      rw [String.utf8EncodeChar, if_pos (show c.val.toNat ≤ 0x7f by omega), List.length_singleton]
    rw [String.ofList_cons, String.utf8ByteSize_append, String.utf8ByteSize_singleton,
      ← String.length_utf8EncodeChar, h1, ih hcs, List.length_cons, Nat.add_comm]

end Text

theorem mapM_digit? {cs : List Char} (h : ∀ c ∈ cs, c.isDigit) :
    cs.mapM digit? = some (cs.map fun c => c.toNat - '0'.toNat) := by
  induction cs with
  | nil => rfl
  | cons c cs ih =>
    obtain ⟨hc, hcs⟩ := List.forall_mem_cons.mp h
    simp [List.mapM_cons, digit?_eq_some_iff.mpr ⟨hc, rfl⟩, ih hcs]

theorem withoutPlus_of_isDigit {cs : List Char} (h : ∀ c ∈ cs, c.isDigit) :
    withoutPlus cs = cs := by
  unfold withoutPlus
  split
  · exact absurd (h '+' List.mem_cons_self) (by decide)
  · rfl

theorem size?_ofList {cs : List Char} (h : ∀ c ∈ cs, c.isDigit) (h0 : cs ≠ []) :
    size? (String.ofList cs) = if Nat.ofDigitChars 10 cs 0 < sizeLimit then
      some (Nat.ofDigitChars 10 cs 0) else none := by
  have hv : (cs.map fun c => c.toNat - '0'.toNat).foldl (10 * · + ·) 0 =
      Nat.ofDigitChars 10 cs 0 := List.foldl_map
  rw [size?, String.toList_ofList, withoutPlus_of_isDigit h, mapM_digit? h]
  cases hds : cs.map fun c => c.toNat - '0'.toNat with
  | nil => exact absurd (List.map_eq_nil_iff.mp hds) h0
  | cons d ds =>
    rw [hds] at hv
    simp only [hv]

end RawPcm
