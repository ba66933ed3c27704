import RawPcm.Floating.Arithmetic
import RawPcm.Proofs.Floating.Units

/-! Bit patterns from a sign and a magnitude. A number comes back from a precision that is not
smaller. -/
namespace RawPcm.Precision
variable {p : Precision}

theorem infinity_lt (p : Precision) : p.infinity < 2 ^ (p.bits - 1) := by
  cases p <;> decide

theorem two_mul_half (p : Precision) : 2 * 2 ^ (p.bits - 1) = 2 ^ p.bits := by
  cases p <;> decide

theorem toNat_pattern (negative : Bool) {n : Nat} (h : n < 2 ^ (p.bits - 1)) :
    (p.pattern negative n).toNat = (if negative then 2 ^ (p.bits - 1) + n else n) := by
  have hp := p.two_mul_half
  rw [pattern, BitVec.toNat_ofNat]
  apply Nat.mod_eq_of_lt
  split <;> omega

theorem msb_pattern (negative : Bool) {n : Nat} (h : n < 2 ^ (p.bits - 1)) :
    (p.pattern negative n).msb = negative := by
  rw [BitVec.msb_eq_decide, toNat_pattern negative h]
  cases negative with
  | false => simpa using h
  | true => simp

theorem toNat_pattern_mod (negative : Bool) {n : Nat} (h : n < 2 ^ (p.bits - 1)) :
    (p.pattern negative n).toNat % 2 ^ (p.bits - 1) = n := by
  rw [toNat_pattern negative h]
  cases negative with
  | false => exact Nat.mod_eq_of_lt h
  | true => rw [if_pos rfl, Nat.add_mod_left, Nat.mod_eq_of_lt h]

theorem pattern_msb (x : BitVec p.bits) :
    p.pattern x.msb (x.toNat % 2 ^ (p.bits - 1)) = x := by
  have hm := Nat.mod_lt x.toNat (Nat.two_pow_pos (p.bits - 1))
  have hp := p.two_mul_half
  have hx := x.isLt
  apply BitVec.eq_of_toNat_eq
  rw [toNat_pattern x.msb hm, BitVec.msb_eq_decide]
  by_cases h : 2 ^ (p.bits - 1) ≤ x.toNat
  · rw [if_pos (by simpa using h), Nat.mod_eq_sub_mod h, Nat.mod_eq_of_lt (by omega)]
    omega
  · rw [if_neg (by simpa using h), Nat.mod_eq_of_lt (Nat.not_le.mp h)]

theorem datum_pattern (negative : Bool) {n : Nat} (h : n < p.infinity) :
    p.datum (p.pattern negative n) = .finite negative (p.units n) := by
  have hn := Nat.lt_trans h p.infinity_lt
  simp only [datum, toNat_pattern_mod negative hn, msb_pattern negative hn]
  rw [if_neg (Nat.lt_asymm h), if_neg (Nat.ne_of_lt h)]

theorem datum_infinityOf (negative : Bool) :
    p.datum (p.infinityOf negative) = .infinite negative := by
  simp only [infinityOf, datum, toNat_pattern_mod negative p.infinity_lt,
    msb_pattern negative p.infinity_lt, if_neg (Nat.lt_irrefl _), if_true]

theorem datum_nanWith (negative : Bool) {payload : Nat} (h : payload < 2 ^ (p.digits - 1)) :
    p.datum (p.nanWith negative payload) = .nan := by
  have hq : 2 ^ (p.digits - 2) < 2 ^ (p.digits - 1) := by cases p <;> decide
  have hi : p.infinity + 2 ^ (p.digits - 1) = 2 ^ (p.bits - 1) := by cases p <;> decide
  have hlo : 2 ^ (p.digits - 2) ≤ 2 ^ (p.digits - 2) ||| payload := Nat.left_le_or
  have hhi : 2 ^ (p.digits - 2) ||| payload < 2 ^ (p.digits - 1) := Nat.or_lt_two_pow hq h
  have hpos : 0 < 2 ^ (p.digits - 2) := Nat.two_pow_pos _
  have hlt : p.infinity + (2 ^ (p.digits - 2) ||| payload) < 2 ^ (p.bits - 1) := by omega
  simp only [nanWith, datum, toNat_pattern_mod negative hlt]
  rw [if_pos (by omega)]

theorem exists_pattern {x : BitVec p.bits} (h : (p.datum x).isNaN = false) :
    (∃ negative, x = p.infinityOf negative) ∨
      ∃ negative, ∃ n < p.infinity, x = p.pattern negative n := by
  have hx := pattern_msb x
  by_cases hlt : p.infinity < x.toNat % 2 ^ (p.bits - 1)
  · simp [datum, hlt, Datum.isNaN] at h
  · by_cases he : x.toNat % 2 ^ (p.bits - 1) = p.infinity
    · exact .inl ⟨x.msb, by rw [infinityOf, ← he, hx]⟩
    · exact .inr ⟨x.msb, _, by omega, hx.symm⟩

theorem nearest_units (negative : Bool) {n den : Nat} (hn : n < p.infinity) (hd : 0 < den) :
    p.nearest negative (p.units n * den) den = p.pattern negative n := by
  rw [nearest, nearestMagnitude_units hn hd]

theorem datum_nearest_of_exact (negative : Bool) {n den : Nat} (hn : p.Exact n) (hd : 0 < den) :
    p.datum (p.nearest negative (n * den) den) = .finite negative n := by
  obtain ⟨m, hm, rfl⟩ := hn
  rw [nearest_units negative hm hd, datum_pattern negative hm]

theorem exact_widen {n : Nat} (h : single.Exact n) :
    double.Exact (n * 2 ^ (double.places - single.places)) := by
  obtain ⟨m, hm, rfl⟩ := h
  obtain ⟨e, f, rfl, hf, he⟩ := single.exists_significand m
  have hle : e * 2 ^ (single.digits - 1) <
      (2 ^ (single.bits - single.digits) - 1) * 2 ^ (single.digits - 1) := by
    rw [infinity_eq] at hm
    omega
  have he' := Nat.lt_of_mul_lt_mul_right hle
  rw [units_significand hf he, Nat.mul_assoc, ← Nat.pow_add]
  apply exact_mul_two_pow (Nat.lt_trans hf (by decide))
  have hs : 2 ^ (single.bits - single.digits) = 256 := by decide
  have hd : 2 ^ (double.bits - double.digits) = 2048 := by decide
  have hp : double.places - single.places = 925 := rfl
  omega

theorem resize_resize {x : BitVec single.bits} (h : (single.datum x).isNaN = false) :
    double.resize .single (single.resize .double x) = x := by
  obtain ⟨negative, rfl⟩ | ⟨negative, n, hn, rfl⟩ := exists_pattern h
  · simp only [resize, datum_infinityOf]
  · have hw := exact_widen ⟨n, hn, rfl⟩
    have he : single.units n * 2 ^ double.places =
        single.units n * 2 ^ (double.places - single.places) * 2 ^ single.places := by
      rw [Nat.mul_assoc, ← Nat.pow_add, Nat.sub_add_cancel (by decide)]
    have hd := datum_nearest_of_exact negative hw (Nat.two_pow_pos single.places)
    simp only [resize, datum_pattern negative hn]
    rw [he, hd]
    simp only
    rw [← he, nearest_units negative hn (Nat.two_pow_pos _)]

/-- A number that goes through double precision on the way to and back comes out as it went in. -/
theorem cast_cast {q : Precision} (hq : q.digits ≤ p.digits) {x : BitVec q.bits}
    (h : (q.datum x).isNaN = false) :
    double.cast q (p.cast .double (double.cast p (q.cast .double x))) = x := by
  cases q with
  | single =>
    cases p with
    | single => simp only [cast, resize_resize h]
    | double => exact resize_resize h
  | double =>
    cases p with
    | single => exact absurd hq (by decide)
    | double => rfl

end RawPcm.Precision
