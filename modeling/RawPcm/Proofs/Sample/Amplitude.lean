import RawPcm.Sample.Conversion

/-! Integer samples as amplitudes around zero. A width on the way makes no difference unless it is
narrower than both ends. -/
namespace RawPcm

theorem WordSize.one_lt_bits (n : WordSize) : 1 < n.bits := by cases n <;> decide

theorem WordSize.bits_le (n : WordSize) : n.bits ≤ 64 := by cases n <;> decide

theorem WordSize.pred_bits_le (n : WordSize) : n.bits - 1 ≤ 64 :=
  Nat.le_trans (Nat.sub_le ..) n.bits_le

/-- An amplitude of `m` bits in `n` bits: new places are zeros, lost ones are rounded down. -/
def scaled (m n : Nat) (a : Int) : Int :=
  if n < m then a / 2 ^ (m - n) else a * 2 ^ (n - m)

theorem scaled_self (n : Nat) (a : Int) : scaled n n a = a := by
  simp [scaled]

theorem scaled_up {m n : Nat} (h : m ≤ n) (a : Int) : scaled m n a = a * 2 ^ (n - m) := by
  rw [scaled, if_neg (Nat.not_lt.mpr h)]

theorem scaled_down {m n : Nat} (h : n ≤ m) (a : Int) : scaled m n a = a / 2 ^ (m - n) := by
  rcases Nat.lt_or_eq_of_le h with h | rfl
  · rw [scaled, if_pos h]
  · simp [scaled]

/-- A width on the way does no harm unless it is narrower than both ends. -/
theorem scaled_scaled {m k n : Nat} (h : min m n ≤ k) (a : Int) :
    scaled k n (scaled m k a) = scaled m n a := by
  rcases Nat.lt_or_ge k m with hm | hm
  · have hn : n ≤ k := by omega
    have e : m - n = (m - k) + (k - n) := by omega
    rw [scaled_down (Nat.le_of_lt hm), scaled_down hn, scaled_down (by omega), e, Int.pow_add,
      Int.ediv_ediv_of_nonneg (Int.le_of_lt (Int.pow_pos (by decide)))]
  · rw [scaled_up hm]
    rcases Nat.le_total k n with hn | hn
    · rw [scaled_up hn, scaled_up (Nat.le_trans hm hn), Int.mul_assoc, ← Int.pow_add]
      congr 2
      omega
    · rw [scaled_down hn]
      rcases Nat.le_total m n with hmn | hmn
      · have e : k - m = (n - m) + (k - n) := by omega
        rw [scaled_up hmn, e, Int.pow_add, ← Int.mul_assoc]
        exact Int.mul_ediv_cancel _ (Int.pow_ne_zero (by decide))
      · have e : k - n = (m - n) + (k - m) := by omega
        rw [scaled_down hmn, e, Int.pow_add]
        exact Int.mul_ediv_mul_of_pos_left _ _ (Int.pow_pos (by decide))

theorem toNat_topBit {n : Nat} (h : 0 < n) : (topBit n).toNat = 2 ^ (n - 1) := by
  have hlt : 2 ^ (n - 1) < 2 ^ n := Nat.pow_lt_pow_of_lt (by decide) (by omega)
  rw [topBit, BitVec.toNat_ofNat, Nat.mod_eq_of_lt hlt]

theorem toNat_lt_two_mul_half {n : Nat} (h : 0 < n) (x : BitVec n) : x.toNat < 2 * 2 ^ (n - 1) := by
  have := x.isLt
  rwa [← Nat.two_pow_pred_mul_two h, Nat.mul_comm] at this

theorem toNat_xor_topBit {n : Nat} (h : 0 < n) (x : BitVec n) :
    (x ^^^ topBit n).toNat =
      if x.toNat < 2 ^ (n - 1) then x.toNat + 2 ^ (n - 1) else x.toNat - 2 ^ (n - 1) := by
  have hp : 0 < 2 ^ (n - 1) := Nat.two_pow_pos (n - 1)
  have hx := toNat_lt_two_mul_half h x
  have hd := Nat.div_add_mod (x.toNat ^^^ 2 ^ (n - 1)) (2 ^ (n - 1))
  rw [Nat.xor_div_two_pow, Nat.xor_mod_two_pow, Nat.div_self hp, Nat.mod_self, Nat.xor_zero] at hd
  rw [BitVec.toNat_xor, toNat_topBit h, ← hd]
  by_cases hlt : x.toNat < 2 ^ (n - 1)
  · rw [if_pos hlt, Nat.div_eq_of_lt hlt, Nat.mod_eq_of_lt hlt, Nat.zero_xor, Nat.mul_one,
      Nat.add_comm]
  · have hge := Nat.not_lt.mp hlt
    have hq : x.toNat / 2 ^ (n - 1) = 1 := Nat.div_eq_of_lt_le (by omega) (by omega)
    rw [if_neg hlt, hq, Nat.xor_self, Nat.mul_zero, Nat.zero_add, Nat.mod_eq_sub_mod hge,
      Nat.mod_eq_of_lt (by omega)]

theorem toInt_eq_ite {n : Nat} (h : 0 < n) (x : BitVec n) :
    x.toInt = if x.toNat < 2 ^ (n - 1) then (x.toNat : Int) else x.toNat - 2 * 2 ^ (n - 1) := by
  have hp : 2 ^ n = 2 * 2 ^ (n - 1) := by rw [Nat.mul_comm, Nat.two_pow_pred_mul_two h]
  rw [BitVec.toInt_eq_toNat_cond, hp]
  push_cast
  split <;> split <;> omega

theorem half_add {n : Nat} (h : 0 < n) (k : Nat) : 2 ^ (n + k - 1) = 2 ^ (n - 1) * 2 ^ k := by
  rw [← Nat.pow_add, Nat.sub_add_comm h]

theorem toNat_ushiftRight_setWidth {n k : Nat} (x : BitVec (n + k)) :
    ((x >>> k).setWidth n).toNat = x.toNat / 2 ^ k := by
  have hlt : x.toNat / 2 ^ k < 2 ^ n := by
    rw [Nat.div_lt_iff_lt_mul (Nat.two_pow_pos k), ← Nat.pow_add]
    exact x.isLt
  rw [BitVec.toNat_setWidth, BitVec.toNat_ushiftRight, Nat.shiftRight_eq_div_pow,
    Nat.mod_eq_of_lt hlt]

theorem toNat_setWidth_shiftLeft {m k : Nat} (x : BitVec m) :
    (x.setWidth (m + k) <<< k).toNat = x.toNat * 2 ^ k := by
  have hk : 0 < 2 ^ k := Nat.two_pow_pos k
  have hlt : x.toNat * 2 ^ k < 2 ^ (m + k) := by
    rw [Nat.pow_add]
    exact Nat.mul_lt_mul_of_pos_right x.isLt hk
  have hw : x.toNat < 2 ^ (m + k) := Nat.lt_of_le_of_lt (Nat.le_mul_of_pos_right _ hk) hlt
  rw [BitVec.toNat_shiftLeft, BitVec.toNat_setWidth, Nat.shiftLeft_eq, Nat.mod_eq_of_lt hw,
    Nat.mod_eq_of_lt hlt]

theorem rescale_down {n k : Nat} (s t : Signedness) (x : BitVec (n + k)) :
    rescale n s t x = (s.recode t x >>> k).setWidth n := by
  rcases Nat.eq_zero_or_pos k with rfl | hk
  · simp [rescale]
  · rw [rescale, if_pos (by omega), Nat.add_sub_cancel_left]

theorem rescale_up {m k : Nat} (s t : Signedness) (x : BitVec m) :
    rescale (m + k) s t x = (s.recode t x).setWidth (m + k) <<< k := by
  rw [rescale, if_neg (by omega), Nat.add_sub_cancel_left]

theorem toNat_rescale_down {m n : Nat} (h : n ≤ m) (s : Signedness) (x : BitVec m) :
    (rescale n s s x).toNat = x.toNat / 2 ^ (m - n) := by
  obtain ⟨k, rfl⟩ := Nat.exists_eq_add_of_le h
  rw [rescale_down, Signedness.recode, if_pos rfl, toNat_ushiftRight_setWidth,
    Nat.add_sub_cancel_left]

theorem toNat_rescale_up {m n : Nat} (h : m ≤ n) (s : Signedness) (x : BitVec m) :
    (rescale n s s x).toNat = x.toNat * 2 ^ (n - m) := by
  obtain ⟨k, rfl⟩ := Nat.exists_eq_add_of_le h
  rw [rescale_up, Signedness.recode, if_pos rfl, toNat_setWidth_shiftLeft, Nat.add_sub_cancel_left]

namespace Signedness
variable {m n : Nat}

/-- In offset binary an amplitude is the distance from the middle. -/
theorem amplitude_recode (h : 0 < n) (s t : Signedness) (x : BitVec n) :
    t.amplitude (s.recode t x) = s.amplitude x := by
  have hx := toNat_lt_two_mul_half h x
  have hi := toInt_eq_ite h x
  have hf := toNat_xor_topBit h x
  have hfi := toInt_eq_ite h (x ^^^ topBit n)
  generalize hp : 2 ^ (n - 1) = p at *
  have hpi : (2 : Int) ^ (n - 1) = p := by rw [← hp]; push_cast; rfl
  cases s <;> cases t <;> simp only [recode, amplitude, reduceIte, reduceCtorEq, hpi]
  · split at hf <;> split at hi <;> omega
  · split at hf <;> split at hfi <;> omega

theorem amplitude_ushiftRight (hn : 0 < n) (t : Signedness) {k : Nat} (x : BitVec (n + k)) :
    t.amplitude ((x >>> k).setWidth n) = t.amplitude x / 2 ^ k := by
  have hk : 0 < 2 ^ k := Nat.two_pow_pos k
  have hx := toNat_ushiftRight_setWidth x
  have hc : x.toNat / 2 ^ k < 2 ^ (n - 1) ↔ x.toNat < 2 ^ (n + k - 1) := by
    rw [Nat.div_lt_iff_lt_mul hk, half_add hn]
  have hz : (2 : Int) ^ k ≠ 0 := Int.pow_ne_zero (by decide)
  have hd (c : Int) : ((x.toNat : Int) - c * 2 ^ (n + k - 1)) / 2 ^ k =
      x.toNat / 2 ^ k - c * 2 ^ (n - 1) := by
    have : (2 : Int) ^ (n + k - 1) = 2 ^ (n - 1) * 2 ^ k := by exact_mod_cast half_add hn k
    rw [this, ← Int.mul_assoc, Int.sub_eq_add_neg, ← Int.neg_mul, Int.add_mul_ediv_right _ _ hz,
      Int.sub_eq_add_neg]
  cases t with
  | signed =>
    rw [amplitude, amplitude, toInt_eq_ite hn, toInt_eq_ite (by omega), hx]
    by_cases h : x.toNat < 2 ^ (n + k - 1)
    · rw [if_pos (hc.mpr h), if_pos h]
      push_cast
      rfl
    · rw [if_neg (mt hc.mp h), if_neg h, hd]
      push_cast
      rfl
  | unsigned =>
    have := hd 1
    rw [amplitude, amplitude, hx]
    push_cast
    simpa using this.symm

theorem amplitude_shiftLeft (hm : 0 < m) (t : Signedness) {k : Nat} (x : BitVec m) :
    t.amplitude (x.setWidth (m + k) <<< k) = t.amplitude x * 2 ^ k := by
  have hk : 0 < 2 ^ k := Nat.two_pow_pos k
  have hx := toNat_setWidth_shiftLeft (k := k) x
  have hc : x.toNat * 2 ^ k < 2 ^ (m + k - 1) ↔ x.toNat < 2 ^ (m - 1) := by
    rw [half_add hm, Nat.mul_lt_mul_right hk]
  have hi : (2 : Int) ^ (m + k - 1) = 2 ^ (m - 1) * 2 ^ k := by exact_mod_cast half_add hm k
  cases t with
  | signed =>
    rw [amplitude, amplitude, toInt_eq_ite hm, toInt_eq_ite (by omega), hx]
    by_cases h : x.toNat < 2 ^ (m - 1)
    · rw [if_pos (hc.mpr h), if_pos h]
      push_cast
      rfl
    · rw [if_neg (mt hc.mp h), if_neg h, hi, Int.sub_mul, Int.mul_assoc]
      push_cast
      rfl
  | unsigned =>
    rw [amplitude, amplitude, hx, hi, Int.sub_mul]
    push_cast
    rfl

theorem amplitude_rescale (hm : 0 < m) (hn : 0 < n) (s t : Signedness) (x : BitVec m) :
    t.amplitude (rescale n s t x) = scaled m n (s.amplitude x) := by
  rw [← amplitude_recode hm s t]
  rcases Nat.le_total n m with h | h
  · obtain ⟨k, rfl⟩ := Nat.exists_eq_add_of_le h
    rw [rescale_down, scaled_down h, Nat.add_sub_cancel_left, amplitude_ushiftRight hn]
  · obtain ⟨k, rfl⟩ := Nat.exists_eq_add_of_le h
    rw [rescale_up, scaled_up h, Nat.add_sub_cancel_left, amplitude_shiftLeft hm]

theorem le_amplitude (s : Signedness) (x : BitVec n) : -2 ^ (n - 1) ≤ s.amplitude x := by
  cases s with
  | signed => exact x.le_toInt
  | unsigned =>
    rw [amplitude]
    omega

theorem amplitude_lt (h : 0 < n) (s : Signedness) (x : BitVec n) :
    s.amplitude x < 2 ^ (n - 1) := by
  have hc : ((2 ^ (n - 1) : Nat) : Int) = 2 ^ (n - 1) := by push_cast; rfl
  have hx := toNat_lt_two_mul_half h x
  cases s with
  | signed => exact x.toInt_lt
  | unsigned =>
    rw [amplitude]
    omega

theorem natAbs_amplitude_le (h : 0 < n) (s : Signedness) (x : BitVec n) :
    (s.amplitude x).natAbs ≤ 2 ^ (n - 1) := by
  have hc : ((2 ^ (n - 1) : Nat) : Int) = 2 ^ (n - 1) := by push_cast; rfl
  have hlo := s.le_amplitude x
  have hhi := s.amplitude_lt h x
  omega

theorem amplitude_injective (s : Signedness) {x y : BitVec n} (h : s.amplitude x = s.amplitude y) :
    x = y := by
  cases s with
  | signed => exact BitVec.eq_of_toInt_eq h
  | unsigned =>
    apply BitVec.eq_of_toNat_eq
    simp only [amplitude] at h
    omega

end Signedness

namespace Sample
variable {s : Signedness} {m : WordSize}

theorem amplitude_convert_integer (t : Signedness) (n : WordSize) (x : Sample (.integer s m)) :
    t.amplitude (convert (.integer t n) x) = scaled m.bits n.bits (s.amplitude x) :=
  Signedness.amplitude_rescale m.bits_pos n.bits_pos s t x

theorem convert_self (x : Sample (.integer s m)) : convert (.integer s m) x = x := by
  apply s.amplitude_injective
  rw [amplitude_convert_integer, scaled_self]

theorem convert_by_way (t u : Signedness) {k n : WordSize} (h : min m.bits n.bits ≤ k.bits)
    (x : Sample (.integer s m)) :
    convert (s := .integer t k) (.integer u n) (convert (.integer t k) x) =
      convert (.integer u n) x := by
  apply u.amplitude_injective
  rw [amplitude_convert_integer, amplitude_convert_integer, amplitude_convert_integer,
    scaled_scaled h]

/-- What an integer becomes does not depend on the way there, and a way through a width that holds it
leads back to it. -/
theorem convert_convert (t : Signedness) (k : WordSize) (x : Sample (.integer s m)) :
    (∀ (u : Signedness) (n : WordSize), min m.bits n.bits ≤ k.bits →
        convert (s := .integer t k) (.integer u n) (convert (.integer t k) x) =
          convert (.integer u n) x) ∧
      (m.bits ≤ k.bits →
        convert (s := .integer t k) (.integer s m) (convert (.integer t k) x) = x) := by
  refine ⟨fun u n h => convert_by_way t u h x, fun h => ?_⟩
  rw [convert_by_way t s (Nat.le_trans (Nat.min_le_left ..) h), convert_self]

theorem convert_convert_narrow :
    min WordSize.w32.bits WordSize.w8.bits ≤ WordSize.w16.bits ∧
      convert (s := .u16) .u8 (convert (s := .i32) .u16 0x80ff1234#32) = 0x00#8 ∧
      convert (s := .i32) .u8 0x80ff1234#32 = 0x00#8 ∧
      WordSize.w32.bits ≤ WordSize.w64.bits ∧
      convert (s := .u64) .i32 (convert (s := .i32) .u64 0x80ff1234#32) = 0x80ff1234#32 := by
  have h16 : min WordSize.w32.bits WordSize.w8.bits ≤ WordSize.w16.bits := by decide
  have hway := (convert_convert (s := .signed) (m := .w32) .unsigned .w16 0x80ff1234#32).1
    .unsigned .w8 h16
  have hback := (convert_convert (s := .signed) (m := .w32) .unsigned .w64 0x80ff1234#32).2
    (by decide)
  have hto : convert (s := .i32) .u8 0x80ff1234#32 = 0x00#8 := by decide
  exact ⟨h16, hway.trans hto, hto, by decide, hback⟩

end Sample
end RawPcm
