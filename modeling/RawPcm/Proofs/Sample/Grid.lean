import RawPcm.Proofs.Sample.Fraction
import RawPcm.Sample.Grid

/-! Equally spaced values. Conversion takes the grid of one type to the grid of another. -/
namespace RawPcm
open Precision
variable {s : Signedness} {n : WordSize} {p : Precision} {bits k : Nat}

/-- The place of a point, counted from the middle. -/
def offset (bits k : Nat) : Int := k - 2 ^ (bits - 1)

theorem le_offset (bits k : Nat) : -2 ^ (bits - 1) ≤ offset bits k := by
  rw [offset]
  omega

theorem offset_lt (h1 : 1 ≤ bits) (hk : k < 2 ^ bits) : offset bits k < 2 ^ (bits - 1) := by
  have htwo : 2 ^ bits = 2 * 2 ^ (bits - 1) := by rw [Nat.mul_comm, Nat.two_pow_pred_mul_two h1]
  have hcast : ((2 ^ (bits - 1) : Nat) : Int) = 2 ^ (bits - 1) := by push_cast; rfl
  rw [offset]
  omega

theorem natAbs_offset_le (h1 : 1 ≤ bits) (hk : k < 2 ^ bits) :
    (offset bits k).natAbs ≤ 2 ^ (bits - 1) :=
  Sample.natAbs_le_half (le_offset bits k) (offset_lt h1 hk)

theorem Signedness.amplitude_ofInt_least {m v : Nat} (h : 0 < m) (s : Signedness) (hv : v < 2 ^ m) :
    s.amplitude (BitVec.ofInt m (v + s.least m)) = v - 2 ^ (m - 1) := by
  have htwo : 2 ^ m = 2 * 2 ^ (m - 1) := by rw [Nat.mul_comm, Nat.two_pow_pred_mul_two h]
  have hcast : ((2 ^ (m - 1) : Nat) : Int) = 2 ^ (m - 1) := by push_cast; rfl
  cases s with
  | signed =>
    rw [amplitude, least, BitVec.toInt_ofInt_eq_self h (by omega) (by omega)]
    rfl
  | unsigned =>
    rw [amplitude, least, add_zero, BitVec.ofInt_natCast, BitVec.toNat_ofNat,
      Nat.mod_eq_of_lt hv]

namespace SampleType

theorem resolved_of_le_digits {t : SampleType} {α : Type} (h1 : 1 ≤ bits) (hb : bits ≤ t.digits)
    (landmark : Nat → α) : t.resolved landmark bits = .ok (landmark bits) := by
  apply if_pos
  cases t with
  | integer s n => exact decide_eq_true ⟨h1, hb⟩
  | floating p =>
    have hd : p.digits < 64 := by cases p <;> decide
    exact decide_eq_true (Nat.lt_of_le_of_lt hb hd)

/-- In an integer type a point is its place with zeros behind it. -/
theorem amplitude_point (h1 : 1 ≤ bits) (hb : bits ≤ n.bits) (hk : k < 2 ^ bits) :
    s.amplitude ((integer s n).point bits k) = offset bits k * 2 ^ (n.bits - bits) := by
  have hp : (integer s n).point bits k =
      BitVec.ofInt n.bits ((2 ^ (n.bits - bits) * k : Nat) + s.least n.bits) := by
    rw [BitVec.ofInt_add, BitVec.ofInt_natCast, BitVec.ofNat_mul]
    rfl
  have hlt : 2 ^ (n.bits - bits) * k < 2 ^ n.bits := by
    rw [← Nat.pow_sub_mul_pow 2 hb]
    exact Nat.mul_lt_mul_of_pos_left hk (Nat.two_pow_pos _)
  have hexp : n.bits - 1 = (bits - 1) + (n.bits - bits) := by omega
  rw [hp, Signedness.amplitude_ofInt_least n.bits_pos s hlt, hexp, pow_add, offset]
  push_cast
  ring

theorem denotes_spacing (h1 : 1 ≤ bits) (hb : bits ≤ p.digits) :
    p.Denotes ((floating p).spacing bits) (1 / 2 ^ (bits - 1)) := by
  have h64 : p.digits ≤ 64 := by cases p <;> decide
  have hstep : (2 : ℚ) / 2 ^ bits = 1 / 2 ^ (bits - 1) := by
    rw [← Nat.sub_add_cancel h1, pow_succ, Nat.add_sub_cancel]
    field_simp
  have hr : p.Represents (1 / 2 ^ (bits - 1)) :=
    represents_one_div ((Nat.sub_le ..).trans (hb.trans p.digits_le_places))
  rw [← hstep] at hr ⊢
  exact denotes_div hr (two_pow_pos _).ne' (denotes_two_pow (n := 1) (by decide))
    (denotes_two_pow (hb.trans h64))

theorem denotes_point (h1 : 1 ≤ bits) (hb : bits ≤ p.digits) (hk : k < 2 ^ bits) :
    p.Denotes ((floating p).point bits k) (offset bits k / 2 ^ (bits - 1)) := by
  have hk' : (k : Int).natAbs < 2 ^ p.digits := hk.trans_le (Nat.pow_le_pow_right (by decide) hb)
  have hprod : (1 / 2 ^ (bits - 1) : ℚ) * ((k : Int) : ℚ) = (k : Int) / 2 ^ (bits - 1) := by
    field_simp
  have hsum : ((k : Int) / 2 ^ (bits - 1) + -1 : ℚ) = offset bits k / 2 ^ (bits - 1) := by
    rw [offset]
    push_cast
    field_simp
    ring
  have hrm := represents_div_two_pow (p := p) (k := bits - 1) hk'.le
    ((Nat.sub_le ..).trans (hb.trans p.digits_le_places))
  have hrs := Sample.represents_fraction (p := p) hb h1 (natAbs_offset_le h1 hk)
  rw [← hprod] at hrm
  rw [← hsum, ← hprod] at hrs ⊢
  exact denotes_add hrs (denotes_mul hrm (denotes_spacing h1 hb) (denotes_int hk')) p.denotes_neg_one

theorem point_of_offset_eq_zero (h1 : 1 ≤ bits) (hb : bits ≤ p.digits) (hk : k < 2 ^ bits)
    (h0 : offset bits k = 0) : (floating p).point bits k = 0#p.bits := by
  have hk1 : (k : ℤ) = 2 ^ (bits - 1) := by
    rw [offset] at h0
    omega
  have hone : (1 / 2 ^ (bits - 1) : ℚ) * ((k : Int) : ℚ) = 1 := by
    rw [hk1]
    push_cast
    field_simp
  have hk' : (k : Int).natAbs < 2 ^ p.digits := hk.trans_le (Nat.pow_le_pow_right (by decide) hb)
  have hm := denotes_mul (by rw [hone]; exact p.denotes_one.represents) (denotes_spacing h1 hb)
    (denotes_int hk')
  rw [hone] at hm
  exact add_eq_zero hm p.denotes_neg_one one_pos

end SampleType

namespace Sample
open SampleType

theorem dequantize_of_amplitude_eq_zero {x : Sample (.integer s n)} (h : s.amplitude x = 0) :
    x.dequantize p = 0#p.bits := by
  have hi : (s.recode .signed x).toInt = 0 :=
    (Signedness.amplitude_recode n.bits_pos s .signed x).trans h
  rw [dequantize, hi]
  cases p <;> cases n <;> decide +kernel

/-- A fraction other than zero has one pattern only, and zero is written without a sign. -/
theorem eq_point (h1 : 1 ≤ bits) (hb : bits ≤ p.digits) (hk : k < 2 ^ bits)
    {x : Sample (.floating p)} (hx : p.Denotes x (offset bits k / 2 ^ (bits - 1)))
    (h0 : offset bits k = 0 → x = 0#p.bits) : x = (floating p).point bits k := by
  by_cases h : offset bits k = 0
  · rw [h0 h, point_of_offset_eq_zero h1 hb hk h]
  · have hne : (offset bits k / 2 ^ (bits - 1) : ℚ) ≠ 0 :=
      div_ne_zero (by exact_mod_cast h) (two_pow_pos _).ne'
    exact hx.injective (denotes_point h1 hb hk) hne

theorem convert_point_eq {s t : SampleType} (h1 : 1 ≤ bits) (hs : bits ≤ s.digits)
    (ht : bits ≤ t.digits) (hk : k < 2 ^ bits) :
    convert t (s.point bits k) = t.point bits k := by
  cases s with
  | integer s m =>
    have hm : bits ≤ m.bits := hs
    have hx := amplitude_point (s := s) h1 hm hk
    cases t with
    | integer t n =>
      have hn : bits ≤ n.bits := ht
      apply t.amplitude_injective
      rw [amplitude_convert_integer, hx, amplitude_point h1 hn hk, ← scaled_up hm, ← scaled_up hn,
        scaled_scaled ((Nat.min_le_left ..).trans hm)]
    | floating q =>
      apply eq_point h1 ht hk (denotes_dequantize hs ht h1 (natAbs_offset_le h1 hk) hx)
      intro h0
      exact dequantize_of_amplitude_eq_zero (by rw [hx, h0, zero_mul])
  | floating p =>
    have hx := denotes_point (p := p) h1 hs hk
    cases t with
    | integer t n =>
      apply t.amplitude_injective
      rw [amplitude_point h1 ht hk]
      exact amplitude_quantize ht hs h1 (le_offset bits k) (offset_lt h1 hk) hx
    | floating q =>
      apply eq_point h1 ht hk (denotes_cast (denotes_point h1 ht hk).represents
        (denotes_cast hx.represents.widen hx))
      intro h0
      rw [point_of_offset_eq_zero h1 hs hk h0]
      cases p <;> cases q <;> decide +kernel

/-- At every resolution that both types have the digits for, a point becomes the point of the same
number. -/
theorem convert_point {s t : SampleType} (h1 : 1 ≤ bits) (hs : bits ≤ s.digits)
    (ht : bits ≤ t.digits) (hk : k < 2 ^ bits) :
    ∃ x, s.resolved (s.point · k) bits = .ok x ∧
      t.resolved (t.point · k) bits = .ok (convert t x) := by
  refine ⟨s.point bits k, resolved_of_le_digits h1 hs _, ?_⟩
  rw [convert_point_eq h1 hs ht hk]
  exact resolved_of_le_digits h1 ht _

theorem convert_point_last_of_53_bits :
    1 ≤ 53 ∧ 53 ≤ SampleType.f64.digits ∧ 53 ≤ SampleType.u64.digits ∧ 2 ^ 53 - 1 < 2 ^ 53 ∧
      ∃ x, SampleType.f64.resolved (SampleType.f64.point · (2 ^ 53 - 1)) 53 = .ok x ∧
        SampleType.u64.resolved (SampleType.u64.point · (2 ^ 53 - 1)) 53 =
          .ok (convert (s := .f64) .u64 x) ∧
        convert (s := .f64) .u64 x = 0xfffffffffffff800#64 := by
  obtain ⟨x, hx, hy⟩ := convert_point (s := .f64) (t := .u64) (k := 2 ^ 53 - 1)
    (by decide : 1 ≤ 53) (by decide) (by decide) (by decide)
  have hlast : SampleType.u64.resolved (SampleType.u64.point · (2 ^ 53 - 1)) 53 =
      .ok 0xfffffffffffff800#64 := by decide +kernel
  exact ⟨by decide, by decide, by decide, by decide, x, hx, hy,
    Except.ok.inj (hy.symm.trans hlast)⟩

end Sample
end RawPcm
