import RawPcm.Proofs.Floating.Value
import RawPcm.Proofs.Sample.Amplitude

/-! Floating point numbers held between two ends and scaled, all of it exactly. -/
namespace RawPcm
namespace Precision
variable {p : Precision} {n : Nat}

/-- The upper end of what becomes an integer: one less the greater of two steps. -/
def bound (p : Precision) (bits : Nat) : ℚ := 1 - max (1 / 2 ^ (bits - 1)) (1 / 2 ^ (p.digits - 1))

def held (p : Precision) (bits : Nat) (a : ℚ) : ℚ := max (min a (p.bound bits)) (-1)

/-- A pattern as a number held between minus one and an upper end. A NaN counts as above it. -/
def clamped (p : Precision) (hi : ℚ) (x : BitVec p.bits) : ℚ :=
  match p.datum x with
  | .nan => hi
  | .infinite negative => if negative then -1 else hi
  | .finite negative n => max (min (Datum.signed negative n / 2 ^ p.places) hi) (-1)

theorem max_one_div_two_pow (i j : Nat) : max (1 / 2 ^ i : ℚ) (1 / 2 ^ j) = 1 / 2 ^ min i j := by
  have hanti {i j : Nat} (h : i ≤ j) : (1 / 2 ^ j : ℚ) ≤ 1 / 2 ^ i :=
    one_div_le_one_div_of_le (by positivity) (pow_le_pow_right₀ (by norm_num) h)
  cases Nat.le_total i j with
  | inl h => rw [Nat.min_eq_left h, max_eq_left (hanti h)]
  | inr h => rw [Nat.min_eq_right h, max_eq_right (hanti h)]

theorem bound_eq (p : Precision) (n : Nat) :
    p.bound n = 1 - 1 / 2 ^ min (n - 1) (p.digits - 1) := by
  rw [bound, max_one_div_two_pow]

theorem bound_lt_one (p : Precision) (n : Nat) : p.bound n < 1 := by
  have : (0 : ℚ) < 1 / 2 ^ min (n - 1) (p.digits - 1) := by positivity
  rw [bound_eq]
  linarith

theorem one_sub_le_bound (p : Precision) {k : Nat} (hn : k ≤ n - 1) (hp : k ≤ p.digits - 1) :
    1 - 1 / 2 ^ k ≤ p.bound n := by
  have : (1 : ℚ) / 2 ^ min (n - 1) (p.digits - 1) ≤ 1 / 2 ^ k :=
    one_div_le_one_div_of_le (by positivity) (pow_le_pow_right₀ (by norm_num) (le_min hn hp))
  rw [bound_eq]
  linarith

theorem le_bound (p : Precision) (n : Nat) : -1 ≤ p.bound n := by
  have := p.one_sub_le_bound (n := n) (Nat.zero_le _) (Nat.zero_le _)
  norm_num at this
  linarith

theorem half_le_bound (p : Precision) (hn : 1 < n) : 1 / 2 ≤ p.bound n := by
  have hd : 1 < p.digits := by cases p <;> decide
  have := p.one_sub_le_bound (n := n) (k := 1) (by omega) (by omega)
  norm_num at this ⊢
  exact this

theorem clamped_of_denotes {x : BitVec p.bits} {a : ℚ} (hx : p.Denotes x a) (hi : ℚ) :
    p.clamped hi x = max (min a hi) (-1) := by
  obtain ⟨s, m, hd, hm⟩ := hx
  simp only [clamped, hd]
  rw [← hm, mul_div_cancel_right₀ _ (two_pow_pos _).ne']

theorem clamped_of_mem {x : BitVec p.bits} {a hi : ℚ} (hx : p.Denotes x a) (hlo : -1 ≤ a)
    (hhi : a ≤ hi) : p.clamped hi x = a := by
  rw [clamped_of_denotes hx, min_eq_left hhi, max_eq_left hlo]

theorem le_clamped {hi : ℚ} (h : -1 ≤ hi) (x : BitVec p.bits) : -1 ≤ p.clamped hi x := by
  unfold clamped
  split
  · exact h
  · split
    · exact le_rfl
    · exact h
  · exact le_max_right ..

theorem clamped_le {hi : ℚ} (h : -1 ≤ hi) (x : BitVec p.bits) : p.clamped hi x ≤ hi := by
  unfold clamped
  split
  · exact le_rfl
  · split
    · exact h
    · exact le_rfl
  · exact max_le (min_le_right ..) h

theorem clamped_eq_or_denotes (hi : ℚ) (x : BitVec p.bits) :
    p.clamped hi x = hi ∨ p.clamped hi x = -1 ∨ p.Denotes x (p.clamped hi x) := by
  cases hd : p.datum x with
  | nan => exact .inl (by simp only [clamped, hd])
  | infinite negative => cases negative <;> simp [clamped, hd]
  | finite negative n =>
    have hx := denotes_of_datum hd
    rw [clamped_of_denotes hx]
    rcases max_choice (min (Datum.signed negative n / 2 ^ p.places : ℚ) hi) (-1) with h | h
    · rcases min_choice (Datum.signed negative n / 2 ^ p.places : ℚ) hi with h' | h'
      · exact .inr (.inr (by rwa [h, h']))
      · exact .inl (by rw [h, h'])
    · exact .inr (.inl h)

theorem one_lt_two_pow_digits (p : Precision) : 1 < 2 ^ p.digits := by
  cases p <;> decide

theorem represents_two_pow (hn : n ≤ 64) : p.Represents ((2 ^ n : Int) : ℚ) :=
  represents_of_eq (a := 1) (k := 0) p.one_lt_two_pow_digits hn (Nat.zero_le _) (by simp)

theorem denotes_two_pow (hn : n ≤ 64) : p.Denotes (p.ofInt (2 ^ n)) (2 ^ n) := by
  have := denotes_ofInt (p := p) (represents_two_pow hn)
  rwa [Int.cast_pow, Int.cast_ofNat] at this

theorem denotes_one (p : Precision) : p.Denotes (p.ofInt 1) 1 :=
  denotes_two_pow (n := 0) (Nat.zero_le _)

theorem denotes_neg_one (p : Precision) : p.Denotes (p.ofInt (-1)) (-1) := by
  simpa using denotes_int (a := -1) (by simpa using p.one_lt_two_pow_digits)

theorem represents_one_div (hn : n ≤ p.places) : p.Represents (1 / 2 ^ n) :=
  represents_of_eq (a := 1) (j := 0) p.one_lt_two_pow_digits (Nat.zero_le _) hn
    (by field_simp; simp)

theorem represents_one_sub (hn : n ≤ p.digits) : p.Represents (1 - 1 / 2 ^ n) := by
  have hp := Nat.two_pow_pos n
  have hle : 2 ^ n ≤ 2 ^ p.digits := Nat.pow_le_pow_right (by decide) hn
  apply represents_of_eq (a := 2 ^ n - 1) (j := 0) (k := n) _ (Nat.zero_le _)
    (hn.trans p.digits_le_places)
  · push_cast
    field_simp
  · have : (2 : Int) ^ n - 1 = ((2 ^ n - 1 : Nat) : Int) := by
      rw [Nat.cast_sub hp]
      push_cast
      rfl
    rw [this, Int.natAbs_natCast]
    omega

theorem denotes_ceiling (p : Precision) (hn : n ≤ 64) : p.Denotes (p.ceiling n) (p.bound n) := by
  have hs : 64 ≤ p.places := by cases p <;> decide
  have hstep : p.Denotes (p.div (p.ofInt 1) (p.ofInt (2 ^ (n - 1)))) (1 / 2 ^ (n - 1)) :=
    denotes_div (represents_one_div (by omega)) (by positivity) p.denotes_one
      (denotes_two_pow (by omega))
  have hmax := denotes_greatest hstep p.denotes_epsilon
  have hr : p.Represents (p.bound n) := by
    rw [bound_eq]
    exact represents_one_sub (by omega)
  exact denotes_sub hr p.denotes_one hmax

theorem denotes_clamped (hn : n ≤ 64) (x : BitVec p.bits) :
    p.Denotes (p.greatest (p.least x (p.ceiling n)) (p.ofInt (-1))) (p.clamped (p.bound n) x) := by
  have hm := p.denotes_neg_one
  have hc := p.denotes_ceiling hn
  have htop : p.Denotes (p.greatest (p.ceiling n) (p.ofInt (-1))) (p.bound n) := by
    have := denotes_greatest hc hm
    rwa [max_eq_left (p.le_bound n)] at this
  obtain ⟨s, i, hcd, -⟩ := hc
  obtain ⟨t, j, hmd, hmv⟩ := hm
  cases hd : p.datum x with
  | nan =>
    have hl : p.least x (p.ceiling n) = p.ceiling n := by simp [least, hd, Datum.isNaN]
    simpa only [hl, clamped, hd] using htop
  | infinite negative =>
    cases negative with
    | false =>
      have hl : p.least x (p.ceiling n) = p.ceiling n := by
        simp [least, lt, hd, hcd, Datum.isNaN, Datum.lt]
      simpa [hl, clamped, hd] using htop
    | true =>
      have hl : p.least x (p.ceiling n) = x := by
        simp [least, lt, hd, hcd, Datum.isNaN, Datum.lt]
      have hg : p.greatest x (p.ofInt (-1)) = p.ofInt (-1) := by
        simp [greatest, lt, hd, hmd, Datum.isNaN, Datum.lt]
      simp only [hl, hg, clamped, hd, if_true]
      exact ⟨t, j, hmd, hmv⟩
  | finite negative k =>
    have hx := denotes_of_datum hd
    rw [clamped_of_denotes hx]
    exact denotes_greatest (denotes_least hx (p.denotes_ceiling hn)) ⟨t, j, hmd, hmv⟩

theorem quantize_eq_roundAway (hn : n ≤ 64) (x : BitVec p.bits) :
    ∃ y, double.Denotes y (p.clamped (p.bound n) x * 2 ^ (n - 1)) ∧
      p.quantize n x = roundAway y := by
  have hh := denotes_clamped hn x
  have habs : |p.clamped (p.bound n) x| ≤ 1 :=
    abs_le.mpr ⟨le_clamped (p.le_bound n) x,
      (clamped_le (p.le_bound n) x).trans (p.bound_lt_one n).le⟩
  have hr := hh.represents.mul_two_pow habs (by omega : n - 1 ≤ 64)
  have hs := denotes_mul hr hh (denotes_two_pow (by omega))
  exact ⟨_, denotes_cast hr.widen hs, rfl⟩

theorem denotes_half : double.Denotes (double.nearest false (2 ^ double.places) 2) (1 / 2) := by
  have hr : double.Represents (1 / 2 ^ 1) := represents_one_div (by decide)
  rw [pow_one] at hr
  refine denotes_nearest hr (by decide) ?_ (by norm_num)
  rw [abs_of_pos (by norm_num)]
  push_cast
  ring

end Precision

/-- The greatest amplitude that a number becomes. In 64 bits double precision ends before the range
does. -/
def WordSize.top : WordSize → Int
  | w64 => 2 ^ 63 - 2 ^ 11
  | n => 2 ^ (n.bits - 1) - 1

theorem Precision.bound_mul (p : Precision) (n : WordSize) :
    (quantizingPrecision p n.bits).bound n.bits * 2 ^ (n.bits - 1) = n.top := by
  have hmin : min (n.bits - 1) ((quantizingPrecision p n.bits).digits - 1) =
      min (n.bits - 1) 52 := by
    cases p <;> cases n <;> decide
  rw [bound_eq, hmin]
  cases n <;> norm_num [WordSize.top]

namespace Sample

theorem digits_le_quantizing (p : Precision) (bits : Nat) :
    p.digits ≤ (quantizingPrecision p bits).digits := by
  cases p with
  | single =>
    rw [quantizingPrecision]
    split <;> decide
  | double => rw [quantizingPrecision_double]

end Sample
end RawPcm
