import RawPcm.Proofs.Floating.Digits
import RawPcm.Proofs.Sample.Quantize

/-! Rounding by way of a half that is added in double precision. The sum may get as far as the next
integer. -/
namespace RawPcm

/-- The nearest integer; of two that are as near the one farther from zero. -/
def nearestAway (a : ℚ) : Int := if a < 0 then ⌈a - 1 / 2⌉ else ⌊a + 1 / 2⌋

/-- Numbers of double precision that are carried too far by a half: the greatest one below a half, and
the odd integers that leave no digit for it. -/
def Overshoots (a : ℚ) : Prop :=
  |a| = 1 / 2 - 1 / 2 ^ 54 ∨ 2 ^ 52 < |a| ∧ |a| < 2 ^ 53 ∧ ⌊|a|⌋ % 2 = 1

instance (a : ℚ) : Decidable (Overshoots a) :=
  inferInstanceAs (Decidable (_ ∨ _))

def overshoot (a : ℚ) : Int := if Overshoots a then (if a < 0 then -1 else 1) else 0

section Rational
variable {a b : ℚ}

theorem nearestAway_of_nonneg (h : 0 ≤ a) : nearestAway a = ⌊a + 1 / 2⌋ := by
  rw [nearestAway, if_neg (not_lt.mpr h)]

theorem nearestAway_of_nonpos (h : a ≤ 0) : nearestAway a = -⌊-a + 1 / 2⌋ := by
  rcases h.lt_or_eq with h | rfl
  · rw [nearestAway, if_pos h, ← Int.ceil_neg]
    congr 1
    ring
  · norm_num [nearestAway]

theorem abs_nearestAway_sub_le (a : ℚ) : |nearestAway a - a| ≤ 1 / 2 := by
  rw [abs_le]
  rcases le_total 0 a with h | h
  · have h1 := Int.floor_le (a + 1 / 2)
    have h2 := Int.lt_floor_add_one (a + 1 / 2)
    rw [nearestAway_of_nonneg h]
    constructor <;> linarith
  · have h1 := Int.floor_le (-a + 1 / 2)
    have h2 := Int.lt_floor_add_one (-a + 1 / 2)
    rw [nearestAway_of_nonpos h]
    push_cast
    constructor <;> linarith

theorem abs_lt_nearestAway (h : |nearestAway a - a| = 1 / 2) : |a| < |(nearestAway a : ℚ)| := by
  rcases le_total 0 a with ha | ha
  · have hlt := Int.lt_floor_add_one (a + 1 / 2)
    rw [nearestAway_of_nonneg ha] at h ⊢
    rw [abs_eq (by norm_num)] at h
    rw [abs_of_nonneg ha]
    refine lt_of_lt_of_le ?_ (le_abs_self _)
    rcases h with h | h <;> linarith
  · have hlt := Int.lt_floor_add_one (-a + 1 / 2)
    rw [nearestAway_of_nonpos ha] at h ⊢
    push_cast at h ⊢
    rw [abs_eq (by norm_num)] at h
    rw [abs_of_nonpos ha, abs_neg]
    refine lt_of_lt_of_le ?_ (le_abs_self _)
    rcases h with h | h <;> linarith

theorem nearestAway_intCast (m : ℤ) : nearestAway m = m := by
  rcases le_total 0 m with h | h
  · rw [nearestAway_of_nonneg (by exact_mod_cast h), Int.floor_intCast_add]
    norm_num
  · rw [nearestAway_of_nonpos (by exact_mod_cast h), ← Int.cast_neg, Int.floor_intCast_add]
    norm_num

theorem overshoots_neg : Overshoots (-a) ↔ Overshoots a := by
  rw [Overshoots, Overshoots, abs_neg]

theorem overshoot_of_nonneg (h : 0 ≤ a) : overshoot a = if Overshoots a then 1 else 0 := by
  rw [overshoot, if_neg (not_lt.mpr h)]

theorem overshoot_of_nonpos (h : a ≤ 0) : overshoot a = -if Overshoots a then 1 else 0 := by
  rcases h.lt_or_eq with h | rfl
  · rw [overshoot, if_pos h]
    split <;> rfl
  · have h0 : ¬ Overshoots 0 := by norm_num [Overshoots]
    rw [overshoot, if_neg h0, if_neg h0, Int.neg_zero]

theorem overshoot_eq_zero_iff : overshoot a = 0 ↔ ¬ Overshoots a := by
  rw [overshoot]
  split
  · rename_i h
    simp only [h, not_true, iff_false]
    split <;> decide
  · rename_i h
    simp only [h, not_false_iff]

theorem overshoots_intCast {m : ℤ} :
    Overshoots m ↔ 2 ^ 52 < m.natAbs ∧ m.natAbs < 2 ^ 53 ∧ m % 2 = 1 := by
  have hhalf : (m.natAbs : ℚ) ≠ 1 / 2 - 1 / 2 ^ 54 := by
    intro h
    have h0 : (0 : ℚ) < m.natAbs := by rw [h]; norm_num
    have h1 : (m.natAbs : ℚ) < 1 := by rw [h]; norm_num
    have h0 : 0 < m.natAbs := by exact_mod_cast h0
    have h1 : m.natAbs < 1 := by exact_mod_cast h1
    omega
  have hodd : (m.natAbs : ℤ) % 2 = 1 ↔ m % 2 = 1 := by omega
  rw [Overshoots, ← Int.cast_abs, Int.abs_eq_natAbs, Int.cast_natCast, Int.floor_natCast,
    or_iff_right hhalf, hodd]
  norm_cast

theorem not_overshoots_intCast {m : ℤ} (h : m.natAbs ≤ 2 ^ 52) : ¬ Overshoots m := by
  rw [overshoots_intCast]
  omega

theorem Overshoots.exists_odd (h : Overshoots a) (ha : Precision.double.Represents a) :
    ∃ n j : Nat, n % 2 = 1 ∧ 2 ^ 52 < n ∧ |a| * 2 ^ j = n := by
  have hlead : Precision.double.digits - 1 = 52 := rfl
  rcases h with h | ⟨hlo, -, hodd⟩
  · refine ⟨2 ^ 53 - 1, 54, by decide, by decide, ?_⟩
    rw [h]
    norm_num
  · obtain ⟨m, hm⟩ := ha.exists_int (k := 0) (by rw [hlead, pow_zero, mul_one]; exact hlo.le)
    rw [pow_zero, mul_one] at hm
    have habs : |a| = m.natAbs := by rw [hm, Nat.cast_natAbs, Int.cast_abs]
    rw [habs] at hlo hodd
    refine ⟨m.natAbs, 0, ?_, by exact_mod_cast hlo, by rw [pow_zero, mul_one, habs]⟩
    rw [Int.floor_natCast] at hodd
    omega

end Rational

namespace Precision
variable {x y : BitVec double.bits} {a b : ℚ}

theorem double_places : ∃ q, double.places = q + 1 ∧ q < 2000 := ⟨1073, rfl, by decide⟩

/-- A half behind a significand of all digits is a tie if the significand ends at the point, and too
small to count if it ends in front of it. -/
theorem roundHalfEven_half {f j : Nat} :
    roundHalfEven (f * 2 ^ (j + 1) + 1) (2 ^ (j + 1)) = if j = 0 then f + f % 2 else f := by
  have hpos : 0 < 2 ^ (j + 1) := Nat.two_pow_pos _
  have hone : 1 < 2 ^ (j + 1) := Nat.one_lt_two_pow (Nat.succ_ne_zero j)
  have hq : (f * 2 ^ (j + 1) + 1) / 2 ^ (j + 1) = f := by
    rw [Nat.mul_comm, Nat.mul_add_div hpos, Nat.div_eq_of_lt hone, Nat.add_zero]
  have hr : (f * 2 ^ (j + 1) + 1) % 2 ^ (j + 1) = 1 := by
    rw [Nat.mul_comm, Nat.mul_add_mod, Nat.mod_eq_of_lt hone]
  simp only [roundHalfEven, hq, hr]
  cases j with
  | zero => simp
  | succ j =>
    have : 1 < 2 ^ (j + 1) := Nat.one_lt_two_pow (Nat.succ_ne_zero j)
    rw [if_pos (by rw [Nat.pow_succ]; omega), if_neg (Nat.succ_ne_zero j)]

theorem denotes_add_half {f j : Nat} (hf : 2 ^ 52 ≤ f) (hf' : f < 2 ^ 53) (hj : j < 12)
    (hx : double.Rounds x ((f * 2 ^ j : Nat) + 1 / 2)) :
    double.Denotes x ((if j = 0 then f + f % 2 else f) * 2 ^ j : Nat) := by
  obtain ⟨q, hq, hlt⟩ := double_places
  have hdig : double.digits = 53 := rfl
  have hwid : 2 ^ (double.bits - double.digits) = 2048 := by decide
  have hpow : 2 ^ (q + 1 + j) = 2 ^ (j + 1) * 2 ^ q := by
    rw [← Nat.pow_add]
    congr 1
    omega
  have hpos : 0 < 2 ^ q := Nat.two_pow_pos _
  have hone : 1 < 2 ^ (j + 1) := Nat.one_lt_two_pow (Nat.succ_ne_zero j)
  have hd := hx.denotes_of_digits (n := (f * 2 ^ (j + 1) + 1) * 2 ^ q) (e := q + 1 + j)
    (by
      rw [hq]
      push_cast
      ring)
    (by omega)
    (.inr (by
      rw [hpow, hdig, ← Nat.mul_assoc]
      exact Nat.mul_le_mul_right _ ((Nat.mul_le_mul_right _ hf).trans (Nat.le_succ _))))
    (by
      rw [hpow, hdig, ← Nat.mul_assoc]
      apply Nat.mul_lt_mul_of_pos_right _ hpos
      have := Nat.mul_le_mul_right (2 ^ (j + 1)) hf'
      rw [Nat.succ_mul] at this
      omega)
  rw [hpow, roundHalfEven_mul_mul _ _ hpos, roundHalfEven_half, hq] at hd
  convert hd using 1
  push_cast
  field_simp
  ring

theorem overshoots_shift {f j : Nat} (hf : 2 ^ 52 ≤ f) (hf' : f < 2 ^ 53) :
    Overshoots (f * 2 ^ j : Nat) ↔ j = 0 ∧ f % 2 = 1 := by
  have hle : f ≤ f * 2 ^ j := Nat.le_mul_of_pos_right f (Nat.two_pow_pos j)
  rw [Overshoots, Nat.abs_cast, Int.floor_natCast]
  constructor
  · rintro (h | ⟨-, hlt, hodd⟩)
    · have : (2 ^ 52 : ℚ) ≤ (f * 2 ^ j : Nat) := by exact_mod_cast hf.trans hle
      rw [h] at this
      norm_num at this
    · have hlt : f * 2 ^ j < 2 ^ 53 := by exact_mod_cast hlt
      cases j with
      | zero =>
        rw [Nat.pow_zero, Nat.mul_one] at hodd
        omega
      | succ j =>
        have htwo : 2 ^ 1 ≤ 2 ^ (j + 1) := Nat.pow_le_pow_right Nat.two_pos (Nat.succ_pos j)
        have := Nat.mul_le_mul hf htwo
        omega
  · rintro ⟨rfl, hodd⟩
    have hlt : 2 ^ 52 < f := by omega
    rw [Nat.pow_zero, Nat.mul_one]
    exact .inr ⟨by exact_mod_cast hlt, by exact_mod_cast hf', by exact_mod_cast hodd⟩

theorem floor_add_half_of_le (hb : double.Represents b) (hlo : 2 ^ 52 ≤ b) (hhi : b ≤ 2 ^ 63)
    (hx : double.Rounds x (b + 1 / 2)) :
    ∃ c, double.Denotes x c ∧ ⌊c⌋ = ⌊b + 1 / 2⌋ + if Overshoots b then 1 else 0 := by
  obtain ⟨f, j, rfl, hf, hf'⟩ := hb.exists_shift hlo
  have hf : 2 ^ 52 ≤ f := hf
  have hf' : f < 2 ^ 53 := hf'
  have hj : j < 12 := by
    have hle : f * 2 ^ j ≤ 2 ^ 63 := by exact_mod_cast hhi
    have := (Nat.mul_le_mul_right (2 ^ j) hf).trans hle
    rw [← Nat.pow_add] at this
    have := (Nat.pow_le_pow_iff_right (by decide)).mp this
    omega
  refine ⟨_, denotes_add_half hf hf' hj hx, ?_⟩
  have hfl : ⌊((f * 2 ^ j : Nat) : ℚ) + 1 / 2⌋ = (f * 2 ^ j : Nat) := by
    rw [Int.floor_natCast_add]
    norm_num
  simp only [overshoots_shift hf hf', hfl, Int.floor_natCast]
  rcases Nat.eq_zero_or_pos j with rfl | hj
  · rcases Nat.mod_two_eq_zero_or_one f with h | h <;> simp [h]
  · simp [hj.ne']

/-- The sum of a half and the number just below it is a tie, and one is even. -/
theorem floor_add_half_of_eq (hx : double.Rounds x (1 / 2 - 1 / 2 ^ 54 + 1 / 2)) :
    double.Denotes x 1 := by
  have hdig : double.digits = 53 := rfl
  obtain ⟨q, hq, hlt⟩ : ∃ q, double.places = q + 54 ∧ q < 2000 := ⟨1020, rfl, by decide⟩
  have hwid : 2 ^ (double.bits - double.digits) = 2048 := by decide
  have hpos : 0 < 2 ^ q := Nat.two_pow_pos _
  have hd := hx.denotes_of_digits (n := (2 ^ 54 - 1) * 2 ^ q) (e := q + 1)
    (by
      rw [hq, pow_add]
      push_cast
      ring)
    (by omega)
    (.inr (by rw [hdig, Nat.pow_succ]; omega))
    (by rw [hdig, Nat.pow_succ]; omega)
  have hr : roundHalfEven (2 ^ 54 - 1) 2 = 2 ^ 53 := by decide
  have hs : 2 ^ (q + 1) = 2 * 2 ^ q := by rw [Nat.pow_succ, Nat.mul_comm]
  rw [hs, roundHalfEven_mul_mul _ _ hpos, hr, hq] at hd
  convert hd using 1
  rw [pow_add]
  push_cast
  field_simp
  norm_num

/-- A number has as many places behind the point as its integer part leaves digits for, and the integer
part has no digit more even when it is counted on. -/
theorem exists_places (hb : double.Represents b) {n : Nat} (h0 : n ≠ 0) (hn : n < 2 ^ 52)
    (hnb : n ≤ b) :
    ∃ (k : Nat) (a : ℤ), k < 52 ∧ (n + 1) * 2 ^ (k + 1) ≤ 2 ^ 53 ∧ b * 2 ^ (k + 1) = a := by
  have hlo : 2 ^ n.log2 ≤ n := Nat.log2_self_le h0
  have hhi : n + 1 ≤ 2 ^ (n.log2 + 1) := Nat.lt_log2_self
  obtain ⟨k, hk⟩ := Nat.exists_eq_add_of_lt ((Nat.log2_lt h0).mpr hn)
  have hlead : 2 ^ 52 ≤ n * 2 ^ (k + 1) := by
    rw [hk, Nat.add_assoc, Nat.pow_add]
    exact Nat.mul_le_mul_right _ hlo
  have htop : (n + 1) * 2 ^ (k + 1) ≤ 2 ^ 53 := by
    refine (Nat.mul_le_mul_right _ hhi).trans (Nat.le_of_eq ?_)
    rw [← Nat.pow_add]
    congr 1
    omega
  obtain ⟨a, ha⟩ := hb.exists_int (k := k + 1) (by
    rw [abs_of_nonneg ((Nat.cast_nonneg n).trans hnb)]
    have : ((2 ^ 52 : Nat) : ℚ) ≤ (n * 2 ^ (k + 1) : Nat) := by exact_mod_cast hlead
    push_cast at this
    exact this.trans (by gcongr))
  exact ⟨k, a, by omega, htop, ha⟩

theorem denotes_add_half_of_lt (hb : double.Represents b) {m : ℤ} (h1 : 1 ≤ m) (hm : m < 2 ^ 52)
    (hmb : m ≤ b) (hbm : b + 1 / 2 < m + 1) (hx : double.Rounds x (b + 1 / 2)) :
    double.Denotes x (b + 1 / 2) := by
  obtain ⟨n, rfl⟩ := Int.eq_ofNat_of_zero_le (by omega : 0 ≤ m)
  have hnb : (n : ℚ) ≤ b := by exact_mod_cast hmb
  have hb0 : (0 : ℚ) ≤ b := (Nat.cast_nonneg n).trans hnb
  obtain ⟨k, a, hk, htop, ha⟩ := exists_places hb (by omega) (by omega) hnb
  have hpos : (0 : ℚ) < 2 ^ (k + 1) := by positivity
  have hsum : b + 1 / 2 = ((a + 2 ^ k : ℤ) : ℚ) / 2 ^ (k + 1) := by
    rw [eq_div_iff hpos.ne', add_mul, ha, pow_succ]
    push_cast
    ring
  have ha0 : 0 ≤ a + 2 ^ k := by
    have : (0 : ℚ) ≤ ((a + 2 ^ k : ℤ) : ℚ) := by
      rw [← div_mul_cancel₀ ((a + 2 ^ k : ℤ) : ℚ) hpos.ne', ← hsum]
      positivity
    exact_mod_cast this
  have hlt : a + 2 ^ k < 2 ^ 53 := by
    have hp : ((n : ℚ) + 1) * 2 ^ (k + 1) ≤ 2 ^ 53 := by exact_mod_cast htop
    rw [hsum, div_lt_iff₀ hpos] at hbm
    exact_mod_cast hbm.trans_le hp
  have hd : (a + 2 ^ k).natAbs ≤ 2 ^ double.digits := by
    have : double.digits = 53 := rfl
    rw [this]
    omega
  have hr : double.Represents (b + 1 / 2) := by
    rw [hsum]
    exact represents_div_two_pow hd (by have : double.places = 1074 := rfl; omega)
  exact hx.denotes hr

theorem le_sub_half (hb : double.Represents b) (h0 : 0 ≤ b) (hlt : b < 2 ^ 52) :
    b ≤ 2 ^ 52 - 1 / 2 := by
  have hlead : double.digits - 1 = 52 := rfl
  rcases lt_or_ge b (2 ^ 51) with h | h
  · linarith
  have := hb.le_of_lt (k := 1) (m := 2 ^ 53) (by
    rw [hlead, abs_of_nonneg h0]
    linarith) (by
    push_cast
    linarith)
  push_cast at this
  linarith

theorem le_of_lt_half (hb : double.Represents b) (h0 : 0 ≤ b) (hlt : b < 1 / 2)
    (hne : b ≠ 1 / 2 - 1 / 2 ^ 54) : b ≤ 1 / 2 - 1 / 2 ^ 53 := by
  have hlead : double.digits - 1 = 52 := rfl
  rcases lt_or_ge b (1 / 4) with h | h
  · norm_num at h ⊢
    linarith
  have hk : 2 ^ (double.digits - 1) ≤ |b| * 2 ^ 54 := by
    rw [hlead, abs_of_nonneg h0]
    linarith
  have hle := hb.le_of_lt (m := 2 ^ 53) hk (by
    norm_num at hlt ⊢
    exact hlt)
  have := hb.le_of_lt (m := 2 ^ 53 - 1) hk (by
    apply lt_of_le_of_ne hle
    norm_num at hne ⊢
    exact hne)
  norm_num at this ⊢
  exact this

/-- Short of the next integer there is a number of the precision that the sum does not get past. -/
theorem lt_floor_add_one_of_rounds (hb : double.Represents b) (h0 : 0 ≤ b) (hhi : b < 2 ^ 52)
    (hne : b ≠ 1 / 2 - 1 / 2 ^ 54) (hx : double.Rounds x (b + 1 / 2)) {c : ℚ}
    (hc : double.Denotes x c) : c < ⌊b + 1 / 2⌋ + 1 := by
  have hdig : double.digits = 53 := rfl
  set m := ⌊b + 1 / 2⌋ with hm
  have hm0 : 0 ≤ m := Int.floor_nonneg.mpr (by positivity)
  have hmle : (m : ℚ) ≤ b + 1 / 2 := Int.floor_le _
  have hltm : b + 1 / 2 < m + 1 := Int.lt_floor_add_one _
  have hm52 : m ≤ 2 ^ 52 := Int.floor_le_iff.mpr (by push_cast; linarith)
  rcases le_or_gt b m with hbm | hmb
  · rcases Int.lt_or_eq_of_le hm52 with hlt | heq
    · -- The half behind the integer is a number of the precision.
      have hr : double.Represents (((2 * m + 1 : ℤ) : ℚ) / 2 ^ 1) :=
        represents_div_two_pow (by rw [hdig]; omega) (by decide)
      have := hx.le hc hr (by push_cast; linarith)
      push_cast at this
      linarith
    · -- The last number in front of the integer is a half away, and the sum stops at the integer.
      have hr : double.Represents ((2 ^ 52 : ℤ) : ℚ) := represents_int (by decide)
      have hle := le_sub_half hb h0 hhi
      have := hx.le hc hr (by push_cast; linarith)
      rw [heq]
      push_cast at this ⊢
      linarith
  · rcases Int.lt_or_eq_of_le hm0 with h1 | h0m
    · -- The sum has digits enough behind the point and is not rounded.
      have hlt : m < 2 ^ 52 := by exact_mod_cast hmb.trans hhi
      rwa [hc.unique (denotes_add_half_of_lt hb h1 hlt hmb.le hltm hx)]
    · -- Below a half the sum stops at the number below one.
      rw [← h0m, Int.cast_zero] at hltm ⊢
      have hr : double.Represents (((2 ^ 53 - 1 : ℤ) : ℚ) / 2 ^ 53) :=
        represents_div_two_pow (by decide) (by decide)
      have hle := le_of_lt_half hb h0 (by linarith) hne
      have := hx.le hc hr (by push_cast; linarith)
      push_cast at this
      linarith

/-- Up to two to the power 52 only the number just below a half is carried too far. -/
theorem floor_add_half_of_lt (hb : double.Represents b) (h0 : 0 ≤ b) (hhi : b < 2 ^ 52)
    (hx : double.Rounds x (b + 1 / 2)) :
    ∃ c, double.Denotes x c ∧ ⌊c⌋ = ⌊b + 1 / 2⌋ + if Overshoots b then 1 else 0 := by
  have hover : Overshoots b ↔ b = 1 / 2 - 1 / 2 ^ 54 := by
    rw [Overshoots, abs_of_nonneg h0]
    exact or_iff_left fun h => absurd h.1 (not_lt.mpr hhi.le)
  by_cases heq : b = 1 / 2 - 1 / 2 ^ 54
  · refine ⟨1, floor_add_half_of_eq (heq ▸ hx), ?_⟩
    rw [if_pos (hover.mpr heq), heq]
    norm_num
  rw [if_neg (mt hover.mp heq), add_zero]
  have hr53 : double.Represents ((2 ^ 53 : ℤ) : ℚ) := represents_int (by decide)
  obtain ⟨c, hc⟩ := hx.exists_denotes hr53 (by
    rw [abs_of_nonneg (by positivity)]
    push_cast
    linarith)
  have hm0 : 0 ≤ ⌊b + 1 / 2⌋ := Int.floor_nonneg.mpr (by positivity)
  have hm52 : ⌊b + 1 / 2⌋ ≤ 2 ^ 52 := Int.floor_le_iff.mpr (by push_cast; linarith)
  have hr : double.Represents (⌊b + 1 / 2⌋ : ℚ) :=
    represents_int (by have : double.digits = 53 := rfl; rw [this]; omega)
  exact ⟨c, hc, Int.floor_eq_iff.mpr ⟨hx.ge hc hr (Int.floor_le _),
    lt_floor_add_one_of_rounds hb h0 hhi heq hx hc⟩⟩

theorem represents_half : double.Represents (1 / 2) := denotes_half.represents

theorem floor_add_half (hb : double.Represents b) (h0 : 0 ≤ b) (hhi : b ≤ 2 ^ 63)
    (hx : double.Rounds x (b + 1 / 2)) : ∃ c, double.Denotes x c ∧ 0 < c ∧
      ⌊c⌋ = ⌊b + 1 / 2⌋ + if Overshoots b then 1 else 0 := by
  have hpos {c : ℚ} (hc : double.Denotes x c) : 0 < c := by
    have := hx.ge hc represents_half (by linarith)
    linarith
  rcases lt_or_ge b (2 ^ 52) with h | h
  · obtain ⟨c, hc, he⟩ := floor_add_half_of_lt hb h0 h hx
    exact ⟨c, hc, hpos hc, he⟩
  · obtain ⟨c, hc, he⟩ := floor_add_half_of_le hb h hhi hx
    exact ⟨c, hc, hpos hc, he⟩

theorem floor_add_overshoot_le {k : ℤ} (h0 : 0 ≤ b) (h : b ≤ k) (hk : 2 ^ 54 ≤ k) :
    ⌊b + 1 / 2⌋ + (if Overshoots b then 1 else 0) ≤ k := by
  split
  · rename_i ho
    have hb : b ≤ 2 ^ 53 := by
      rw [Overshoots, abs_of_nonneg h0] at ho
      rcases ho with rfl | ho
      · norm_num
      · exact ho.2.1.le
    have : ⌊b + 1 / 2⌋ ≤ 2 ^ 53 := Int.floor_le_iff.mpr (by push_cast; linarith)
    omega
  · rw [add_zero]
    exact Int.floor_le_iff.mpr (by linarith)

theorem roundAway_eq (hy : double.Denotes y a) (hlo : -2 ^ 63 ≤ a) (hhi : a ≤ 2 ^ 63 - 1) :
    roundAway y = nearestAway a + overshoot a := by
  have h0 : double.Denotes (double.ofInt 0) ((0 : Int) : ℚ) := denotes_int (by decide)
  have hlt := lt_of_denotes h0 hy
  have hmin : Signedness.signed.least 64 = -2 ^ 63 := rfl
  have hmax : Signedness.signed.greatest 64 = 2 ^ 63 - 1 := rfl
  rw [Int.cast_zero] at hlt
  simp only [roundAway, hlt, hmin, hmax, decide_eq_true_eq]
  by_cases hpos : 0 < a
  · obtain ⟨c, hc, hc0, he⟩ := floor_add_half hy.represents hpos.le (by linarith)
      (rounds_add hy denotes_half)
    have hle := floor_add_overshoot_le (k := 2 ^ 63 - 1) hpos.le (by push_cast; linarith)
      (by decide)
    have hge : 0 ≤ ⌊c⌋ := Int.floor_nonneg.mpr hc0.le
    rw [if_pos hpos, truncate_of_denotes hc, if_neg (not_lt.mpr hc0.le),
      nearestAway_of_nonneg hpos.le, overshoot_of_nonneg hpos.le]
    omega
  · have hneg := not_lt.mp hpos
    have hsub := (rounds_sub hy denotes_half).neg
    rw [neg_sub, sub_eq_add_neg, add_comm] at hsub
    obtain ⟨c, hc, hc0, he⟩ := floor_add_half hy.represents.neg (by linarith) (by linarith) hsub
    have hle := floor_add_overshoot_le (b := -a) (k := 2 ^ 63) (by linarith)
      (by push_cast; linarith) (by decide)
    have hge : 0 ≤ ⌊c⌋ := Int.floor_nonneg.mpr hc0.le
    have hd := denotes_neg hc
    rw [neg_involutive] at hd
    simp only [overshoots_neg] at he hle
    rw [if_neg hpos, truncate_of_denotes hd, if_pos (by linarith), Int.ceil_neg, he,
      nearestAway_of_nonpos hneg, overshoot_of_nonpos hneg]
    omega

/-- What is carried too far is not carried past what lies above it. -/
theorem roundAway_mono (hx : double.Denotes x a) (hy : double.Denotes y b) (ha : |a| ≤ 2 ^ 63)
    (hb : |b| ≤ 2 ^ 63) (h : a ≤ b) : roundAway x ≤ roundAway y := by
  have h0 : double.Denotes (double.ofInt 0) ((0 : Int) : ℚ) := denotes_int (by decide)
  have hr64 : double.Represents ((2 ^ 64 : ℤ) : ℚ) := represents_two_pow (by decide)
  have hx0 := lt_of_denotes h0 hx
  have hy0 := lt_of_denotes h0 hy
  rw [Int.cast_zero] at hx0 hy0
  have hsum {z : BitVec double.bits} {q : ℚ} (hq : |q| ≤ 2 ^ 63) (hz : double.Denotes z q) :
      (∃ c, double.Denotes (double.add z (double.nearest false (2 ^ double.places) 2)) c) ∧
        ∃ c, double.Denotes (double.sub z (double.nearest false (2 ^ double.places) 2)) c := by
    have := abs_le.mp hq
    exact ⟨(rounds_add hz denotes_half).exists_denotes hr64
        (abs_le.mpr ⟨by push_cast; linarith, by push_cast; linarith⟩),
      (rounds_sub hz denotes_half).exists_denotes hr64
        (abs_le.mpr ⟨by push_cast; linarith, by push_cast; linarith⟩)⟩
  obtain ⟨⟨c, hc⟩, ⟨d, hd⟩⟩ := hsum ha hx
  obtain ⟨⟨c', hc'⟩, ⟨d', hd'⟩⟩ := hsum hb hy
  simp only [roundAway, hx0, hy0, decide_eq_true_eq]
  split
  · rename_i hpos
    rw [if_pos (hpos.trans_le h)]
    refine truncate_mono hc hc' (hc.le_of_rank_le hc' ?_) _ _
    exact (rounds_add hx denotes_half).rank_le (rounds_add hy denotes_half) (by linarith)
  · rename_i hneg
    split
    · refine truncate_mono hd hc' (hd.le_of_rank_le hc' ?_) _ _
      exact (rounds_sub hx denotes_half).rank_le (rounds_add hy denotes_half) (by linarith)
    · refine truncate_mono hd hd' (hd.le_of_rank_le hd' ?_) _ _
      exact (rounds_sub hx denotes_half).rank_le (rounds_sub hy denotes_half) (by linarith)

theorem roundAway_intCast {m : ℤ} (hy : double.Denotes y m) (h : m.natAbs < 2 ^ 63)
    (ho : ¬ Overshoots m) : roundAway y = m := by
  have hlo : (-2 ^ 63 : ℚ) ≤ m := by exact_mod_cast (by omega : -2 ^ 63 ≤ m)
  have hhi : (m : ℚ) ≤ 2 ^ 63 - 1 := by exact_mod_cast (by omega : m ≤ 2 ^ 63 - 1)
  rw [roundAway_eq hy hlo hhi, nearestAway_intCast, overshoot_eq_zero_iff.mpr ho, add_zero]

theorem roundAway_mem_Icc (lo hi : ℤ) (hlo : lo.natAbs ≤ 2 ^ 53) (hhi : hi.natAbs ≤ 2 ^ 53)
    (holo : ¬ Overshoots lo) (hohi : ¬ Overshoots hi) (hy : double.Denotes y a) (h : lo ≤ a)
    (h' : a ≤ hi) : lo ≤ roundAway y ∧ roundAway y ≤ hi := by
  have hd : double.digits = 53 := rfl
  have hend {m : ℤ} (hm : m.natAbs ≤ 2 ^ 53) (ho : ¬ Overshoots m) :
      double.Denotes (double.ofInt m) m ∧ |(m : ℚ)| ≤ 2 ^ 63 ∧ roundAway (double.ofInt m) = m := by
    have hden := denotes_ofInt (p := double) (represents_int (by rwa [hd]))
    have h63 : |m| ≤ 2 ^ 63 := abs_le.mpr ⟨by omega, by omega⟩
    exact ⟨hden, by exact_mod_cast h63, roundAway_intCast hden (by omega) ho⟩
  obtain ⟨hl, hl63, hle⟩ := hend hlo holo
  obtain ⟨hu, hu63, hue⟩ := hend hhi hohi
  have ha : |a| ≤ 2 ^ 63 :=
    abs_le.mpr ⟨(abs_le.mp hl63).1.trans h, h'.trans (abs_le.mp hu63).2⟩
  rw [← hle, ← hue]
  exact ⟨roundAway_mono hl hy hl63 ha h, roundAway_mono hy hu ha hu63 h'⟩

end Precision
end RawPcm
