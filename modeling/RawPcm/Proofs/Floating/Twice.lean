import RawPcm.Proofs.Floating.Nearest

/-! Rounding to single precision by way of double precision, which shows only where the first
rounding ends halfway. -/
namespace RawPcm.Precision
variable {a b c d : ℚ}

theorem abs_sub_lt_of_lt (h : b < d) : |d - a| < |b - a| ↔ b + d < 2 * a := by
  have hfac : (b - a) ^ 2 - (d - a) ^ 2 = (d - b) * (2 * a - (b + d)) := by ring
  rw [← sq_lt_sq, ← sub_pos, hfac, mul_pos_iff_of_pos_left (sub_pos.mpr h), sub_pos]

theorem abs_sub_lt_of_gt (h : d < b) : |d - a| < |b - a| ↔ 2 * a < b + d := by
  have hfac : (b - a) ^ 2 - (d - a) ^ 2 = (b - d) * (b + d - 2 * a) := by ring
  rw [← sq_lt_sq, ← sub_pos, hfac, mul_pos_iff_of_pos_left (sub_pos.mpr h), sub_pos]

def number (p : Precision) (n : Nat) : ℚ :=
  p.units n / 2 ^ p.places

section Number
variable {p : Precision} {m n : Nat}

theorem represents_number (hn : n < p.infinity) : p.Represents (p.number n) :=
  ⟨_, ⟨n, hn, rfl⟩, by
    rw [number, abs_of_nonneg (by positivity), div_mul_cancel₀ _ (two_pow_pos _).ne']⟩

theorem Represents.exists_number (h : p.Represents a) (h0 : 0 ≤ a) :
    ∃ n < p.infinity, a = p.number n := by
  obtain ⟨-, ⟨n, hn, rfl⟩, ha⟩ := h
  rw [abs_of_nonneg h0] at ha
  exact ⟨n, hn, eq_div_of_mul_eq (two_pow_pos _).ne' ha⟩

theorem number_strictMono (p : Precision) : StrictMono p.number := fun m n h => by
  rw [number, number, div_lt_div_iff_of_pos_right (two_pow_pos _)]
  exact_mod_cast p.units_strictMono h

theorem number_zero (p : Precision) : p.number 0 = 0 := by
  rw [number, units_zero, Nat.cast_zero, zero_div]

end Number

theorem represents_halfway {n : Nat} (hn : n < single.infinity) :
    double.Represents ((single.number n + single.number (n + 1)) / 2) := by
  obtain ⟨e, f, rfl, hf, hs⟩ := single.exists_significand n
  obtain ⟨k, hpl, hk⟩ : ∃ k, double.places = k + 1 + single.places ∧ k < 1000 :=
    ⟨924, rfl, by decide⟩
  have hwid : 2 ^ (single.bits - single.digits) = 256 := by decide
  have hwid' : 2 ^ (double.bits - double.digits) = 2048 := by decide
  have hdig : 2 ^ single.digits = 2 ^ 24 := rfl
  have hdig' : 2 ^ double.digits = 2 ^ 53 := rfl
  have he : e < 255 := by
    rw [infinity_eq, hwid] at hn
    exact Nat.lt_of_mul_lt_mul_right (Nat.lt_of_le_of_lt (Nat.le_add_right ..) hn)
  refine ⟨(2 * f + 1) * 2 ^ (e + k), exact_mul_two_pow (by omega) (by omega), ?_⟩
  rw [number, number, units_significand hf hs, Nat.add_assoc,
    units_of_le hf (hs.imp_right Nat.le_succ_of_le), abs_of_nonneg (by positivity), hpl, pow_add,
    pow_add, pow_add]
  push_cast
  field_simp
  ring

/-- Below a number of single precision there is a next one, with one of double precision halfway. -/
theorem exists_halfway (hb : single.Represents b) (hd : single.Represents d) (h : b < d) :
    ∃ m, double.Represents m ∧ m < d ∧ single.Represents (2 * m - d) ∧ b ≤ 2 * m - d := by
  have hmono := single.number_strictMono
  rcases lt_or_ge 0 d with hpos | hneg
  · obtain ⟨n, hn, rfl⟩ := hd.exists_number hpos.le
    obtain ⟨k, rfl⟩ : ∃ k, n = k + 1 := by
      rw [← single.number_zero, hmono.lt_iff_lt] at hpos
      exact Nat.exists_eq_add_one.mpr hpos
    have hk : k < single.infinity := Nat.lt_of_succ_lt hn
    have hstep : single.number k < single.number (k + 1) := hmono k.lt_succ_self
    have hnext : 2 * ((single.number k + single.number (k + 1)) / 2) - single.number (k + 1) =
        single.number k := by ring
    refine ⟨_, represents_halfway hk, by linarith, ?_⟩
    rw [hnext]
    refine ⟨represents_number hk, ?_⟩
    rcases le_or_gt 0 b with hb0 | hb0
    · obtain ⟨j, -, rfl⟩ := hb.exists_number hb0
      exact hmono.monotone (Nat.le_of_lt_succ (hmono.lt_iff_lt.mp h))
    · rw [← single.number_zero] at hb0
      exact hb0.le.trans (hmono.monotone k.zero_le)
  · obtain ⟨n, hn, hdn⟩ := hd.neg.exists_number (by linarith)
    obtain ⟨j, hj, hbj⟩ := hb.neg.exists_number (by linarith)
    have hnj : n < j := hmono.lt_iff_lt.mp (by linarith)
    have hstep : single.number n < single.number (n + 1) := hmono n.lt_succ_self
    have hreach : single.number (n + 1) ≤ single.number j := hmono.monotone hnj
    have hnext : 2 * -((single.number n + single.number (n + 1)) / 2) - d =
        -single.number (n + 1) := by linarith
    refine ⟨_, (represents_halfway hn).neg, by linarith, ?_, by linarith⟩
    rw [hnext]
    exact (represents_number (Nat.lt_of_le_of_lt hnj hj)).neg

/-- `a` is rounded to `c` halfway between two numbers of the precision, and then on to `d`. -/
def RoundsOn (p : Precision) (a c d : ℚ) : Prop :=
  p.Represents (2 * c - d) ∧ (a < c ∧ c < d ∨ d < c ∧ c < a)

theorem abs_sub_lt_of_rounds (hac : a < c) (hle : ∀ m, double.Represents m → a ≤ m → c ≤ m)
    (hnear : ∀ f, single.Represents f → |d - c| ≤ |f - c|) (hd : single.Represents d)
    (hon : ¬ (single.Represents (2 * c - d) ∧ c < d)) (hb : single.Represents b) (hne : b ≠ d) :
    |d - a| < |b - a| := by
  rcases lt_or_gt_of_ne hne with hlt | hgt
  · obtain ⟨m, hm, hmd, hr, hbm⟩ := exists_halfway hb hd hlt
    rw [abs_sub_lt_of_lt hlt]
    -- the next number below is no nearer to `c`, so that the one halfway is not above `c`
    have hmc : m ≤ c := by
      have := mt (abs_sub_lt_of_gt (a := c) (by linarith : 2 * m - d < d)).mpr
        (not_lt.mpr (hnear _ hr))
      linarith
    -- nor is `a` at or below it, or the first rounding would have ended there
    by_contra hma
    have hcm : c = m := le_antisymm (hle m hm (by linarith)) hmc
    exact hon ⟨hcm ▸ hr, hcm ▸ hmd⟩
  · have := mt (abs_sub_lt_of_lt (a := c) hgt).mpr (not_lt.mpr (hnear b hb))
    rw [abs_sub_lt_of_gt hgt]
    linarith

variable {y : BitVec single.bits} {z : BitVec double.bits}

/-- The detour through double precision is noticed only where it ends halfway and the way goes on. -/
theorem isNearest_iff_not_roundsOn (hz : double.Rounds z a) (hc : double.Denotes z c)
    (hy : single.Rounds y c) (hd : single.Denotes y d) :
    single.IsNearest y a ↔ ¬ single.RoundsOn a c d := by
  obtain ⟨d', hd', hnear⟩ := hy.isNearest hd
  obtain rfl : d' = d := hd'.unique hd
  have hle (f : ℚ) (hf : single.Represents f) : |d' - c| ≤ |f - c| := (hnear f hf).1
  constructor
  · rintro ⟨e, he, hbest⟩ ⟨hr, hside⟩
    obtain rfl : e = d' := he.unique hd
    refine not_lt.mpr (hbest _ hr).1 ?_
    rcases hside with ⟨hac, hcd⟩ | ⟨hdc, hca⟩
    · rw [abs_sub_lt_of_gt (by linarith)]
      linarith
    · rw [abs_sub_lt_of_lt (by linarith)]
      linarith
  · intro hon
    rcases lt_trichotomy a c with hac | rfl | hca
    · refine .of_lt hd fun b hb hne => abs_sub_lt_of_rounds hac (fun m hm h => hz.le hc hm h) hle
        hd.represents (fun ⟨hr, hcd⟩ => hon ⟨hr, .inl ⟨hac, hcd⟩⟩) hb hne
    · exact ⟨d', hd, hnear⟩
    · refine .of_lt hd fun b hb hne => ?_
      have hneg : |-d' - -a| < |-b - -a| := by
        refine abs_sub_lt_of_rounds (c := -c) (neg_lt_neg hca) (fun m hm h => ?_) (fun f hf => ?_)
          hd.represents.neg (fun ⟨hr, hcd⟩ => hon ⟨?_, .inr ⟨neg_lt_neg_iff.mp hcd, hca⟩⟩) hb.neg
          (neg_injective.ne hne)
        · exact neg_le.mp (hz.ge hc hm.neg (neg_le.mp h))
        · rw [abs_neg_sub, neg_neg, ← abs_neg_sub]
          exact hle _ hf.neg
        · have hflip : -(2 * -c - -d') = 2 * c - d' := by ring
          exact hflip ▸ hr.neg
      rwa [abs_neg_sub, neg_neg, abs_neg_sub, neg_neg] at hneg

end RawPcm.Precision
