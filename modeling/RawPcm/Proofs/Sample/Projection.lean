import RawPcm.Proofs.Sample.Fraction

/-! Samples that a second conversion does not move, and the integers of 64 bits that it does. -/
namespace RawPcm.Sample
open Precision
variable {p : Precision} {s : Signedness} {n : WordSize} {m : ℤ}

/-- An integer that the way to floating point and back does not move: it is a number of the precision,
lies between the ends and is not carried too far. -/
structure Settled (p : Precision) (n : WordSize) (m : ℤ) : Prop where
  represents : p.Represents (m : ℚ)
  le_bound : (m : ℚ) ≤ (quantizingPrecision p n.bits).bound n.bits * 2 ^ (n.bits - 1)
  not_overshoots : ¬ Overshoots m

theorem Settled.quantize_dequantize {x : Sample (.integer s n)}
    (h : Settled p n (s.amplitude x)) : (x.dequantize p).quantize s n = x := by
  have hd := denotes_dequantize_amplitude (h.represents.div_two_pow n.pred_bits_le)
  have hs := steps_of_denotes hd (s.le_amplitude x) h.le_bound
  exact s.amplitude_injective (amplitude_quantize_of_steps hs h.not_overshoots)

section Wide
variable (h : p.digits < n.bits)
include h

theorem digits_add_two_le : p.digits + 2 ≤ n.bits := by
  revert h
  cases p <;> cases n <;> decide

theorem two_pow_digits_le :
    (2 ^ p.digits : ℚ) ≤ (quantizingPrecision p n.bits).bound n.bits * 2 ^ (n.bits - 1) := by
  have hb := half_le_bound (quantizingPrecision p n.bits) n.one_lt_bits
  have hd := digits_add_two_le h
  have hle : (2 : ℚ) ^ p.digits ≤ 2 ^ (n.bits - 2) := pow_le_pow_right₀ (by norm_num) (by omega)
  have hs : (2 : ℚ) ^ (n.bits - 1) = 2 ^ (n.bits - 2) * 2 := by
    rw [← pow_succ]
    congr 1
    omega
  calc (2 : ℚ) ^ p.digits ≤ 1 / 2 * 2 ^ (n.bits - 1) := by rw [hs]; linarith
    _ ≤ _ := mul_le_mul_of_nonneg_right hb (two_pow_pos _).le

theorem settled_of_natAbs_le (hm : m.natAbs ≤ 2 ^ p.digits) (ho : ¬ Overshoots m) :
    Settled p n m := by
  have hle : m ≤ 2 ^ p.digits := by
    have : ((2 ^ p.digits : Nat) : Int) = 2 ^ p.digits := by push_cast; rfl
    omega
  have hle : (m : ℚ) ≤ 2 ^ p.digits := by exact_mod_cast hle
  exact ⟨represents_int hm, hle.trans (two_pow_digits_le h), ho⟩

/-- A whole number of steps is settled, and so is the even number next to it that it is carried to. -/
theorem settled_quantize_of_steps {x : Sample (.floating p)} (hr : p.Represents (m : ℚ))
    (hx : x.steps n.bits = m) : Settled p n (s.amplitude (x.quantize s n)) := by
  by_cases ho : Overshoots m
  · cases p with
    | single =>
      rw [← hx] at ho
      exact absurd ho (overshoot_eq_zero_iff.mp x.overshoot_steps_single)
    | double =>
      obtain ⟨hlo, hhi, hodd⟩ := overshoots_intCast.mp ho
      have heq := amplitude_quantize_eq (s := s) (n := n) x
      rw [hx, nearestAway_intCast, overshoot, if_pos ho] at heq
      have hnext : s.amplitude (x.quantize s n) = m + 1 ∨ s.amplitude (x.quantize s n) = m - 1 := by
        split at heq <;> omega
      have hd : double.digits = 53 := rfl
      apply settled_of_natAbs_le h
      · rw [hd]
        omega
      · rw [overshoots_intCast]
        omega
  · rw [amplitude_quantize_of_steps hx ho]
    exact ⟨hr, hx.ge.trans (x.steps_le_bound n.bits), ho⟩

theorem settled_quantize_of_lt {x : Sample (.floating p)}
    (hx : |x.steps n.bits| < 2 ^ (p.digits - 1)) : Settled p n (s.amplitude (x.quantize s n)) := by
  obtain ⟨hlo, hhi⟩ := abs_lt.mp hx
  have hd53 : p.digits ≤ 53 := by cases p <;> decide
  have hp52 : 2 ^ (p.digits - 1) ≤ 2 ^ 52 := Nat.pow_le_pow_right (by decide) (by omega)
  have htwo := p.two_mul_lead
  have hcast : ((2 ^ (p.digits - 1) : Nat) : Int) = 2 ^ (p.digits - 1) := by push_cast; rfl
  have hmem := amplitude_quantize_mem (s := s) (n := n) (-2 ^ (p.digits - 1))
    (2 ^ (p.digits - 1)) (by omega) (by omega) (x := x) (by push_cast; linarith)
    (by push_cast; linarith)
  exact settled_of_natAbs_le h (by omega) (not_overshoots_intCast (by omega))

theorem settled_quantize {x : Sample (.floating p)}
    (hx : p.Represents (p.clamped ((quantizingPrecision p n.bits).bound n.bits) x)) :
    Settled p n (s.amplitude (x.quantize s n)) := by
  have hb := Precision.le_bound (quantizingPrecision p n.bits) n.bits
  have h1 := bound_lt_one (quantizingPrecision p n.bits) n.bits
  have hsteps : p.Represents (x.steps n.bits) :=
    hx.mul_two_pow (abs_le.mpr ⟨le_clamped hb x, (clamped_le hb x).trans h1.le⟩) n.pred_bits_le
  rcases le_or_gt (2 ^ (p.digits - 1)) |x.steps n.bits| with hbig | hsmall
  · obtain ⟨m, hm⟩ := hsteps.exists_int (k := 0) (by rwa [pow_zero, mul_one])
    rw [pow_zero, mul_one] at hm
    exact settled_quantize_of_steps h (hm ▸ hsteps) hm
  · exact settled_quantize_of_lt h hsmall

theorem quantize_dequantize_quantize (x : Sample (.floating p)) :
    ((x.quantize s n).dequantize p).quantize s n = x.quantize s n := by
  rcases clamped_eq_or_denotes ((quantizingPrecision p n.bits).bound n.bits) x with hc | hc | hc
  · -- All that lies beyond the upper end becomes what infinity becomes.
    have hinf : p.clamped ((quantizingPrecision p n.bits).bound n.bits) (p.infinityOf false) =
        (quantizingPrecision p n.bits).bound n.bits := by
      simp [clamped, datum_infinityOf]
    have hx : x.quantize s n = quantize (p.infinityOf false) s n :=
      quantize_congr (by rw [steps, steps, hc, hinf])
    rw [hx]
    revert h
    cases p <;> cases n <;> cases s <;> decide +kernel
  · have hr := p.denotes_one.represents.neg
    rw [← hc] at hr
    exact (settled_quantize h hr).quantize_dequantize
  · exact (settled_quantize h hc.represents).quantize_dequantize

end Wide

theorem exists_dequantize_steps (p : Precision) (x : Sample (.integer s n)) : ∃ m : ℤ,
    p.Denotes (x.dequantize p) (m / 2 ^ (n.bits - 1)) ∧ |m| ≤ 2 ^ (n.bits - 1) ∧
      (m = 0 → s.amplitude x = 0) := by
  obtain ⟨c, hc, hx⟩ := exists_dequantize p x
  have hpos := two_pow_pos (n.bits - 1)
  have hround := rounds_ofInt (p := dequantizingPrecision n.bits p) (s.amplitude x)
  have hone (q : Precision) : q.Represents (1 : ℚ) := q.denotes_one.represents
  have hfull (q : Precision) : q.Represents ((2 : ℚ) ^ (n.bits - 1)) :=
    (denotes_two_pow n.pred_bits_le).represents
  have habs (m : ℤ) : |(m : ℚ) / 2 ^ (n.bits - 1)| = |(m : ℚ)| / 2 ^ (n.bits - 1) := by
    rw [abs_div, abs_of_pos hpos]
  have hle : |(c : ℚ) / 2 ^ (n.bits - 1)| ≤ 1 := by
    rw [habs, div_le_one hpos]
    exact hround.abs_le_of_abs_le hc (hfull _) (by exact_mod_cast abs_amplitude_le x)
  obtain ⟨g, hg⟩ := hx.exists_denotes (hone p) hle
  obtain ⟨m, hm⟩ := hx.exists_int n.pred_bits_le hg
  obtain rfl : g = m / 2 ^ (n.bits - 1) := by rw [← hm, mul_div_cancel_right₀ _ hpos.ne']
  refine ⟨m, hg, ?_, ?_⟩
  · have := hx.abs_le_of_abs_le hg (hone p) hle
    rw [habs, div_le_one hpos] at this
    exact_mod_cast this
  · rintro rfl
    by_contra hne
    have h64 : 64 ≤ p.places := by cases p <;> decide
    have h1 : 1 ≤ |(c : ℚ)| :=
      hround.le_abs_of_le_abs hc (hone _) (by exact_mod_cast Int.one_le_abs hne)
    have := hx.le_abs_of_le_abs hg (represents_one_div (n.pred_bits_le.trans h64)) (by
      rw [habs]
      gcongr)
    rw [Int.cast_zero, zero_div, abs_zero] at this
    have : (0 : ℚ) < 1 / 2 ^ (n.bits - 1) := by positivity
    linarith

/-- The way back and forth, if neither the end nor the half moves the number. -/
theorem dequantize_quantize_of_steps {x : Sample (.integer s n)}
    (hx : p.Denotes (x.dequantize p) (m / 2 ^ (n.bits - 1))) (hz : m = 0 → s.amplitude x = 0)
    (hq : s.amplitude ((x.dequantize p).quantize s n) = m) :
    ((x.dequantize p).quantize s n).dequantize p = x.dequantize p := by
  by_cases h0 : m = 0
  · have : (x.dequantize p).quantize s n = x := s.amplitude_injective (by rw [hq, h0, hz h0])
    rw [this]
  · have hd := denotes_dequantize_amplitude (x := (x.dequantize p).quantize s n)
      (by rw [hq]; exact hx.represents)
    rw [hq] at hd
    exact hd.injective hx (div_ne_zero (by exact_mod_cast h0) (two_pow_pos _).ne')

section Single

/-- Beyond the end single precision has no number but one. -/
theorem eq_one_of_lt {a : ℚ} (ha : single.Represents a) (hlt : 1 - 1 / 2 ^ 31 < a) (hle : a ≤ 1) :
    a = 1 := by
  by_contra hne
  have h1 : a < ((2 ^ 24 : ℤ) : ℚ) / 2 ^ 24 := by
    norm_num
    exact lt_of_le_of_ne hle hne
  have := ha.le_of_lt (k := 24) (by
    have hlead : single.digits - 1 = 23 := rfl
    rw [hlead, abs_of_nonneg (by linarith)]
    linarith) h1
  norm_num at this
  linarith

theorem dequantize_quantize_dequantize_single (h : single.digits < n.bits)
    (x : Sample (.integer s n)) :
    ((x.dequantize .single).quantize s n).dequantize .single = x.dequantize .single := by
  obtain ⟨m, hx, hm, hz⟩ := exists_dequantize_steps .single x
  have hpos := two_pow_pos (n.bits - 1)
  rcases le_or_gt (m : ℚ) ((quantizingPrecision .single n.bits).bound n.bits * 2 ^ (n.bits - 1)) with
    hle | hgt
  · have hs := steps_of_denotes hx (abs_le.mp hm).1 hle
    have ho := overshoot_eq_zero_iff.mp (overshoot_steps_single (n := n) (x.dequantize .single))
    rw [hs] at ho
    exact dequantize_quantize_of_steps hx hz (amplitude_quantize_of_steps hs ho)
  · have hwide : 31 ≤ n.bits - 1 ∧ 31 ≤ (quantizingPrecision .single n.bits).digits - 1 := by
      revert h
      cases n <;> decide
    have hb := one_sub_le_bound _ hwide.1 hwide.2
    have hone : (m : ℚ) / 2 ^ (n.bits - 1) = 1 := by
      apply eq_one_of_lt hx.represents
      · exact hb.trans_lt ((lt_div_iff₀ hpos).mpr hgt)
      · rw [div_le_one hpos]
        exact_mod_cast (abs_le.mp hm).2
    rw [hone] at hx
    rw [hx.injective single.denotes_one one_ne_zero]
    revert h
    cases n <;> cases s <;> decide +kernel

end Single

section Double
variable {x : Sample (.integer s .w64)}

theorem exists_dequantize_w64 (x : Sample (.integer s .w64)) : ∃ c : ℤ,
    double.Denotes (double.ofInt (s.amplitude x)) c ∧
      double.Denotes (x.dequantize .double) (c / 2 ^ (WordSize.w64.bits - 1)) := by
  obtain ⟨c, hc, hx⟩ := exists_dequantize .double x
  exact ⟨c, hc, hx.denotes (hc.represents.div_two_pow (by decide))⟩

theorem bound_w64 : (quantizingPrecision .double WordSize.w64.bits).bound WordSize.w64.bits *
    2 ^ (WordSize.w64.bits - 1) = ((2 ^ 63 - 2 ^ 11 : ℤ) : ℚ) := bound_mul .double .w64

theorem represents_end : double.Represents ((2 ^ 63 - 2 ^ 11 : ℤ) : ℚ) :=
  represents_of_eq (a := 2 ^ 52 - 1) (j := 11) (k := 0) (by decide) (by decide) (by decide)
    (by norm_num)

theorem represents_above_end : double.Represents ((2 ^ 63 - 2 ^ 10 : ℤ) : ℚ) :=
  represents_of_eq (a := 2 ^ 53 - 1) (j := 10) (k := 0) (by decide) (by decide) (by decide)
    (by norm_num)

theorem rank_ofInt_le {m n : ℤ} (h : m ≤ n) :
    double.rank (double.ofInt m) ≤ double.rank (double.ofInt n) :=
  (rounds_ofInt m).rank_le (rounds_ofInt n) (by exact_mod_cast h)

theorem represents_full_scale : double.Represents ((2 ^ 63 : ℤ) : ℚ) :=
  represents_of_eq (a := 1) (j := 63) (k := 0) (by decide) (by decide) (by decide) (by norm_num)

theorem eq_of_ofInt_eq {a c l u m : ℤ} (hc : double.Denotes (double.ofInt a) c)
    (hm : double.Represents m) (hla : l ≤ a) (hau : a ≤ u)
    (hl : double.ofInt l = double.ofInt m) (hu : double.ofInt u = double.ofInt m) : c = m := by
  have hm := denotes_ofInt hm
  have hle := rank_ofInt_le hau
  have hge := rank_ofInt_le hla
  rw [hu] at hle
  rw [hl] at hge
  exact le_antisymm (by exact_mod_cast hc.le_of_rank_le hm hle)
    (by exact_mod_cast hm.le_of_rank_le hc hge)

/-- Halfway between the end and the number above it there is a tie, and the end is even. -/
theorem le_end_iff {a c : ℤ} (hc : double.Denotes (double.ofInt a) c) :
    c ≤ 2 ^ 63 - 2 ^ 11 ↔ a ≤ 2 ^ 63 - 1536 := by
  constructor
  · contrapose!
    intro ha
    have he : double.ofInt (2 ^ 63 - 1535) = double.ofInt (2 ^ 63 - 2 ^ 10) := by decide +kernel
    have hle := rank_ofInt_le (by omega : 2 ^ 63 - 1535 ≤ a)
    rw [he] at hle
    have hge := (denotes_ofInt represents_above_end).le_of_rank_le hc hle
    have hge : 2 ^ 63 - 2 ^ 10 ≤ c := by exact_mod_cast hge
    omega
  · intro ha
    have he : double.ofInt (2 ^ 63 - 1536) = double.ofInt (2 ^ 63 - 2 ^ 11) := by decide +kernel
    have hle := rank_ofInt_le ha
    rw [he] at hle
    exact_mod_cast hc.le_of_rank_le (denotes_ofInt represents_end) hle

theorem dequantize_quantize_dequantize_double (hle : s.amplitude x ≤ 2 ^ 63 - 1536)
    (ho : ¬ Overshoots (s.amplitude x)) :
    ((x.dequantize .double).quantize s .w64).dequantize .double = x.dequantize .double := by
  obtain ⟨c, hc, hx⟩ := exists_dequantize_w64 x
  obtain ⟨m, hm, habs, hz⟩ := exists_dequantize_steps .double x
  obtain rfl : m = c := by
    have := (div_left_inj' (two_pow_pos _).ne').mp (hm.unique hx)
    exact_mod_cast this
  have htop : (m : ℚ) ≤ ((2 ^ 63 - 2 ^ 11 : ℤ) : ℚ) := by exact_mod_cast (le_end_iff hc).mpr hle
  have hom : ¬ Overshoots m := by
    intro h
    rw [eq_of_denotes_ofInt hc (overshoots_intCast.mp h).2.1] at h
    exact ho h
  have hs := steps_of_denotes hx (abs_le.mp habs).1 (htop.trans_eq bound_w64.symm)
  exact dequantize_quantize_of_steps hx hz (amplitude_quantize_of_steps hs hom)

theorem dequantize_of_gt (hgt : 2 ^ 63 - 1536 < s.amplitude x) : x.dequantize .double =
    if s.amplitude x < 2 ^ 63 - 512 then 0x3fefffffffffffff#64 else 0x3ff0000000000000#64 := by
  obtain ⟨c, hc, hx⟩ := exists_dequantize_w64 x
  split
  case isTrue hlt =>
    have hd : double.Denotes 0x3fefffffffffffff#64 _ :=
      denotes_significand (e := 1021) (f := 2 ^ 53 - 1) (k := 53) false (by decide) (by decide) rfl
    obtain rfl : c = 2 ^ 63 - 2 ^ 10 :=
      eq_of_ofInt_eq (l := 2 ^ 63 - 1535) (u := 2 ^ 63 - 513) hc represents_above_end (by omega)
        (by omega) (by decide +kernel) (by decide +kernel)
    refine hx.eq_of_eq hd ?_ ?_ <;> norm_num [Datum.signed]
  case isFalse hge =>
    have hd : double.Denotes 0x3ff0000000000000#64 _ :=
      denotes_significand (e := 1022) (f := 2 ^ 52) (k := 52) false (by decide) (by decide) rfl
    have ha : s.amplitude x < 2 ^ 63 := s.amplitude_lt WordSize.w64.bits_pos x
    obtain rfl : c = 2 ^ 63 :=
      eq_of_ofInt_eq (l := 2 ^ 63 - 512) (u := 2 ^ 63 - 1) hc represents_full_scale (by omega)
        (by omega) (by decide +kernel) (by decide +kernel)
    refine hx.eq_of_eq hd ?_ ?_ <;> norm_num [Datum.signed]

theorem amplitude_quantize_dequantize_of_gt (hgt : 2 ^ 63 - 1536 < s.amplitude x) :
    s.amplitude ((x.dequantize .double).quantize s .w64) = 2 ^ 63 - 2 ^ 11 := by
  obtain ⟨c, hc, hx⟩ := exists_dequantize_w64 x
  have hpos := two_pow_pos (WordSize.w64.bits - 1)
  have hlt : 2 ^ 63 - 2 ^ 11 < c := not_le.mp (mt (le_end_iff hc).mp (not_le.mpr hgt))
  have hlt : ((2 ^ 63 - 2 ^ 11 : ℤ) : ℚ) < c := by exact_mod_cast hlt
  have hs : (x.dequantize .double).steps WordSize.w64.bits = ((2 ^ 63 - 2 ^ 11 : ℤ) : ℚ) := by
    rw [steps, clamped_of_denotes hx, min_eq_right, max_eq_left (le_bound _ _), bound_w64]
    rw [le_div_iff₀ hpos, bound_w64]
    exact hlt.le
  exact amplitude_quantize_of_steps hs (by rw [overshoots_intCast]; decide)

theorem dequantize_of_eq_end (h : s.amplitude x = 2 ^ 63 - 2 ^ 11) :
    x.dequantize .double = 0x3feffffffffffffe#64 := by
  have hd : double.Denotes 0x3feffffffffffffe#64 _ :=
    denotes_significand (e := 1021) (f := 2 ^ 53 - 2) (k := 53) false (by decide) (by decide) rfl
  have hx := denotes_dequantize_amplitude (p := .double) (x := x)
    (by rw [h]; exact represents_end.div_two_pow (by decide))
  rw [h] at hx
  refine hx.eq_of_eq hd ?_ ?_ <;> norm_num [Datum.signed]

end Double

end RawPcm.Sample
