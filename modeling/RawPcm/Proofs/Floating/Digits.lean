import RawPcm.Proofs.Floating.Order

/-! Where the digits of a number lie: which numbers are integers, and what rounding an integer
gives. -/
namespace RawPcm.Precision
variable {p : Precision} {a c : ℚ} {x : BitVec p.bits}

theorem exists_int_of_abs {q : ℚ} {n : Nat} (h : |q| = n) : ∃ m : ℤ, q = m := by
  rcases abs_choice q with ha | ha
  · exact ⟨n, by rw [← ha, h, Int.cast_natCast]⟩
  · exact ⟨-n, by rw [Int.cast_neg, Int.cast_natCast, ← h, ha, neg_neg]⟩

theorem Represents.exists_significand (h : p.Represents a) :
    ∃ e f, |a| * 2 ^ p.places = (f * 2 ^ e : Nat) ∧ f < 2 ^ p.digits ∧
      (e = 0 ∨ 2 ^ (p.digits - 1) ≤ f) ∧ e + 1 < 2 ^ (p.bits - p.digits) := by
  obtain ⟨n, ⟨m, hm, rfl⟩, hn⟩ := h
  obtain ⟨e, f, rfl, hf, hs⟩ := p.exists_significand m
  rw [units_significand hf hs] at hn
  have hle : e * 2 ^ (p.digits - 1) < (2 ^ (p.bits - p.digits) - 1) * 2 ^ (p.digits - 1) := by
    rw [infinity_eq] at hm
    omega
  have he := Nat.lt_of_mul_lt_mul_right hle
  exact ⟨e, f, hn, hf, hs, by omega⟩

/-- The exponent of a number that has all digits in front of the point, which stands `k` places to
the right. -/
theorem places_le_add {e f k : Nat} (h : |a| * 2 ^ p.places = (f * 2 ^ e : Nat))
    (hf : f < 2 ^ p.digits) (hk : 2 ^ (p.digits - 1) ≤ |a| * 2 ^ k) : p.places ≤ e + k := by
  have hle : 2 ^ (p.digits - 1 + p.places) ≤ f * 2 ^ (e + k) := by
    have := mul_le_mul_of_nonneg_right hk (two_pow_pos p.places).le
    rw [mul_right_comm, h, ← pow_add] at this
    rw [Nat.pow_add _ e, ← Nat.mul_assoc]
    exact_mod_cast this
  have hlt : 2 ^ (p.digits - 1 + p.places) < 2 ^ (p.digits + (e + k)) := by
    rw [Nat.pow_add _ p.digits]
    exact hle.trans_lt (Nat.mul_lt_mul_of_pos_right hf (Nat.two_pow_pos _))
  have := (Nat.pow_lt_pow_iff_right (by decide)).mp hlt
  omega

theorem Represents.exists_int (h : p.Represents a) {k : Nat}
    (hk : 2 ^ (p.digits - 1) ≤ |a| * 2 ^ k) : ∃ m : ℤ, a * 2 ^ k = m := by
  obtain ⟨e, f, hn, hf, -, -⟩ := h.exists_significand
  obtain ⟨i, hi⟩ := Nat.exists_eq_add_of_le (places_le_add hn hf hk)
  apply exists_int_of_abs (n := f * 2 ^ i)
  rw [abs_mul, abs_of_pos (two_pow_pos k)]
  apply mul_right_cancel₀ (two_pow_pos p.places).ne'
  rw [mul_right_comm, hn, Nat.cast_mul, Nat.cast_mul, Nat.cast_pow, Nat.cast_pow, mul_assoc,
    Nat.cast_ofNat, ← pow_add, hi, pow_add]
  ring

theorem Represents.le_of_lt (h : p.Represents a) {k : Nat} {m : ℤ}
    (hk : 2 ^ (p.digits - 1) ≤ |a| * 2 ^ k) (hlt : a < m / 2 ^ k) :
    a ≤ ((m - 1 : ℤ) : ℚ) / 2 ^ k := by
  obtain ⟨t, ht⟩ := h.exists_int hk
  rw [lt_div_iff₀ (two_pow_pos k), ht] at hlt
  rw [le_div_iff₀ (two_pow_pos k), ht]
  have hlt : t < m := by exact_mod_cast hlt
  exact_mod_cast Int.le_sub_one_of_lt hlt

theorem Represents.exists_shift (h : p.Represents a) (ha : 2 ^ (p.digits - 1) ≤ a) :
    ∃ f j, a = (f * 2 ^ j : Nat) ∧ 2 ^ (p.digits - 1) ≤ f ∧ f < 2 ^ p.digits := by
  have h0 : |a| = a := abs_of_nonneg (le_trans (by positivity) ha)
  have hp : 0 < p.places := by cases p <;> decide
  obtain ⟨e, f, hn, hf, hs, -⟩ := h.exists_significand
  have he := places_le_add (k := 0) hn hf (by rwa [h0, pow_zero, mul_one])
  obtain ⟨j, rfl⟩ := Nat.exists_eq_add_of_le he
  refine ⟨f, j, ?_, hs.resolve_left (by omega), hf⟩
  apply mul_right_cancel₀ (two_pow_pos p.places).ne'
  rw [← h0, hn, pow_add]
  push_cast
  ring

/-- An odd integer, some digits down, has all its digits in the significand. -/
theorem Represents.lt_of_odd (h : p.Represents a) {j n : Nat} (ho : n % 2 = 1)
    (ha : |a| * 2 ^ j = n) : n < 2 ^ p.digits := by
  obtain ⟨e, f, hm, hf, -, -⟩ := h.exists_significand
  have he : n * 2 ^ p.places = f * 2 ^ (e + j) := by
    have : (n : ℚ) * 2 ^ p.places = (f * 2 ^ e : Nat) * 2 ^ j := by
      rw [← ha, ← hm]
      ring
    rw [Nat.pow_add, ← Nat.mul_assoc]
    exact_mod_cast this
  rcases Nat.lt_or_ge p.places (e + j) with hlt | hle
  · obtain ⟨k, hk⟩ := Nat.exists_eq_add_of_lt hlt
    have hs : p.places + k + 1 = k + 1 + p.places := by omega
    rw [hk, hs, Nat.pow_add, ← Nat.mul_assoc] at he
    have hn := Nat.eq_of_mul_eq_mul_right (Nat.two_pow_pos _) he
    rw [hn, Nat.pow_succ, ← Nat.mul_assoc, Nat.mul_mod_left] at ho
    exact absurd ho (by decide)
  · obtain ⟨k, hk⟩ := Nat.exists_eq_add_of_le hle
    rw [hk, Nat.pow_add, Nat.mul_comm _ (2 ^ k), ← Nat.mul_assoc] at he
    have hf' := Nat.eq_of_mul_eq_mul_right (Nat.two_pow_pos _) he
    exact (Nat.le_mul_of_pos_right n (Nat.two_pow_pos k)).trans_lt (hf' ▸ hf)

theorem Represents.div_two_pow {m : ℤ} (h : p.Represents m) {k : Nat} (hk : k ≤ 64) :
    p.Represents (m / 2 ^ k) := by
  obtain ⟨e, f, hn, hf, -, he⟩ := h.exists_significand
  have hlen : 64 + p.digits ≤ p.places := by cases p <;> decide
  rcases eq_or_ne m 0 with rfl | hm
  · simpa using h
  rcases Nat.eq_zero_or_pos k with rfl | hk0
  · simpa using h
  · have h1 : (1 : ℚ) ≤ |(m : ℚ)| := by exact_mod_cast Int.one_le_abs hm
    have hle : 2 ^ p.places < 2 ^ (p.digits + e) := by
      have : ((2 ^ p.places : Nat) : ℚ) ≤ (f * 2 ^ e : Nat) := by
        rw [← hn]
        push_cast
        exact le_mul_of_one_le_left (two_pow_pos _).le h1
      rw [Nat.pow_add]
      exact (Nat.cast_le.mp this).trans_lt (Nat.mul_lt_mul_of_pos_right hf (Nat.two_pow_pos e))
    have hek : k ≤ e := by
      have := (Nat.pow_lt_pow_iff_right (by decide)).mp hle
      omega
    refine ⟨f * 2 ^ (e - k), exact_mul_two_pow hf (by omega), ?_⟩
    obtain ⟨i, rfl⟩ := Nat.exists_eq_add_of_le hek
    rw [abs_div, abs_of_pos (two_pow_pos k), div_mul_eq_mul_div, hn, Nat.add_sub_cancel_left,
      pow_add]
    push_cast
    field_simp

theorem represents_div_two_pow {m : ℤ} (h : m.natAbs ≤ 2 ^ p.digits) {k : Nat}
    (hk : k ≤ p.places) : p.Represents (m / 2 ^ k) := by
  rcases Nat.lt_or_eq_of_le h with h | h
  · exact represents_of_eq (j := 0) h (Nat.zero_le _) hk (by field_simp)
  · have hd : p.digits ≤ 64 := by cases p <;> decide
    have h1 : (1 : Int).natAbs < 2 ^ p.digits := Nat.one_lt_two_pow p.digits_pos.ne'
    have hm : m = 2 ^ p.digits ∨ m = -2 ^ p.digits := by
      have : ((2 ^ p.digits : Nat) : Int) = 2 ^ p.digits := by push_cast; rfl
      omega
    rcases hm with rfl | rfl
    · exact represents_of_eq (a := 1) h1 hd hk (by push_cast; field_simp)
    · exact represents_of_eq (a := -1) (by simpa using h1) hd hk (by push_cast; field_simp)

theorem represents_zero (p : Precision) : p.Represents 0 := by
  simpa using represents_div_two_pow (p := p) (m := 0) (Nat.zero_le _) (Nat.zero_le _)

theorem represents_int {m : ℤ} (h : m.natAbs ≤ 2 ^ p.digits) : p.Represents m := by
  simpa using represents_div_two_pow h (Nat.zero_le p.places)

theorem Rounds.exists_int {m : ℤ} {k : Nat} (hk : k ≤ 64) (hx : p.Rounds x (m / 2 ^ k))
    (hc : p.Denotes x c) : ∃ n : ℤ, c * 2 ^ k = n := by
  have hk2 := two_pow_pos k
  have hp : 64 ≤ p.places := by cases p <;> decide
  rcases Nat.le_total m.natAbs (2 ^ p.digits) with hm | hm
  · have hr := represents_div_two_pow hm (hk.trans hp)
    exact ⟨m, by rw [hc.unique (hx.denotes hr), div_mul_cancel₀ _ hk2.ne']⟩
  · have hlead : p.Represents ((2 ^ p.digits : ℤ) / 2 ^ k) := by
      have : (2 ^ p.digits : ℤ).natAbs ≤ 2 ^ p.digits := by simp
      exact_mod_cast represents_div_two_pow this (hk.trans hp)
    have hle : (2 ^ p.digits : ℚ) / 2 ^ k ≤ |c| := by
      push_cast at hlead
      apply hx.le_abs_of_le_abs hc hlead
      rw [abs_div, abs_of_pos hk2, ← Int.cast_abs, Int.abs_eq_natAbs]
      gcongr
      exact_mod_cast hm
    apply hc.represents.exists_int
    rw [div_le_iff₀ hk2] at hle
    exact (pow_le_pow_right₀ (by norm_num) (Nat.sub_le ..)).trans hle

theorem eq_of_denotes_ofInt {a c : ℤ} (hc : p.Denotes (p.ofInt a) c)
    (h : c.natAbs < 2 ^ p.digits) : c = a := by
  rcases Nat.lt_or_ge a.natAbs (2 ^ p.digits) with ha | ha
  · exact_mod_cast hc.unique (denotes_int ha)
  · have hd : p.Represents ((2 ^ p.digits : ℤ) : ℚ) := represents_int (by simp)
    have := (rounds_ofInt a).le_abs_of_le_abs hc hd (by
      rw [← Int.cast_abs, Int.abs_eq_natAbs]
      exact_mod_cast ha)
    rw [← Int.cast_abs, Int.abs_eq_natAbs] at this
    have : 2 ^ p.digits ≤ c.natAbs := by exact_mod_cast this
    omega

theorem Rounds.denotes_of_shift {n k : Nat} (h0 : n ≠ 0) (h64 : n < 2 ^ 64) (hk : k ≤ 64)
    {e : Nat} (he : e + p.digits = p.places + n.log2 + 1) (hx : p.Rounds x (n / 2 ^ k)) :
    p.Denotes x
      ((roundHalfEven (n * 2 ^ p.places) (2 ^ e) * 2 ^ e : Nat) / 2 ^ p.places / 2 ^ k) := by
  have hlen : 64 + p.digits ≤ p.places := by cases p <;> decide
  have hdig : 1 < p.digits := by cases p <;> decide
  have hlt := p.places_lt
  have hlog : n.log2 < 64 := (Nat.log2_lt h0).mpr h64
  obtain ⟨i, rfl⟩ := Nat.exists_eq_add_of_le' (by omega : k ≤ e)
  obtain ⟨j, hj⟩ := Nat.exists_eq_add_of_le' (by omega : k ≤ p.places)
  have hd := hx.denotes_of_digits (n := n * 2 ^ j) (e := i)
    (by
      rw [hj, pow_add]
      push_cast
      field_simp)
    (by omega)
    (.inr (by
      rw [← Nat.pow_add, (by omega : p.digits - 1 + i = n.log2 + j), Nat.pow_add]
      exact Nat.mul_le_mul_right _ (Nat.log2_self_le h0)))
    (by
      rw [← Nat.pow_add, (by omega : p.digits + i = n.log2 + 1 + j), Nat.pow_add]
      exact Nat.mul_lt_mul_of_pos_right Nat.lt_log2_self (Nat.two_pow_pos j))
  have hround : roundHalfEven (n * 2 ^ p.places) (2 ^ (i + k)) =
      roundHalfEven (n * 2 ^ j) (2 ^ i) := by
    rw [hj, Nat.pow_add, Nat.pow_add, ← Nat.mul_assoc,
      roundHalfEven_mul_mul _ _ (Nat.two_pow_pos k)]
  rw [hround, pow_add]
  convert hd using 1
  push_cast
  field_simp

/-- An integer and its quotient by a power of two are rounded alike. -/
theorem Rounds.div_two_pow {m : ℤ} {k : Nat} {y : BitVec p.bits} (hm : m.natAbs < 2 ^ 64)
    (hk : k ≤ 64) (hx : p.Rounds x m) (hc : p.Denotes x c) (hy : p.Rounds y (m / 2 ^ k)) :
    p.Denotes y (c / 2 ^ k) := by
  have hpos {n : Nat} {c : ℚ} {x y : BitVec p.bits} (h0 : n ≠ 0) (h64 : n < 2 ^ 64)
      (hx : p.Rounds x n) (hc : p.Denotes x c) (hy : p.Rounds y (n / 2 ^ k)) :
      p.Denotes y (c / 2 ^ k) := by
    have hlen := p.digits_le_places
    obtain ⟨e, he⟩ := Nat.exists_eq_add_of_le' (by omega : p.digits ≤ p.places + n.log2 + 1)
    have hd := Rounds.denotes_of_shift h0 h64 (Nat.zero_le 64) he.symm (by simpa using hx)
    rw [pow_zero, div_one] at hd
    rw [hc.unique hd]
    exact hy.denotes_of_shift h0 h64 hk he.symm
  rcases lt_trichotomy m 0 with h | rfl | h
  · obtain ⟨n, rfl⟩ : ∃ n : Nat, m = -n := ⟨m.natAbs, by omega⟩
    have hn0 : n ≠ 0 := by
      rintro rfl
      simp at h
    have hx' := hx.neg
    have hy' := hy.neg
    push_cast at hx' hy'
    rw [neg_neg] at hx'
    rw [neg_div, neg_neg] at hy'
    have hd := denotes_neg (hpos hn0 (by simpa using hm) hx' (denotes_neg hc) hy')
    rwa [neg_involutive, neg_div, neg_neg] at hd
  · rw [Int.cast_zero] at hx hy
    rw [zero_div] at hy
    rw [hc.unique (hx.denotes p.represents_zero), zero_div]
    exact hy.denotes p.represents_zero
  · obtain ⟨n, rfl⟩ := Int.eq_ofNat_of_zero_le h.le
    exact hpos (Nat.cast_pos.mp h).ne' (by simpa using hm) (by simpa using hx) hc
      (by simpa using hy)

end RawPcm.Precision
