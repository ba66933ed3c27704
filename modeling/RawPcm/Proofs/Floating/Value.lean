import Mathlib.Data.Rat.Floor
import RawPcm.Proofs.Floating.Datum

/-! Finite numbers as rationals. An operation gives what rounding makes of the exact result. -/
namespace RawPcm.Precision
open Datum
variable {p : Precision}

/-- A pattern stands for this number. -/
def Denotes (p : Precision) (x : BitVec p.bits) (q : ℚ) : Prop :=
  ∃ negative n, p.datum x = .finite negative n ∧ q * 2 ^ p.places = signed negative n

/-- Some pattern stands for this number. -/
def Represents (p : Precision) (q : ℚ) : Prop :=
  ∃ n, p.Exact n ∧ |q| * 2 ^ p.places = n

/-- A pattern is what rounding makes of this number, be it one of the precision or not. -/
def Rounds (p : Precision) (x : BitVec p.bits) (q : ℚ) : Prop :=
  ∃ negative num den, 0 < den ∧ x = p.nearest negative num den ∧
    (num : ℚ) = |q| * 2 ^ p.places * den ∧ q = if negative then -|q| else |q|

theorem two_pow_pos (k : Nat) : (0 : ℚ) < 2 ^ k := by positivity

theorem abs_signed (negative : Bool) (n : Nat) : |((signed negative n : Int) : ℚ)| = n := by
  cases negative <;> simp [signed]

theorem abs_of_signed {negative : Bool} {n : Nat} {q : ℚ}
    (h : q * 2 ^ p.places = signed negative n) :
    |q| * 2 ^ p.places = n ∧ q = if negative then -|q| else |q| := by
  have hp := two_pow_pos p.places
  have ha : |q| * 2 ^ p.places = n := by
    rw [← abs_signed negative n, ← h, abs_mul, abs_of_pos hp]
  refine ⟨ha, ?_⟩
  cases negative with
  | false =>
    have hq : q * 2 ^ p.places = |q| * 2 ^ p.places := by rw [ha, h]; simp [signed]
    simpa using mul_right_cancel₀ hp.ne' hq
  | true =>
    have hq : q * 2 ^ p.places = -|q| * 2 ^ p.places := by
      rw [neg_mul, ha, h]
      simp [signed]
    simpa using mul_right_cancel₀ hp.ne' hq

theorem places_lt (p : Precision) : 64 + p.places + 2 < 2 ^ (p.bits - p.digits) := by
  cases p <;> decide

theorem digits_le_places (p : Precision) : p.digits ≤ p.places := by
  cases p <;> decide

theorem represents_of_eq {a : Int} {j k : Nat} {q : ℚ} (ha : a.natAbs < 2 ^ p.digits)
    (hj : j ≤ 64) (hk : k ≤ p.places) (h : q * 2 ^ k = a * 2 ^ j) : p.Represents q := by
  have hp := p.places_lt
  refine ⟨a.natAbs * 2 ^ (j + (p.places - k)), exact_mul_two_pow ha (by omega), ?_⟩
  have hs : (2 : ℚ) ^ p.places = 2 ^ k * 2 ^ (p.places - k) := by
    rw [← pow_add, Nat.add_sub_cancel' hk]
  have hq : |q| * 2 ^ k = |(a : ℚ)| * 2 ^ j := by
    rw [← abs_of_pos (two_pow_pos k), ← abs_mul, h, abs_mul, abs_of_pos (two_pow_pos j)]
  rw [hs, ← mul_assoc, hq, pow_add, Nat.cast_mul, Nat.cast_mul, Nat.cast_natAbs]
  push_cast
  ring

/-- Powers of two move the point, which costs no digits on the way up from one. -/
theorem Represents.mul_two_pow {a : ℚ} (h : p.Represents a) (ha : |a| ≤ 1) {j : Nat} (hj : j ≤ 64) :
    p.Represents (a * 2 ^ j) := by
  obtain ⟨n, ⟨m, -, rfl⟩, hn⟩ := h
  obtain ⟨e, f, rfl, hf, hs⟩ := p.exists_significand m
  rw [units_significand hf hs] at hn
  have hp := p.places_lt
  have hq : |a * 2 ^ j| * 2 ^ p.places = ((f * 2 ^ e * 2 ^ j : Nat) : ℚ) := by
    rw [abs_mul, abs_of_pos (two_pow_pos j), mul_right_comm, hn]
    simp
  have he : e ≤ p.places := by
    cases hs with
    | inl h => omega
    | inr h =>
      have hle : f * 2 ^ e ≤ 2 ^ p.places := by
        have : ((f * 2 ^ e : Nat) : ℚ) ≤ 2 ^ p.places := by
          rw [← hn]
          exact mul_le_of_le_one_left (two_pow_pos _).le ha
        exact_mod_cast this
      have hf : 1 ≤ f := Nat.le_trans p.lead_pos h
      have := Nat.le_trans (Nat.le_mul_of_pos_left (2 ^ e) hf) hle
      exact (Nat.pow_le_pow_iff_right (by decide)).mp this
  refine ⟨f * 2 ^ e * 2 ^ j, ?_, hq⟩
  rw [mul_assoc, ← pow_add]
  exact exact_mul_two_pow hf (by omega)

theorem Represents.widen {a : ℚ} (h : p.Represents a) : double.Represents a := by
  cases p with
  | single =>
    obtain ⟨n, he, hn⟩ := h
    refine ⟨_, exact_widen he, ?_⟩
    have hs : (2 : ℚ) ^ double.places =
        2 ^ single.places * 2 ^ (double.places - single.places) := by
      rw [← pow_add]
      rfl
    rw [hs, ← mul_assoc, hn]
    push_cast
    rfl
  | double => exact h

theorem Represents.of_digits_le {a : ℚ} (h : p.Represents a) {q : Precision}
    (hd : p.digits ≤ q.digits) : q.Represents a := by
  cases q with
  | double => exact h.widen
  | single =>
    cases p with
    | single => exact h
    | double => exact absurd hd (by decide)

theorem denotes_of_datum {x : BitVec p.bits} {negative : Bool} {n : Nat}
    (h : p.datum x = .finite negative n) : p.Denotes x (signed negative n / 2 ^ p.places) :=
  ⟨negative, n, h, div_mul_cancel₀ _ (two_pow_pos _).ne'⟩

theorem denotes_significand (negative : Bool) {e f k : Nat} (hf : f < 2 ^ p.digits)
    (h : e = 0 ∨ 2 ^ (p.digits - 1) ≤ f) (hk : e + k = p.places) :
    p.Denotes (p.pattern negative (e * 2 ^ (p.digits - 1) + f)) (signed negative f / 2 ^ k) := by
  have hp := p.places_lt
  have hlt : e * 2 ^ (p.digits - 1) + f < p.infinity := by
    have hm := Nat.mul_le_mul_right (2 ^ (p.digits - 1))
      (by omega : e + 2 ≤ 2 ^ (p.bits - p.digits) - 1)
    have htwo := p.two_mul_lead
    rw [Nat.add_mul] at hm
    rw [infinity_eq]
    omega
  refine ⟨negative, _, datum_pattern negative hlt, ?_⟩
  have hs : (signed negative (f * 2 ^ e) : Int) = signed negative f * 2 ^ e := by
    cases negative <;> simp [signed]
  rw [units_significand hf h, hs, ← hk, pow_add]
  push_cast
  field_simp

theorem Denotes.exists_pattern {x : BitVec p.bits} {a : ℚ} (h : p.Denotes x a) :
    ∃ negative, ∃ m < p.infinity, x = p.pattern negative m ∧
      a * 2 ^ p.places = signed negative (p.units m) := by
  obtain ⟨s, n, hd, hn⟩ := h
  obtain ⟨t, rfl⟩ | ⟨t, m, hm, rfl⟩ := Precision.exists_pattern (x := x) (by rw [hd]; rfl)
  · rw [datum_infinityOf] at hd
    cases hd
  · rw [datum_pattern t hm] at hd
    obtain ⟨rfl, rfl⟩ := Datum.finite.inj hd
    exact ⟨t, m, hm, rfl, hn⟩

theorem Denotes.represents {x : BitVec p.bits} {a : ℚ} (h : p.Denotes x a) : p.Represents a := by
  obtain ⟨s, m, hm, -, hn⟩ := h.exists_pattern
  exact ⟨_, ⟨m, hm, rfl⟩, (abs_of_signed hn).1⟩

theorem denotes_nearest {negative : Bool} {num den : Nat} {q : ℚ} (h : p.Represents q)
    (hd : 0 < den) (hn : (num : ℚ) = |q| * 2 ^ p.places * den)
    (hs : q = if negative then -|q| else |q|) : p.Denotes (p.nearest negative num den) q := by
  obtain ⟨n, he, hq⟩ := h
  have hnum : num = n * den := by
    rw [hq] at hn
    exact_mod_cast hn
  refine ⟨negative, n, hnum ▸ datum_nearest_of_exact negative he hd, ?_⟩
  rw [hs]
  cases negative <;> simp [signed, hq]

theorem Rounds.denotes {x : BitVec p.bits} {a : ℚ} (hx : p.Rounds x a) (h : p.Represents a) :
    p.Denotes x a := by
  obtain ⟨s, num, den, hd, rfl, hn, hs⟩ := hx
  exact denotes_nearest h hd hn hs

theorem Denotes.rounds {x : BitVec p.bits} {a : ℚ} (h : p.Denotes x a) : p.Rounds x a := by
  obtain ⟨s, m, hm, rfl, hn⟩ := h.exists_pattern
  obtain ⟨ha, hs⟩ := abs_of_signed hn
  refine ⟨s, p.units m * 1, 1, Nat.one_pos, (nearest_units s hm Nat.one_pos).symm, ?_, hs⟩
  rw [ha]
  push_cast
  rfl

theorem rounds_ofInt (a : Int) : p.Rounds (p.ofInt a) a := by
  refine ⟨_, _, _, Nat.one_pos, rfl, ?_, ?_⟩
  · push_cast
    rw [Nat.cast_natAbs, Int.cast_abs, mul_one]
  · by_cases ha : a < 0
    · have : (a : ℚ) < 0 := by exact_mod_cast ha
      simp [ha, abs_of_neg this]
    · have : (0 : ℚ) ≤ a := by exact_mod_cast not_lt.mp ha
      simp [ha, abs_of_nonneg this]

theorem denotes_ofInt {a : Int} (h : p.Represents a) : p.Denotes (p.ofInt a) a :=
  (rounds_ofInt a).denotes h

theorem denotes_int {a : Int} (ha : a.natAbs < 2 ^ p.digits) : p.Denotes (p.ofInt a) a :=
  denotes_ofInt (represents_of_eq (j := 0) (k := 0) ha (Nat.zero_le _) (Nat.zero_le _) (by simp))

theorem denotes_epsilon (p : Precision) : p.Denotes p.epsilon (1 / 2 ^ (p.digits - 1)) := by
  have hd : p.digits - 1 ≤ p.places := by cases p <;> decide
  have hr : p.Represents (1 / 2 ^ (p.digits - 1)) :=
    represents_of_eq (a := 1) (j := 0) (Nat.one_lt_two_pow (by cases p <;> decide)) (by omega) hd
      (by field_simp; norm_num)
  have ha : |(1 : ℚ) / 2 ^ (p.digits - 1)| = 1 / 2 ^ (p.digits - 1) := abs_of_pos (by positivity)
  refine denotes_nearest hr (Nat.two_pow_pos _) ?_ (by simp)
  rw [ha]
  push_cast
  field_simp

section Arithmetic
variable {x y : BitVec p.bits} {a b : ℚ}

theorem lt_of_denotes (hx : p.Denotes x a) (hy : p.Denotes y b) : p.lt x y = decide (a < b) := by
  obtain ⟨s, m, hdx, hm⟩ := hx
  obtain ⟨t, n, hdy, hn⟩ := hy
  rw [lt, hdx, hdy, Datum.lt, decide_eq_decide, ← Int.cast_lt (R := ℚ), ← hm, ← hn]
  exact mul_lt_mul_iff_left₀ (two_pow_pos _)

theorem isNaN_of_denotes (hx : p.Denotes x a) : (p.datum x).isNaN = false := by
  obtain ⟨s, m, hd, -⟩ := hx
  rw [hd]
  rfl

theorem denotes_least (hx : p.Denotes x a) (hy : p.Denotes y b) :
    p.Denotes (p.least x y) (min a b) := by
  rw [least, isNaN_of_denotes hx, isNaN_of_denotes hy, lt_of_denotes hy hx]
  by_cases h : b < a
  · simpa [h, min_eq_right h.le] using hy
  · simpa [h, min_eq_left (not_lt.mp h)] using hx

theorem denotes_greatest (hx : p.Denotes x a) (hy : p.Denotes y b) :
    p.Denotes (p.greatest x y) (max a b) := by
  rw [greatest, isNaN_of_denotes hx, isNaN_of_denotes hy, lt_of_denotes hx hy]
  by_cases h : a < b
  · simpa [h, max_eq_right h.le] using hy
  · simpa [h, max_eq_left (not_lt.mp h)] using hx

theorem neg_pattern (negative : Bool) {n : Nat} (h : n < 2 ^ (p.bits - 1)) :
    p.neg (p.pattern negative n) = p.pattern (!negative) n := by
  have hb : 2 ^ (p.bits - 1) % 2 ^ p.bits = 2 ^ (p.bits - 1) := by cases p <;> decide
  have hm : (p.neg (p.pattern negative n)).toNat % 2 ^ (p.bits - 1) = n := by
    rw [neg, BitVec.toNat_xor, BitVec.toNat_ofNat, hb, Nat.xor_mod_two_pow, Nat.mod_self,
      Nat.xor_zero, toNat_pattern_mod negative h]
  have hs : (p.neg (p.pattern negative n)).msb = !negative := by
    have ht : (BitVec.ofNat p.bits (2 ^ (p.bits - 1))).msb = true := by cases p <;> decide
    rw [neg, BitVec.msb_xor, ht, Bool.xor_true, msb_pattern negative h]
  rw [← pattern_msb (p.neg (p.pattern negative n)), hm, hs]

theorem neg_involutive (p : Precision) : Function.Involutive p.neg := by
  intro x
  rw [neg, neg, BitVec.xor_assoc, BitVec.xor_self, BitVec.xor_zero]

theorem denotes_neg (hx : p.Denotes x a) : p.Denotes (p.neg x) (-a) := by
  obtain ⟨s, m, hm, rfl, hn⟩ := hx.exists_pattern
  rw [neg_pattern s (hm.trans p.infinity_lt)]
  refine ⟨!s, _, datum_pattern _ hm, ?_⟩
  rw [neg_mul, hn]
  cases s <;> simp [signed]

theorem Rounds.neg (hx : p.Rounds x a) : p.Rounds (p.neg x) (-a) := by
  obtain ⟨s, num, den, hd, rfl, hn, hs⟩ := hx
  refine ⟨!s, num, den, hd, ?_, by rwa [abs_neg], ?_⟩
  · exact neg_pattern s (Nat.lt_of_le_of_lt (Nat.min_le_left ..) p.infinity_lt)
  · rw [abs_neg]
    cases s <;> simpa [neg_eq_iff_eq_neg] using hs

theorem rounds_add (hx : p.Denotes x a) (hy : p.Denotes y b) : p.Rounds (p.add x y) (a + b) := by
  obtain ⟨s, m, hdx, hm⟩ := hx
  obtain ⟨t, n, hdy, hn⟩ := hy
  have hs : (a + b) * 2 ^ p.places = ((signed s m + signed t n : Int) : ℚ) := by
    rw [add_mul, hm, hn]
    push_cast
    rfl
  simp only [add, hdx, hdy]
  generalize signed s m + signed t n = c at hs ⊢
  refine ⟨_, _, _, Nat.one_pos, rfl, ?_, ?_⟩
  · rw [Nat.cast_natAbs, Int.cast_abs, ← hs, abs_mul, abs_of_pos (two_pow_pos _), Nat.cast_one,
      mul_one]
  · have hp := two_pow_pos p.places
    have hc : c < 0 ↔ a + b < 0 := by
      rw [← Int.cast_lt_zero (R := ℚ), ← hs, ← neg_pos, ← neg_mul, mul_pos_iff_of_pos_right hp,
        neg_pos]
    by_cases h0 : c = 0
    · have hab : a + b = 0 := by
        rw [h0, Int.cast_zero] at hs
        exact (mul_eq_zero.mp hs).resolve_right hp.ne'
      simp [hab]
    · by_cases hlt : a + b < 0
      · simp [h0, hc.mpr hlt, abs_of_neg hlt]
      · simp [h0, mt hc.mp hlt, abs_of_nonneg (not_lt.mp hlt)]

theorem denotes_add (h : p.Represents (a + b)) (hx : p.Denotes x a) (hy : p.Denotes y b) :
    p.Denotes (p.add x y) (a + b) := (rounds_add hx hy).denotes h

theorem add_eq_zero (hx : p.Denotes x a) (hy : p.Denotes y (-a)) (ha : 0 < a) :
    p.add x y = 0#p.bits := by
  obtain ⟨s, m, hdx, hm⟩ := hx
  obtain ⟨t, n, hdy, hn⟩ := hy
  have hpos : 0 < signed s m := by
    have : (0 : ℚ) < signed s m := hm ▸ mul_pos ha (two_pow_pos _)
    exact_mod_cast this
  have hsum : signed s m + signed t n = 0 := by
    rw [neg_mul, hm] at hn
    have : (signed s m : ℚ) + signed t n = 0 := by rw [← hn, add_neg_cancel]
    exact_mod_cast this
  simp only [add, hdx, hdy, hsum, if_true]
  cases s with
  | false => cases p <;> rfl
  | true =>
    simp only [signed, if_true] at hpos
    omega

theorem rounds_sub (hx : p.Denotes x a) (hy : p.Denotes y b) : p.Rounds (p.sub x y) (a - b) := by
  rw [sub_eq_add_neg]
  exact rounds_add hx (denotes_neg hy)

theorem denotes_sub (h : p.Represents (a - b)) (hx : p.Denotes x a) (hy : p.Denotes y b) :
    p.Denotes (p.sub x y) (a - b) := (rounds_sub hx hy).denotes h

theorem denotes_mul (h : p.Represents (a * b)) (hx : p.Denotes x a) (hy : p.Denotes y b) :
    p.Denotes (p.mul x y) (a * b) := by
  obtain ⟨s, m, hdx, hm⟩ := hx
  obtain ⟨t, n, hdy, hn⟩ := hy
  obtain ⟨hma, hsa⟩ := abs_of_signed hm
  obtain ⟨hnb, hsb⟩ := abs_of_signed hn
  simp only [mul, hdx, hdy]
  apply denotes_nearest h (Nat.two_pow_pos _)
  · rw [Nat.cast_mul, ← hma, ← hnb, abs_mul]
    push_cast
    ring
  · rw [abs_mul]
    conv_lhs => rw [hsa, hsb]
    cases s <;> cases t <;> simp

theorem denotes_div (h : p.Represents (a / b)) (hb : b ≠ 0) (hx : p.Denotes x a)
    (hy : p.Denotes y b) : p.Denotes (p.div x y) (a / b) := by
  obtain ⟨s, m, hdx, hm⟩ := hx
  obtain ⟨t, n, hdy, hn⟩ := hy
  obtain ⟨hma, hsa⟩ := abs_of_signed hm
  obtain ⟨hnb, hsb⟩ := abs_of_signed hn
  have hp := two_pow_pos p.places
  have hn0 : n ≠ 0 := by
    intro h0
    rw [h0, Nat.cast_zero] at hnb
    exact mul_ne_zero (abs_ne_zero.mpr hb) hp.ne' hnb
  simp only [div, hdx, hdy, if_neg hn0]
  apply denotes_nearest h (Nat.pos_of_ne_zero hn0)
  · rw [Nat.cast_mul, ← hma, ← hnb, abs_div]
    have := abs_ne_zero.mpr hb
    push_cast
    field_simp
  · rw [abs_div]
    conv_lhs => rw [hsa, hsb]
    cases s <;> cases t <;> simp [neg_div, div_neg]

theorem rounds_resize (q : Precision) (hx : p.Denotes x a) : q.Rounds (p.resize q x) a := by
  obtain ⟨s, m, hdx, hm⟩ := hx
  obtain ⟨hma, hsa⟩ := abs_of_signed hm
  simp only [resize, hdx]
  refine ⟨_, _, _, Nat.two_pow_pos _, rfl, ?_, hsa⟩
  rw [Nat.cast_mul, ← hma]
  push_cast
  ring

theorem rounds_cast (q : Precision) (hx : p.Denotes x a) : q.Rounds (p.cast q x) a := by
  cases p <;> cases q
  · exact hx.rounds
  · exact rounds_resize .double hx
  · exact rounds_resize .single hx
  · exact hx.rounds

theorem denotes_cast {q : Precision} (h : q.Represents a) (hx : p.Denotes x a) :
    q.Denotes (p.cast q x) a := (rounds_cast q hx).denotes h

theorem truncate_of_denotes (hx : p.Denotes x a) (lo hi : Int) :
    p.truncate lo hi x = max lo (min hi (if a < 0 then ⌈a⌉ else ⌊a⌋)) := by
  obtain ⟨s, n, hd, hn⟩ := hx
  have hp := two_pow_pos p.places
  have hf : ⌊(n : ℚ) / 2 ^ p.places⌋ = ((n / 2 ^ p.places : Nat) : Int) := by
    have := Rat.floor_natCast_div_natCast n (2 ^ p.places)
    push_cast at this ⊢
    exact this
  have ha : a = signed s n / 2 ^ p.places := by rw [← hn, mul_div_cancel_right₀ _ hp.ne']
  simp only [truncate, hd]
  congr 2
  cases s with
  | false =>
    simp only [signed, Bool.false_eq_true, if_false, Int.cast_natCast] at ha ⊢
    have h0 : ¬ a < 0 := by
      rw [ha]
      exact not_lt.mpr (by positivity)
    rw [if_neg h0, ha, hf]
  | true =>
    simp only [signed, if_true, Int.cast_neg, Int.cast_natCast, neg_div] at ha ⊢
    by_cases h0 : a < 0
    · rw [if_pos h0, ha, Int.ceil_neg, hf]
    · have hz : (n : ℚ) / 2 ^ p.places = 0 := le_antisymm (by linarith) (by positivity)
      rw [hz, Int.floor_zero] at hf
      rw [if_neg h0, ha, hz, ← hf]
      simp

theorem truncate_mono (hx : p.Denotes x a) (hy : p.Denotes y b) (h : a ≤ b) (lo hi : Int) :
    p.truncate lo hi x ≤ p.truncate lo hi y := by
  rw [truncate_of_denotes hx, truncate_of_denotes hy]
  refine max_le_max le_rfl (min_le_min le_rfl ?_)
  split
  · rename_i ha
    split
    · exact Int.ceil_le_ceil h
    · rename_i hb
      have h0 : ⌈a⌉ ≤ 0 := Int.ceil_le.mpr (by exact_mod_cast ha.le)
      exact h0.trans (Int.floor_nonneg.mpr (not_lt.mp hb))
  · rename_i ha
    rw [if_neg (not_lt.mpr ((not_lt.mp ha).trans h))]
    exact Int.floor_le_floor h

end Arithmetic
end RawPcm.Precision
