import RawPcm.Proofs.Floating.Value
import RawPcm.Proofs.Floating.Monotone

/-! The order of floating point numbers, infinities included, is that of signed magnitude patterns.
Rounding keeps it. -/
namespace RawPcm

/-- At most, in the order of the numbers; a NaN is not even at most itself. -/
def Datum.le (a b : Datum) : Bool := !a.isNaN && !b.isNaN && !b.lt a

namespace Datum
theorem infinite_true_le {a : Datum} (h : a.isNaN = false) : (infinite true).le a = true := by
  cases a with
  | nan => exact absurd h (by decide)
  | infinite negative => cases negative <;> rfl
  | finite negative n => rfl

theorem le_infinite_false {a : Datum} (h : a.isNaN = false) : a.le (infinite false) = true := by
  cases a with
  | nan => exact absurd h (by decide)
  | infinite negative => cases negative <;> rfl
  | finite negative n => rfl
end Datum

namespace Precision
open Datum
variable {p : Precision}

/-- The place in the order: the magnitude pattern with its sign. -/
def rank (p : Precision) (x : BitVec p.bits) : Int :=
  signed x.msb (x.toNat % 2 ^ (p.bits - 1) : Nat)

theorem rank_pattern (negative : Bool) {n : Nat} (h : n ≤ p.infinity) :
    p.rank (p.pattern negative n) = signed negative n := by
  have hn := Nat.lt_of_le_of_lt h p.infinity_lt
  rw [rank, toNat_pattern_mod negative hn, msb_pattern negative hn]

theorem isNaN_pattern (negative : Bool) {n : Nat} (h : n ≤ p.infinity) :
    (p.datum (p.pattern negative n)).isNaN = false := by
  rcases Nat.lt_or_eq_of_le h with h | rfl
  · rw [datum_pattern negative h]
    rfl
  · rw [← infinityOf, datum_infinityOf]
    rfl

theorem nearestMagnitude_le (p : Precision) (num den : Nat) :
    p.nearestMagnitude num den ≤ p.infinity := Nat.min_le_left ..

theorem rank_nearest (negative : Bool) (num den : Nat) :
    p.rank (p.nearest negative num den) = signed negative (p.nearestMagnitude num den) :=
  rank_pattern negative (p.nearestMagnitude_le num den)

theorem infinity_pos (p : Precision) : 0 < p.infinity := by cases p <;> decide

theorem lt_iff_rank_lt {x y : BitVec p.bits} (hx : (p.datum x).isNaN = false)
    (hy : (p.datum y).isNaN = false) : p.lt x y = true ↔ p.rank x < p.rank y := by
  have hi := p.infinity_pos
  have hr (s : Bool) : p.rank (p.infinityOf s) = signed s p.infinity :=
    rank_pattern s (Nat.le_refl _)
  obtain ⟨s, rfl⟩ | ⟨s, m, hm, rfl⟩ := exists_pattern hx <;>
    obtain ⟨t, rfl⟩ | ⟨t, n, hn, rfl⟩ := exists_pattern hy
  · rw [lt, datum_infinityOf, datum_infinityOf, hr, hr]
    cases s <;> cases t <;> simp [Datum.lt, signed, hi]
  · rw [lt, datum_infinityOf, datum_pattern t hn, hr, rank_pattern t hn.le]
    cases s <;> cases t <;> simp [Datum.lt, signed] <;> omega
  · rw [lt, datum_infinityOf, datum_pattern s hm, hr, rank_pattern s hm.le]
    cases s <;> cases t <;> simp [Datum.lt, signed] <;> omega
  · have hlt := p.units_strictMono.lt_iff_lt (a := m) (b := n)
    have hgt := p.units_strictMono.lt_iff_lt (a := n) (b := m)
    have hm0 := units_pos (p := p) (n := m)
    have hn0 := units_pos (p := p) (n := n)
    rw [lt, datum_pattern s hm, datum_pattern t hn, rank_pattern s hm.le, rank_pattern t hn.le]
    cases s <;> cases t <;> simp [Datum.lt, signed] <;> omega

theorem le_datum_iff {x y : BitVec p.bits} : (p.datum x).le (p.datum y) = true ↔
    (p.datum x).isNaN = false ∧ (p.datum y).isNaN = false ∧ p.rank x ≤ p.rank y := by
  rw [Datum.le, Bool.and_eq_true, Bool.and_eq_true, and_assoc]
  simp only [Bool.not_eq_true']
  refine and_congr_right fun hx => and_congr_right fun hy => ?_
  have hlt := lt_iff_rank_lt hy hx
  rw [lt] at hlt
  rw [← Bool.not_eq_true, hlt, not_lt]

section Rounding
variable {x y : BitVec p.bits} {a b c d : ℚ}

theorem Rounds.isNaN_eq_false (h : p.Rounds x a) : (p.datum x).isNaN = false := by
  obtain ⟨s, num, den, -, rfl, -, -⟩ := h
  exact isNaN_pattern s (p.nearestMagnitude_le num den)

theorem Rounds.rank_le (hx : p.Rounds x a) (hy : p.Rounds y b) (h : a ≤ b) :
    p.rank x ≤ p.rank y := by
  obtain ⟨s, m, k, hk, rfl, hm, hs⟩ := hx
  obtain ⟨t, n, l, hl, rfl, hn, ht⟩ := hy
  have hp := two_pow_pos p.places
  have hmono {m k n l : Nat} {a b : ℚ} (hk : 0 < k) (hl : 0 < l)
      (hm : (m : ℚ) = |a| * 2 ^ p.places * k) (hn : (n : ℚ) = |b| * 2 ^ p.places * l)
      (h : |a| ≤ |b|) : p.nearestMagnitude m k ≤ p.nearestMagnitude n l := by
    apply nearestMagnitude_mono hk hl
    have : (m * l : ℚ) ≤ n * k := by
      rw [hm, hn, mul_right_comm]
      gcongr
    exact_mod_cast this
  rw [rank_nearest, rank_nearest]
  have ha := abs_nonneg a
  have hb := abs_nonneg b
  cases s <;> cases t <;> simp only [if_true, if_false, Bool.false_eq_true] at hs ht <;>
    simp only [signed, if_true, if_false, Bool.false_eq_true]
  · exact_mod_cast hmono hk hl hm hn (by linarith)
  · -- A number that is not negative is below one that is not positive only if both are zero.
    have h1 := hmono (b := 0) (n := 0) (l := 1) hk Nat.one_pos hm (by simp) (by simp; linarith)
    have h2 := hmono (b := 0) (n := 0) (l := 1) hl Nat.one_pos hn (by simp) (by simp; linarith)
    have h0 := nearestMagnitude_units (p := p) p.infinity_pos Nat.one_pos
    rw [units_zero, Nat.zero_mul] at h0
    omega
  · omega
  · have := hmono hl hk hn hm (by linarith)
    omega

theorem Denotes.le_of_rank_le (hx : p.Denotes x a) (hy : p.Denotes y b)
    (h : p.rank x ≤ p.rank y) : a ≤ b := by
  by_contra hlt
  have hl := lt_of_denotes hy hx
  rw [decide_eq_true (not_le.mp hlt), lt_iff_rank_lt (isNaN_of_denotes hy) (isNaN_of_denotes hx)]
    at hl
  omega

theorem Represents.exists_denotes (h : p.Represents a) : ∃ x, p.Denotes x a := by
  obtain ⟨n, ⟨m, hm, rfl⟩, hn⟩ := h
  refine ⟨p.pattern (decide (a < 0)) m, _, _, datum_pattern _ hm, ?_⟩
  by_cases ha : a < 0
  · rw [decide_eq_true ha, signed, if_pos rfl, Int.cast_neg, Int.cast_natCast, ← hn, abs_of_neg ha,
      neg_mul, neg_neg]
  · rw [decide_eq_false ha, signed, if_neg (by simp), Int.cast_natCast, ← hn,
      abs_of_nonneg (not_lt.mp ha)]

theorem exists_rounds (p : Precision) (a : ℚ) : ∃ x, p.Rounds x a := by
  refine ⟨_, decide (a < 0), a.num.natAbs * 2 ^ p.places, a.den, a.den_pos, rfl, ?_, ?_⟩
  · have hnum : (a.num.natAbs : ℚ) = |a| * a.den := by
      rw [Nat.cast_natAbs, Int.cast_abs, ← Rat.mul_den_eq_num, abs_mul, Nat.abs_cast]
    rw [Nat.cast_mul, hnum]
    push_cast
    ring
  · by_cases ha : a < 0
    · simp [ha, abs_of_neg ha]
    · simp [ha, abs_of_nonneg (not_lt.mp ha)]

theorem Rounds.le (hx : p.Rounds x a) (hc : p.Denotes x c) (hd : p.Represents d) (h : a ≤ d) :
    c ≤ d := by
  obtain ⟨y, hy⟩ := hd.exists_denotes
  exact hc.le_of_rank_le hy (hx.rank_le hy.rounds h)

theorem Rounds.ge (hx : p.Rounds x a) (hc : p.Denotes x c) (hd : p.Represents d) (h : d ≤ a) :
    d ≤ c := by
  obtain ⟨y, hy⟩ := hd.exists_denotes
  exact hy.le_of_rank_le hc (hy.rounds.rank_le hx h)

theorem Represents.neg (h : p.Represents a) : p.Represents (-a) := by
  rwa [Represents, abs_neg]

theorem Rounds.abs_le_of_abs_le (hx : p.Rounds x a) (hc : p.Denotes x c) (hd : p.Represents d)
    (h : |a| ≤ d) : |c| ≤ d := by
  obtain ⟨hlo, hhi⟩ := abs_le.mp h
  exact abs_le.mpr ⟨hx.ge hc hd.neg hlo, hx.le hc hd hhi⟩

theorem Rounds.le_abs_of_le_abs (hx : p.Rounds x a) (hc : p.Denotes x c) (hd : p.Represents d)
    (h : d ≤ |a|) : d ≤ |c| := by
  rcases le_abs.mp h with h | h
  · exact (hx.ge hc hd h).trans (le_abs_self c)
  · have := hx.le hc hd.neg (by linarith)
    exact le_abs.mpr (.inr (by linarith))

theorem Rounds.exists_denotes (hx : p.Rounds x a) (hd : p.Represents d) (h : |a| ≤ d) :
    ∃ c, p.Denotes x c := by
  obtain ⟨ha, ha'⟩ := abs_le.mp h
  obtain ⟨y, hy⟩ := hd.exists_denotes
  obtain ⟨z, hz⟩ := hd.neg.exists_denotes
  have hxy := hx.rank_le hy.rounds ha'
  have hzx := hz.rounds.rank_le hx ha
  obtain ⟨s, m, hm, rfl, -⟩ := hy.exists_pattern
  obtain ⟨t, n, hn, rfl, -⟩ := hz.exists_pattern
  rw [rank_pattern s hm.le] at hxy
  rw [rank_pattern t hn.le] at hzx
  obtain ⟨u, rfl⟩ | ⟨u, k, hk, rfl⟩ := exists_pattern hx.isNaN_eq_false
  · rw [infinityOf, rank_pattern u (Nat.le_refl _)] at hxy hzx
    cases s <;> cases t <;> cases u <;>
      simp only [signed, if_true, if_false, Bool.false_eq_true] at hxy hzx <;> omega
  · exact ⟨_, denotes_of_datum (datum_pattern u hk)⟩

/-- What a number is rounded to does not depend on how it was written as a quotient. -/
theorem Rounds.denotes_of_rounds (hx : p.Rounds x a) (hy : p.Rounds y a) (hc : p.Denotes y c) :
    p.Denotes x c := by
  have hle := hx.rank_le hy le_rfl
  have hge := hy.rank_le hx le_rfl
  obtain ⟨s, num, den, -, rfl, -, -⟩ := hx
  obtain ⟨t, m, hm, rfl, hn⟩ := hc.exists_pattern
  rw [rank_nearest, rank_pattern t hm.le] at hle hge
  have hi := p.nearestMagnitude_le num den
  rw [nearest]
  generalize p.nearestMagnitude num den = k at *
  obtain rfl : k = m := by
    cases s <;> cases t <;> simp only [signed, if_true, if_false, Bool.false_eq_true] at hle hge <;>
      omega
  refine ⟨s, _, datum_pattern s hm, hn.trans ?_⟩
  have h0 : k = 0 → p.units k = 0 := fun h => by rw [h, units_zero]
  norm_cast
  cases s <;> cases t <;> simp only [signed, if_true, if_false, Bool.false_eq_true] at * <;> omega

theorem Rounds.denotes_of_digits (hx : p.Rounds x a) {n e : Nat} (ha : a * 2 ^ p.places = n)
    (he : e + 3 < 2 ^ (p.bits - p.digits)) (hlo : e = 0 ∨ 2 ^ (p.digits - 1) * 2 ^ e ≤ n)
    (hhi : n < 2 ^ p.digits * 2 ^ e) :
    p.Denotes x ((roundHalfEven n (2 ^ e) * 2 ^ e : Nat) / 2 ^ p.places) := by
  have hp := two_pow_pos p.places
  have h0 : 0 ≤ a := nonneg_of_mul_nonneg_left (ha ▸ n.cast_nonneg) hp
  have hy : p.Rounds (p.nearest false n 1) a :=
    ⟨false, n, 1, Nat.one_pos, rfl, by rw [abs_of_nonneg h0, ha, Nat.cast_one, mul_one],
      by simp [abs_of_nonneg h0]⟩
  obtain ⟨m, hm, heq, hu⟩ := nearest_of_digits (p := p) false Nat.one_pos he
    (by rwa [Nat.one_mul]) (by rwa [Nat.one_mul])
  rw [Nat.one_mul] at hu
  apply hx.denotes_of_rounds hy
  refine ⟨false, p.units m, by rw [heq, datum_pattern false hm], ?_⟩
  rw [hu, div_mul_cancel₀ _ hp.ne']
  simp [signed]

theorem Denotes.unique (hx : p.Denotes x a) (hy : p.Denotes x b) : a = b :=
  le_antisymm (hx.le_of_rank_le hy le_rfl) (hy.le_of_rank_le hx le_rfl)

theorem Denotes.injective (hx : p.Denotes x a) (hy : p.Denotes y a) (ha : a ≠ 0) : x = y := by
  have hle := hx.rounds.rank_le hy.rounds le_rfl
  have hge := hy.rounds.rank_le hx.rounds le_rfl
  obtain ⟨s, m, hm, rfl, hs⟩ := hx.exists_pattern
  obtain ⟨t, n, hn, rfl, -⟩ := hy.exists_pattern
  have h0 : 0 < m := by
    rw [← units_pos (p := p), Nat.pos_iff_ne_zero]
    intro h0
    have hz := (abs_of_signed hs).1
    rw [h0, Nat.cast_zero, mul_eq_zero, abs_eq_zero] at hz
    exact hz.elim ha (two_pow_pos _).ne'
  rw [rank_pattern s hm.le, rank_pattern t hn.le] at hle hge
  have hst : s = t ∧ m = n := by
    cases s <;> cases t <;> simp only [signed, if_true, if_false, Bool.false_eq_true] at hle hge <;>
      simp only [reduceCtorEq, true_and, false_and] <;> omega
  rw [hst.1, hst.2]

theorem Denotes.eq_of_eq (hx : p.Denotes x a) (hy : p.Denotes y b) (h : a = b) (ha : a ≠ 0) :
    x = y :=
  hx.injective (h ▸ hy) ha

theorem le_cases (h : (p.datum x).le (p.datum y) = true) : p.datum x = .infinite true ∨
    p.datum y = .infinite false ∨ ∃ a b, p.Denotes x a ∧ p.Denotes y b ∧ a ≤ b := by
  have hle := le_datum_iff.mp h
  cases hx : p.datum x with
  | nan => simp [hx, Datum.isNaN] at hle
  | infinite s =>
    cases s with
    | true => exact .inl rfl
    | false =>
      rw [hx] at h
      cases hy : p.datum y with
      | nan => simp [hy, Datum.le, Datum.isNaN] at h
      | infinite t => cases t <;> simp_all [Datum.le, Datum.isNaN, Datum.lt]
      | finite t n => simp [hy, Datum.le, Datum.isNaN, Datum.lt] at h
  | finite s m =>
    cases hy : p.datum y with
    | nan => simp [hy, Datum.isNaN] at hle
    | infinite t =>
      cases t with
      | false => exact .inr (.inl rfl)
      | true => simp [hx, hy, Datum.le, Datum.isNaN, Datum.lt] at h
    | finite t n =>
      have hdx := denotes_of_datum hx
      have hdy := denotes_of_datum hy
      exact .inr (.inr ⟨_, _, hdx, hdy, hdx.le_of_rank_le hdy hle.2.2⟩)

theorem Rounds.le_datum {a b : ℚ} (hx : p.Rounds x a) (hy : p.Rounds y b) (h : a ≤ b) :
    (p.datum x).le (p.datum y) = true :=
  le_datum_iff.mpr ⟨hx.isNaN_eq_false, hy.isNaN_eq_false, hx.rank_le hy h⟩

theorem datum_cast_infinite (q : Precision) {negative : Bool} (h : p.datum x = .infinite negative) :
    q.datum (p.cast q x) = .infinite negative := by
  have hr (q : Precision) : q.datum (p.resize q x) = .infinite negative := by
    simp only [resize, h, datum_infinityOf]
  cases p <;> cases q
  · exact h
  · exact hr .double
  · exact hr .single
  · exact h

theorem isNaN_cast (q : Precision) (h : (p.datum x).isNaN = false) :
    (q.datum (p.cast q x)).isNaN = false := by
  cases hd : p.datum x with
  | nan => simp [hd, Datum.isNaN] at h
  | infinite negative =>
    rw [datum_cast_infinite q hd]
    rfl
  | finite negative n => exact (rounds_cast q (denotes_of_datum hd)).isNaN_eq_false

theorem cast_mono (q : Precision) (h : (p.datum x).le (p.datum y) = true) :
    (q.datum (p.cast q x)).le (q.datum (p.cast q y)) = true := by
  obtain ⟨hx, hy, -⟩ := le_datum_iff.mp h
  rcases le_cases h with he | he | ⟨a, b, ha, hb, hab⟩
  · rw [datum_cast_infinite q he]
    exact Datum.infinite_true_le (isNaN_cast q hy)
  · rw [datum_cast_infinite q he]
    exact Datum.le_infinite_false (isNaN_cast q hx)
  · exact (rounds_cast q ha).le_datum (rounds_cast q hb) hab

end Rounding
end Precision
end RawPcm
