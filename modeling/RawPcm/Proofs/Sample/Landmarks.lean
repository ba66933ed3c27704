import Mathlib.Data.BitVec
import Mathlib.Tactic.LinearCombination
import RawPcm.Proofs.Sample.Grid
import RawPcm.Proofs.Sample.Order
import RawPcm.Proofs.Span.Deque

/-! A grid runs from the least value through the middle to the last one in equal steps. -/
namespace RawPcm
open Precision
variable {s : Signedness} {n : WordSize} {p : Precision} {t : SampleType} {bits k : Nat}

namespace SampleType

/-- The second value is the first one and a distance, for integers up to a wrap, for floating point
numbers exactly. -/
def Apart : (t : SampleType) → (distance x y : Sample t) → Prop
  | integer _ _, d, x, y => y = x + d
  | floating p, d, x, y => ∃ a b c, p.Denotes x a ∧ p.Denotes y b ∧ p.Denotes d c ∧ b = a + c

theorem point_zero (h1 : 1 ≤ bits) (hb : bits ≤ t.digits) : t.point bits 0 = t.least := by
  cases t with
  | integer s n => simp [point]
  | floating p =>
    have hpos := two_pow_pos (bits - 1)
    have hd := denotes_point (p := p) (k := 0) h1 hb (Nat.two_pow_pos bits)
    have hm : (offset bits 0 / 2 ^ (bits - 1) : ℚ) = -1 := by
      rw [offset]
      push_cast
      rw [zero_sub, neg_div, div_self hpos.ne']
    rw [hm] at hd
    exact hd.injective p.denotes_neg_one (by norm_num)

theorem point_middle (h1 : 1 ≤ bits) (hb : bits ≤ t.digits) :
    t.point bits (2 ^ (bits - 1)) = t.zero := by
  have hk : 2 ^ (bits - 1) < 2 ^ bits := Nat.pow_lt_pow_right (by decide) (by omega)
  cases t with
  | integer s n =>
    have hn : bits ≤ n.bits := hb
    have hexp : n.bits - bits + (bits - 1) = n.bits - 1 := by omega
    rw [point, zero, spacing, scale, spacing, ← BitVec.ofNat_mul, ← Nat.pow_add, hexp]
    exact BitVec.add_comm _ _
  | floating p =>
    have h0 : offset bits (2 ^ (bits - 1)) = 0 := by
      rw [offset]
      push_cast
      exact sub_self _
    rw [point_of_offset_eq_zero h1 hb hk h0]
    cases p <;> decide +kernel

theorem least_eq (s : Signedness) (n : WordSize) :
    (integer s n).least = BitVec.ofInt n.bits (s.greatest n.bits) + 1 := by
  cases s <;> cases n <;> decide

theorem point_last_integer {s : Signedness} {n : WordSize} (hb : bits ≤ n.bits) :
    (integer s n).point bits (2 ^ bits - 1) = (integer s n).last bits := by
  have hwrap : spacing (integer s n) bits * (BitVec.ofNat n.bits (2 ^ bits - 1) + 1) = 0 := by
    have hone : (1 : BitVec n.bits) = BitVec.ofNat n.bits 1 := rfl
    rw [hone, ← BitVec.ofNat_add, Nat.sub_add_cancel (Nat.two_pow_pos bits), spacing,
      ← BitVec.ofNat_mul, Nat.pow_sub_mul_pow 2 hb]
    apply BitVec.eq_of_toNat_eq
    rw [BitVec.toNat_ofNat, Nat.mod_self]
    rfl
  rw [point, last, least_eq]
  linear_combination hwrap

theorem offset_last (h1 : 1 ≤ bits) : offset bits (2 ^ bits - 1) = 2 ^ (bits - 1) - 1 := by
  have hpos := Nat.two_pow_pos bits
  have htwo : 2 ^ bits = 2 * 2 ^ (bits - 1) := by
    rw [Nat.mul_comm, Nat.two_pow_pred_mul_two h1]
  have hcast : ((2 ^ (bits - 1) : Nat) : Int) = 2 ^ (bits - 1) := by push_cast; rfl
  rw [offset]
  omega

theorem point_last_floating {p : Precision} (h1 : 1 ≤ bits) (hb : bits ≤ p.digits) :
    (floating p).point bits (2 ^ bits - 1) = (floating p).last bits := by
  have hspacing := denotes_spacing (p := p) h1 hb
  have hk : 2 ^ bits - 1 < 2 ^ bits := Nat.sub_lt (Nat.two_pow_pos bits) one_pos
  symm
  apply Sample.eq_point h1 hb hk
  · have hfrac : (offset bits (2 ^ bits - 1) / 2 ^ (bits - 1) : ℚ) = 1 - 1 / 2 ^ (bits - 1) := by
      rw [offset_last h1]
      push_cast
      field_simp
    rw [hfrac]
    exact denotes_sub (represents_one_sub ((Nat.sub_le ..).trans hb)) p.denotes_one hspacing
  · intro h0
    have hone : (1 / 2 ^ (bits - 1) : ℚ) = 1 := by
      have : (2 ^ (bits - 1) : ℤ) = 1 := by
        have := offset_last h1
        omega
      have : (2 ^ (bits - 1) : ℚ) = 1 := by exact_mod_cast this
      rw [this, div_one]
    rw [hone] at hspacing
    exact add_eq_zero p.denotes_one (denotes_neg hspacing) one_pos

theorem point_last (h1 : 1 ≤ bits) (hb : bits ≤ t.digits) :
    t.point bits (2 ^ bits - 1) = t.last bits := by
  cases t with
  | integer s n => exact point_last_integer hb
  | floating p => exact point_last_floating h1 hb

theorem point_succ (h1 : 1 ≤ bits) (hb : bits ≤ t.digits) (hk : k + 1 < 2 ^ bits) :
    t.Apart (t.spacing bits) (t.point bits k) (t.point bits (k + 1)) := by
  cases t with
  | integer s n =>
    have hone : BitVec.ofNat n.bits (k + 1) = BitVec.ofNat n.bits k + 1 := BitVec.ofNat_add ..
    rw [Apart, point, point, hone]
    ring
  | floating p =>
    refine ⟨_, _, _, denotes_point h1 hb (by omega), denotes_point h1 hb hk,
      denotes_spacing h1 hb, ?_⟩
    rw [offset, offset]
    push_cast
    field_simp
    ring

theorem point_lt (h1 : 1 ≤ bits) (hb : bits ≤ t.digits) {l : Nat} (hkl : k < l)
    (hl : l < 2 ^ bits) : Sample.lt (t.point bits k) (t.point bits l) = true := by
  have hplace : offset bits k < offset bits l := by
    rw [offset, offset]
    omega
  cases t with
  | integer s n =>
    have hpos : (0 : ℤ) < 2 ^ (n.bits - bits) := by positivity
    have hamp := (mul_lt_mul_iff_left₀ hpos).mpr hplace
    rw [← amplitude_point (s := s) h1 hb (hkl.trans hl), ← amplitude_point (s := s) h1 hb hl,
      ← not_le, ← Signedness.value_le_iff, not_le] at hamp
    exact decide_eq_true hamp
  | floating p =>
    have hlt := lt_of_denotes (denotes_point (p := p) h1 hb (hkl.trans hl))
      (denotes_point (p := p) h1 hb hl)
    rw [Sample.lt, hlt, decide_eq_true_eq]
    exact div_lt_div_of_pos_right (by exact_mod_cast hplace) (two_pow_pos _)

theorem digits_le (t : SampleType) : t.digits ≤ 64 := by
  cases t with
  | integer s n => exact n.bits_le
  | floating p => cases p <;> decide

end SampleType

theorem drain_of_row {σ α : Type} {step : σ → Option α × σ} (row : σ → List α)
    (hstep : ∀ g, (step g).1 = (row g).head? ∧ row (step g).2 = (row g).tail) (g : σ)
    (steps : Nat) (h : (row g).length < steps) :
    drain (fun g => (.ok (step g).1, (step g).2)) steps g = .ok (row g) := by
  induction steps generalizing g with
  | zero => exact absurd h (Nat.not_lt_zero _)
  | succ steps ih =>
    obtain ⟨hx, hr⟩ := hstep g
    cases hg : row g with
    | nil => simp [drain, hx, hg]
    | cons x xs =>
      rw [hg] at hr h
      have hn := ih (step g).2 (by rw [hr]; exact Nat.lt_of_succ_lt_succ h)
      simp [drain, hx, hg, hn, hr]

namespace Grid

@[simp] theorem length_toList (g : Grid t) : g.toList.length = g.left := by simp [toList]

theorem getElem?_toList (g : Grid t) (i : Nat) :
    g.toList[i]? = if i < g.left then some (t.point g.bits (g.first + i)) else none := by
  split
  · rename_i h
    simp [toList, h]
  · rename_i h
    simpa [toList] using Nat.not_lt.mp h

theorem nth_eq (g : Grid t) (n : Nat) :
    (g.nth n).1 = g.toList[n]? ∧ (g.nth n).2.toList = g.toList.drop (n + 1) := by
  rw [getElem?_toList, nth]
  split
  · refine ⟨rfl, List.ext_getElem? fun i => ?_⟩
    simp only [List.getElem?_drop, getElem?_toList, Nat.add_assoc]
    exact if_congr (by omega) rfl rfl
  · refine ⟨rfl, ?_⟩
    rw [List.drop_of_length_le (by rw [length_toList]; omega)]
    rfl

theorem nthBack_eq (g : Grid t) (n : Nat) :
    (g.nthBack n).1 = g.toList.reverse[n]? ∧
      (g.nthBack n).2.toList = g.toList.take (g.toList.length - (n + 1)) := by
  rw [length_toList, nthBack]
  split
  · rename_i h
    refine ⟨?_, List.ext_getElem? fun i => ?_⟩
    · rw [List.getElem?_reverse (by rwa [length_toList]), length_toList, getElem?_toList,
        if_pos (by omega), Nat.sub_sub, Nat.add_comm 1 n]
    · simp only [List.getElem?_take, getElem?_toList]
      split
      · rw [if_pos (by omega)]
      · rfl
  · rename_i h
    have hn : g.toList.reverse[n]? = none := by
      rw [List.getElem?_eq_none_iff, List.length_reverse, length_toList]
      exact Nat.not_lt.mp h
    refine ⟨hn.symm, ?_⟩
    rw [Nat.sub_eq_zero_of_le (by omega), List.take_zero]
    rfl

def onGrid : Span.Call → Grid t → Option (Sample t) × Grid t
  | .next, g => g.next
  | .nextBack, g => g.nextBack
  | .nth n, g => g.nth n
  | .nthBack n, g => g.nthBack n

theorem onGrid_eq (c : Span.Call) (g : Grid t) :
    ∃ g', onGrid c g = ((c.onRow g.toList).1, g') ∧ g'.toList = (c.onRow g.toList).2 := by
  cases c with
  | next =>
    obtain ⟨hx, hr⟩ := g.nth_eq 0
    exact ⟨_, Prod.ext (hx.trans List.head?_eq_getElem?.symm) rfl, hr.trans List.drop_one⟩
  | nextBack =>
    obtain ⟨hx, hr⟩ := g.nthBack_eq 0
    refine ⟨_, Prod.ext (hx.trans ?_) rfl, hr.trans List.dropLast_eq_take.symm⟩
    rw [← List.head?_eq_getElem?, ← List.getLast?_eq_head?_reverse]
    rfl
  | nth n =>
    obtain ⟨hx, hr⟩ := g.nth_eq n
    exact ⟨_, Prod.ext hx rfl, hr⟩
  | nthBack n =>
    obtain ⟨hx, hr⟩ := g.nthBack_eq n
    exact ⟨_, Prod.ext hx rfl, hr⟩

theorem answerEach_onGrid (calls : List Span.Call) (g : Grid t) :
    (answerEach onGrid calls g).1 = (answerEach Span.Call.onRow calls g.toList).1 := by
  have hstep : ∀ c ∈ calls, ∀ (xs : List (Sample t)) (g : Grid t), g.toList = xs →
      ∃ g', onGrid c g = ((c.onRow xs).1, g') ∧ g'.toList = (c.onRow xs).2 :=
    fun c _ xs g hg => hg ▸ onGrid_eq c g
  obtain ⟨g', h, -⟩ := answerEach_of_step id hstep (x := g.toList) rfl
  rw [h, List.map_id]

theorem drain_next (g : Grid t) (steps : Nat) (h : g.left < steps) :
    drain (fun g => (.ok g.next.1, g.next.2)) steps g = .ok g.toList := by
  apply drain_of_row toList _ g steps (by rwa [length_toList])
  intro g
  obtain ⟨g', h, hr⟩ := onGrid_eq .next g
  have h' : g.next = (g.toList.head?, g') := h
  exact ⟨congrArg Prod.fst h', h' ▸ hr⟩

theorem drain_nextBack (g : Grid t) (steps : Nat) (h : g.left < steps) :
    drain (fun g => (.ok g.nextBack.1, g.nextBack.2)) steps g = .ok g.toList.reverse := by
  apply drain_of_row (fun g : Grid t => g.toList.reverse) _ g steps
    (by rwa [List.length_reverse, length_toList])
  intro g
  obtain ⟨g', h, hr⟩ := onGrid_eq .nextBack g
  have h' : g.nextBack = (g.toList.getLast?, g') := h
  rw [h', List.getLast?_eq_head?_reverse]
  exact ⟨rfl, (congrArg List.reverse hr).trans List.tail_reverse.symm⟩

theorem all_eq (h1 : 1 ≤ bits) (hb : bits ≤ t.digits) (h64 : bits < 64) :
    all t bits = .ok ⟨bits, 0, 2 ^ bits⟩ := by
  rw [all, if_neg (by omega), if_neg (by omega)]

theorem pairwise_lt (h1 : 1 ≤ bits) (hb : bits ≤ t.digits) :
    (⟨bits, 0, 2 ^ bits⟩ : Grid t).toList.Pairwise fun x y => Sample.lt x y = true := by
  rw [toList, List.pairwise_map]
  refine List.pairwise_lt_range.imp_of_mem fun _ hl hkl => ?_
  rw [Nat.zero_add, Nat.zero_add]
  exact SampleType.point_lt h1 hb hkl (List.mem_range.mp hl)

/-- The points of a grid of 64 bits are one more than 64 bits can count. All other grids run from the
least value to the last one. -/
theorem all_runs_through (t : SampleType) (bits : Nat) (h1 : 1 ≤ bits) (hb : bits ≤ t.digits) :
    (bits = 64 → all t bits = .error .arithmetic) ∧
    (bits ≠ 64 → ∃ g xs, all t bits = .ok g ∧ xs.length = 2 ^ bits ∧
      (∀ steps, xs.length < steps →
        drain (fun g => (.ok g.next.1, g.next.2)) steps g = .ok xs ∧
        drain (fun g => (.ok g.nextBack.1, g.nextBack.2)) steps g = .ok xs.reverse) ∧
      (∀ calls, (answerEach onGrid calls g).1 = (answerEach Span.Call.onRow calls xs).1) ∧
      xs.Pairwise (fun x y => Sample.lt x y = true) ∧
      xs[0]? = some t.least ∧
      xs[2 ^ (bits - 1)]? = some t.zero ∧
      (∃ z, t.resolved t.last bits = .ok z ∧ xs[2 ^ bits - 1]? = some z) ∧
      ∃ d, t.resolved t.spacing bits = .ok d ∧
        ∀ k x y, xs[k]? = some x → xs[k + 1]? = some y → t.Apart d x y) := by
  constructor
  · rintro rfl
    rw [all, if_neg (by omega), if_pos (Nat.le_refl _)]
  intro h64
  have hlt : bits < 64 := by
    have := t.digits_le
    omega
  let g : Grid t := ⟨bits, 0, 2 ^ bits⟩
  have hpos := Nat.two_pow_pos bits
  have hmid : 2 ^ (bits - 1) < 2 ^ bits := Nat.pow_lt_pow_right (by decide) (by omega)
  have hg (i : Nat) : g.toList[i]? = if i < 2 ^ bits then some (t.point bits i) else none := by
    rw [getElem?_toList, Nat.zero_add]
  refine ⟨g, g.toList, all_eq h1 hb hlt, g.length_toList, ?_,
    fun calls => answerEach_onGrid calls g, pairwise_lt h1 hb, ?_, ?_,
    ⟨_, SampleType.resolved_of_le_digits h1 hb _, ?_⟩,
    ⟨_, SampleType.resolved_of_le_digits h1 hb _, ?_⟩⟩
  · intro steps hs
    rw [length_toList] at hs
    exact ⟨g.drain_next steps hs, g.drain_nextBack steps hs⟩
  · rw [hg, if_pos hpos, SampleType.point_zero h1 hb]
  · rw [hg, if_pos hmid, SampleType.point_middle h1 hb]
  · rw [hg, if_pos (Nat.sub_lt hpos Nat.one_pos), SampleType.point_last h1 hb]
  · intro k x y hx hy
    rw [hg, Option.ite_none_right_eq_some, Option.some.injEq] at hx hy
    rw [← hx.2, ← hy.2]
    exact SampleType.point_succ h1 hb hy.1

theorem all_runs_through_least_and_zero :
    1 ≤ 1 ∧ 1 ≤ SampleType.i8.digits ∧ ∃ g, all .i8 1 = .ok g ∧
      drain (fun g => (.ok g.next.1, g.next.2)) 3 g = .ok [0x80#8, 0#8] ∧
      drain (fun g => (.ok g.nextBack.1, g.nextBack.2)) 3 g = .ok [0#8, 0x80#8] ∧
      SampleType.i8.Apart 0x80#8 0x80#8 0#8 := by
  have hb : 1 ≤ SampleType.i8.digits := by decide
  obtain ⟨g, xs, hg, hlen, hdrain, -, -, hfirst, hmiddle, -, d, hd, happ⟩ :=
    (all_runs_through .i8 1 le_rfl hb).2 (by decide)
  obtain ⟨x, y, rfl⟩ := List.length_eq_two.mp hlen
  obtain rfl : SampleType.least .i8 = x := (Option.some.inj hfirst).symm
  obtain rfl : SampleType.zero .i8 = y := (Option.some.inj hmiddle).symm
  obtain rfl : SampleType.spacing .i8 1 = d := Except.ok.inj hd
  obtain ⟨hforth, hback⟩ := hdrain 3 (by decide)
  exact ⟨le_rfl, hb, g, hg, hforth, hback, happ 0 _ _ rfl rfl⟩

theorem all_of_64_bits :
    1 ≤ 64 ∧ 64 ≤ SampleType.i64.digits ∧ all .i64 64 = .error .arithmetic :=
  ⟨by decide, by decide, rfl⟩

end Grid
end RawPcm
