import RawPcm.Cursor

/-! A move by a number of samples is as many single moves, and distances are such moves. -/
namespace RawPcm

theorem Size.signed_of_mem {n : Int} (hl : -(bufferLimit : Int) ≤ n) (hu : n < bufferLimit) :
    signed n = .ok n := by
  simp only [bufferLimit] at hl hu
  exact if_pos (by omega)

theorem Size.asSigned_of_lt {n : Nat} (h : n < bufferLimit) : asSigned n = n := by
  simp only [bufferLimit] at h
  simp only [asSigned, sizeLimit]
  exact Int.bmod_eq_of_le (by omega) (by omega)

namespace Cursor

/-- One move after the other, up to the first that fails. -/
def repeated (move : Cursor → Except Fault Unit × Cursor) :
    (count : Nat) → Cursor → Except Fault Unit × Cursor
  | 0, c => (.ok (), c)
  | count + 1, c =>
    match move c with
    | (.error e, c) => (.error e, c)
    | (.ok (), c) => repeated move count c

def steps (c : Cursor) : (samples : Int) → Except Fault Unit × Cursor
  | .ofNat n => repeated advance n c
  | .negSucc n => repeated retreat (n + 1) c

/-- Where a number of samples leads to, in reach or not. -/
def target (c : Cursor) (samples : Int) : Int := c.offset + samples * c.format.size

theorem repeated_advance {c : Cursor} {count : Nat}
    (h : c.offset + count * c.format.size < sizeLimit) :
    repeated advance count c = (.ok (), { c with offset := c.offset + count * c.format.size }) := by
  induction count generalizing c with
  | zero => simp [repeated]
  | succ count ih =>
    rw [Nat.succ_mul] at h
    have hn := ih (c := { c with offset := c.offset + c.format.size }) (by simp only; omega)
    rw [repeated, advance_of_lt (by omega)]
    simp only [hn, Nat.succ_mul, Nat.add_assoc, Nat.add_comm c.format.size]

theorem repeated_retreat (c : Cursor) (count : Nat) :
    repeated retreat count c =
      if count * c.format.size ≤ c.offset then
        (.ok (), { c with offset := c.offset - count * c.format.size })
      else (.error .beforeStart, { c with offset := c.offset % c.format.size }) := by
  induction count generalizing c with
  | zero => simp [repeated]
  | succ count ih =>
    rw [repeated, Nat.succ_mul]
    -- Whether the rest of the moves succeed is decided by what the first of them has left.
    by_cases h : c.format.size ≤ c.offset
    · have hle : count * c.format.size ≤ c.offset - c.format.size ↔
          count * c.format.size + c.format.size ≤ c.offset := by omega
      simp only [retreat_of_le h, ih, hle, Nat.sub_sub, Nat.add_comm c.format.size,
        ← Nat.mod_eq_sub_mod h]
    · have hf : c.retreat = (.error .beforeStart, c) := if_neg h
      simp only [hf]
      rw [if_neg (by omega), Nat.mod_eq_of_lt (Nat.lt_of_not_le h)]

section Moves
variable {c : Cursor} {n : Int}

theorem steps_eq (h : c.target n < sizeLimit) :
    c.steps n = if 0 ≤ c.target n then (.ok (), { c with offset := (c.target n).toNat })
      else (.error .beforeStart, { c with offset := c.offset % c.format.size }) := by
  cases n with
  | ofNat n =>
    have ht : c.target (.ofNat n) = (c.offset + n * c.format.size : Nat) := by simp [target]
    rw [ht] at h ⊢
    rw [steps, repeated_advance (by omega), if_pos (Int.natCast_nonneg _), Int.toNat_natCast]
  | negSucc n =>
    have ht : c.target (.negSucc n) = c.offset - ((n + 1) * c.format.size : Nat) := by
      rw [target, Int.negSucc_eq, Int.neg_mul, ← Int.sub_eq_add_neg]
      simp
    rw [ht, steps, repeated_retreat]
    by_cases hle : (n + 1) * c.format.size ≤ c.offset
    · rw [if_pos hle, if_pos (by omega), Int.toNat_sub]
    · rw [if_neg hle, if_neg (by omega)]

theorem advanceBy_eq (hl : -(bufferLimit : Int) ≤ n * c.format.size)
    (hu : n * c.format.size < bufferLimit) :
    c.advanceBy n = if 0 ≤ c.target n ∧ c.target n < sizeLimit then
      (.ok (), { c with offset := (c.target n).toNat }) else (.error .beforeStart, c) := by
  rw [advanceBy, Size.signed_of_mem hl hu]
  rfl

theorem index_of_offset {d : Cursor} (hf : d.format = c.format)
    (ho : (d.offset : Int) = c.target n) : (d.index : Int) = c.index + n := by
  have hs : (c.format.size : Int) ≠ 0 := Int.natCast_ne_zero.mpr (Nat.ne_of_gt c.format.size_pos)
  rw [index, index, hf, Int.natCast_ediv, ho, target, Int.add_mul_ediv_right _ _ hs,
    Int.natCast_ediv]

end Moves

section Distances
variable {b : Buffer} {f : Format} {i j : Nat}

theorem distanceTo_eq (hi : i < bufferLimit) (hj : j < bufferLimit) (g : Format) :
    distanceTo ⟨b, i, f⟩ ⟨b, j, g⟩ = .ok (((j : Int) - i).tdiv f.size) := by
  have hn : Size.signed ((j : Int) - i) = .ok ((j : Int) - i) :=
    Size.signed_of_mem (by omega) (by omega)
  simp [distanceTo, Size.asSigned_of_lt hi, Size.asSigned_of_lt hj, hn]

theorem exists_samples (h : i % f.size = j % f.size) : ∃ n : Int, (j : Int) - i = n * f.size := by
  have hd : (f.size : Int) ∣ (j : Int) - i := Int.dvd_of_emod_eq_zero (by
    rw [Int.sub_emod, ← Int.natCast_emod, ← Int.natCast_emod, h, Int.sub_self, Int.zero_emod])
  obtain ⟨n, hn⟩ := hd
  exact ⟨n, by rw [hn, Int.mul_comm]⟩

theorem distanceTo_of_samples (hi : i < bufferLimit) (hj : j < bufferLimit) {n : Int}
    (h : (j : Int) - i = n * f.size) : distanceTo ⟨b, i, f⟩ ⟨b, j, f⟩ = .ok n := by
  have hs : (f.size : Int) ≠ 0 := Int.natCast_ne_zero.mpr (Nat.ne_of_gt f.size_pos)
  rw [distanceTo_eq hi hj, h, Int.mul_tdiv_cancel _ hs]

theorem advanceBy_of_samples (hi : i < bufferLimit) (hj : j < bufferLimit) {n : Int}
    (h : (j : Int) - i = n * f.size) : advanceBy ⟨b, i, f⟩ n = (.ok (), ⟨b, j, f⟩) := by
  have ht : target ⟨b, i, f⟩ n = j := by
    simp only [target]
    omega
  have hj' : (j : Int) < sizeLimit := by
    simp only [bufferLimit, sizeLimit] at hj ⊢
    omega
  rw [advanceBy_eq (by simp only; omega) (by simp only; omega), ht,
    if_pos ⟨Int.natCast_nonneg j, hj'⟩, Int.toNat_natCast]

theorem same_of_samples {n : Int} (h : (j : Int) - i = n * f.size) :
    same ⟨b, i, f⟩ ⟨b, j, f⟩ = .ok (decide (n = 0)) := by
  have hs := f.size_pos
  have he : i = j ↔ n = 0 := by
    constructor
    · rintro rfl
      rw [Int.sub_self] at h
      rcases Int.mul_eq_zero.mp h.symm with hn | hn
      · exact hn
      · omega
    · rintro rfl
      omega
  simp [same, he]

end Distances

/-- A move that fails is one of which a single move would fail, and the position stays. Positions need
not be aligned, and a distance that is no whole number of samples is cut towards zero. -/
theorem moves_by_samples :
    (∀ (c : Cursor) (n : Int), c.offset < bufferLimit →
      -(bufferLimit : Int) ≤ n * c.format.size → n * c.format.size < bufferLimit →
      ((∃ d, c.advanceBy n = (.ok (), d)) ↔ 0 ≤ c.target n ∧ c.target n < sizeLimit) ∧
        (∀ d, c.advanceBy n = (.ok (), d) → d.buffer = c.buffer ∧ d.format = c.format ∧
          (d.offset : Int) = c.target n ∧ (d.index : Int) = c.index + n ∧
          c.steps n = (.ok (), d)) ∧
        (c.steps n).1 = (c.advanceBy n).1 ∧
        (¬ (0 ≤ c.target n ∧ c.target n < sizeLimit) →
          c.advanceBy n = (.error .beforeStart, c))) ∧
    ∀ (b : Buffer) (f : Format) (i j : Nat), i < bufferLimit → j < bufferLimit →
      (∀ g, distanceTo ⟨b, i, f⟩ ⟨b, j, g⟩ = .ok (((j : Int) - i).tdiv f.size)) ∧
        (i % f.size = j % f.size → ∃ n : Int, n * f.size = j - i ∧
          distanceTo ⟨b, i, f⟩ ⟨b, j, f⟩ = .ok n ∧ distanceTo ⟨b, j, f⟩ ⟨b, i, f⟩ = .ok (-n) ∧
          advanceBy ⟨b, i, f⟩ n = (.ok (), ⟨b, j, f⟩) ∧
          same ⟨b, i, f⟩ ⟨b, j, f⟩ = .ok (decide (n = 0)) ∧
          ∀ k < bufferLimit, j % f.size = k % f.size → ∃ m,
            distanceTo ⟨b, j, f⟩ ⟨b, k, f⟩ = .ok m ∧
            distanceTo ⟨b, i, f⟩ ⟨b, k, f⟩ = .ok (n + m)) := by
  constructor
  · intro c n ho hl hu
    have hlt : c.target n < sizeLimit := by
      simp only [target, bufferLimit, sizeLimit] at ho hu ⊢
      omega
    rw [steps_eq hlt, advanceBy_eq hl hu]
    by_cases h0 : 0 ≤ c.target n
    · refine ⟨by simp [h0, hlt], ?_, by simp [h0, hlt], fun h => absurd ⟨h0, hlt⟩ h⟩
      rw [if_pos ⟨h0, hlt⟩]
      rintro d ⟨⟩
      have hoff := Int.toNat_of_nonneg h0
      exact ⟨rfl, rfl, hoff, index_of_offset rfl hoff, if_pos h0⟩
    · rw [if_neg h0, if_neg fun h => h0 h.1]
      exact ⟨by simp [h0], nofun, rfl, fun _ => rfl⟩
  · intro b f i j hi hj
    refine ⟨distanceTo_eq hi hj, fun h => ?_⟩
    obtain ⟨n, hn⟩ := exists_samples h
    have hback : (i : Int) - j = -n * f.size := by
      rw [Int.neg_mul, ← hn]
      omega
    refine ⟨n, hn.symm, distanceTo_of_samples hi hj hn, distanceTo_of_samples hj hi hback,
      advanceBy_of_samples hi hj hn, same_of_samples hn, fun k hk h' => ?_⟩
    obtain ⟨m, hm⟩ := exists_samples h'
    have hsum : (k : Int) - i = (n + m) * f.size := by
      rw [Int.add_mul, ← hn, ← hm]
      omega
    exact ⟨m, distanceTo_of_samples hj hk hm, distanceTo_of_samples hi hk hsum⟩

theorem moves_by_samples_of_24_bits :
    steps ⟨⟨0, []⟩, 7, .integer .signed .w24 .big⟩ (-2) =
        (.ok (), ⟨⟨0, []⟩, 1, .integer .signed .w24 .big⟩) ∧
      advanceBy ⟨⟨0, []⟩, 7, .integer .signed .w24 .big⟩ (-3) =
        (.error .beforeStart, ⟨⟨0, []⟩, 7, .integer .signed .w24 .big⟩) ∧
      distanceTo ⟨⟨0, []⟩, 7, .integer .signed .w24 .big⟩ ⟨⟨0, []⟩, 2, .integer .signed .w24 .big⟩ =
        .ok (-1) ∧
      ∃ n, distanceTo ⟨⟨0, []⟩, 7, .integer .signed .w24 .big⟩
          ⟨⟨0, []⟩, 1, .integer .signed .w24 .big⟩ = .ok n ∧
        advanceBy ⟨⟨0, []⟩, 7, .integer .signed .w24 .big⟩ n =
          (.ok (), ⟨⟨0, []⟩, 1, .integer .signed .w24 .big⟩) := by
  obtain ⟨hmove, hdistance⟩ := moves_by_samples
  refine ⟨?_, ?_, ?_, ?_⟩
  · obtain ⟨-, hd, -⟩ := hmove ⟨⟨0, []⟩, 7, .integer .signed .w24 .big⟩ (-2) (by decide) (by decide)
      (by decide)
    exact (hd ⟨⟨0, []⟩, 1, _⟩ rfl).2.2.2.2
  · exact (hmove ⟨⟨0, []⟩, 7, _⟩ (-3) (by decide) (by decide) (by decide)).2.2.2 (by decide)
  · exact ((hdistance ⟨0, []⟩ _ 7 2 (by decide) (by decide)).1 _).trans rfl
  · obtain ⟨n, -, hd, -, ha, -⟩ := (hdistance ⟨0, []⟩ (.integer .signed .w24 .big) 7 1 (by decide)
      (by decide)).2 (by decide)
    exact ⟨n, hd, ha⟩

end Cursor
end RawPcm
