import RawPcm.Proofs.Span.Deque

/-! A span whose ends may be of different formats goes wrong where a sample at the back begins
before the front. -/
namespace RawPcm
namespace Span

inductive Side where
  | front
  | back

def Side.onSpan (t : SampleType) : Side → Span → Except Fault (Option (Sample t)) × Span
  | front, s => s.next t
  | back, s => s.nextBack t

/-- Samples can be taken from these sides in turn: no call fails, and none moves the ends past each
other. -/
def Safe (t : SampleType) : List Side → Span → Prop
  | [], _ => True
  | c :: cs, s => ∃ answer s', c.onSpan t s = (.ok answer, s') ∧
      s'.front.offset ≤ s'.back.offset ∧ Safe t cs s'

/-- A sample is left by the size at the front, but fewer bytes than one at the back has. -/
def Straddles (s : Span) : Prop :=
  s.front.format.size ≤ s.back.offset - s.front.offset ∧
    s.back.offset - s.front.offset < s.back.format.size

structure Ordered (s : Span) : Prop where
  buffer : s.back.buffer = s.front.buffer
  le : s.front.offset ≤ s.back.offset
  inside : s.back.offset ≤ s.front.buffer.bytes.length
  addressable : s.front.buffer.bytes.length < sizeLimit

namespace Ordered
variable {s : Span} {t : SampleType} (h : s.Ordered)
include h

theorem remaining : s.remaining = .ok ((s.back.offset - s.front.offset) / s.front.format.size) := by
  simp [Span.remaining, Size.sub, h.le, Span.format]

theorem onSpan_of_lt (hl : s.back.offset - s.front.offset < s.front.format.size) (c : Side) :
    c.onSpan t s = (.ok none, s) := by
  have hr := h.remaining
  rw [Nat.div_eq_of_lt hl] at hr
  cases c with
  | front => simp [Side.onSpan, next, hr]
  | back => simp [Side.onSpan, nextBack, hr]

variable (hl : s.front.format.size ≤ s.back.offset - s.front.offset)
include hl

theorem exists_remaining : ∃ n, s.remaining = .ok (n + 1) := by
  have hp := Nat.div_pos hl s.front.format.size_pos
  obtain ⟨n, hn⟩ := Nat.exists_eq_succ_of_ne_zero (Nat.ne_of_gt hp)
  exact ⟨n, by rw [h.remaining, hn]⟩

theorem next_of_le : ∃ x, s.next t = (.ok (some x),
    { s with front := { s.front with offset := s.front.offset + s.front.format.size } }) := by
  have hin := Nat.le_trans (Nat.add_le_of_le_sub' h.le hl) h.inside
  obtain ⟨n, hr⟩ := h.exists_remaining hl
  exact ⟨_, next_of_remaining hr hin h.addressable⟩

theorem nextBack_of_retreat (hb : s.back.format.size ≤ s.back.offset) :
    ∃ x, s.nextBack t = (.ok (some x),
      { s with back := { s.back with offset := s.back.offset - s.back.format.size } }) := by
  have hin : s.back.offset ≤ s.back.buffer.bytes.length := h.buffer ▸ h.inside
  obtain ⟨n, hr⟩ := h.exists_remaining hl
  exact ⟨_, nextBack_of_remaining hr hb hin⟩

/-- A step from the back is as wide as a sample there, not as one at the front. It leads before the
start of the buffer or at least before the front. -/
theorem nextBack_of_straddles (hb : s.back.offset - s.front.offset < s.back.format.size) :
    s.nextBack t = (.error .beforeStart, s) ∨ ∃ x s', s.nextBack t = (.ok (some x), s') ∧
      s'.back.offset < s'.front.offset := by
  have hle := h.le
  have hp := s.front.format.size_pos
  by_cases hs : s.back.format.size ≤ s.back.offset
  · obtain ⟨x, hn⟩ := h.nextBack_of_retreat (t := t) hl hs
    refine .inr ⟨x, _, hn, ?_⟩
    show s.back.offset - s.back.format.size < s.front.offset
    omega
  · obtain ⟨n, hr⟩ := h.exists_remaining hl
    have hm : s.back.retreat = (.error .beforeStart, s.back) := if_neg hs
    exact .inl (by simp only [nextBack, hr, hm])

end Ordered

section
variable {s : Span} {t : SampleType}

theorem Ordered.onSpan (h : s.Ordered) {c : Side} (hc : c = .back → ¬ s.Straddles) :
    ∃ answer s', c.onSpan t s = (.ok answer, s') ∧ s'.Ordered ∧
      s'.front.format = s.front.format ∧ s'.back.format = s.back.format := by
  have hin := h.inside
  rcases Nat.lt_or_ge (s.back.offset - s.front.offset) s.front.format.size with hl | hl
  · exact ⟨none, s, h.onSpan_of_lt hl c, h, rfl, rfl⟩
  · cases c with
    | front =>
      obtain ⟨x, hn⟩ := h.next_of_le (t := t) hl
      refine ⟨_, _, hn, ⟨h.buffer, ?_, hin, h.addressable⟩, rfl, rfl⟩
      exact Nat.add_le_of_le_sub' h.le hl
    | back =>
      have hb : s.back.format.size ≤ s.back.offset - s.front.offset :=
        Nat.le_of_not_lt fun hb => hc rfl ⟨hl, hb⟩
      obtain ⟨x, hn⟩ := h.nextBack_of_retreat (t := t) hl (by omega)
      refine ⟨_, _, hn, ⟨h.buffer, ?_, Nat.le_trans (Nat.sub_le ..) hin, h.addressable⟩, rfl, rfl⟩
      exact Nat.le_sub_of_add_le' (Nat.add_le_of_le_sub h.le hb)

theorem Ordered.not_straddles (h : s.Ordered) {answer : Option (Sample t)} {s' : Span}
    (hs : s.nextBack t = (.ok answer, s')) (hle : s'.front.offset ≤ s'.back.offset) :
    ¬ s.Straddles := by
  rintro ⟨hl, hb⟩
  rcases h.nextBack_of_straddles (t := t) hl hb with hn | ⟨x, s'', hn, hlt⟩
  · simp [hn] at hs
  · rw [hn] at hs
    cases hs
    exact Nat.not_lt_of_le hle hlt

/-- The calls in front decide where the ends are when the back is asked. -/
theorem Ordered.safe_iff (h : s.Ordered) (calls : List Side) :
    s.Safe t calls ↔ ∀ k, calls[k]? = some .back →
      ¬ (answerEach (Side.onSpan t) (calls.take k) s).2.Straddles := by
  induction calls generalizing s with
  | nil => simp [Safe]
  | cons c calls ih =>
    -- A safe call leaves the ends in order, so that the calls behind it can be judged alike.
    constructor
    · rintro ⟨answer, s', hs, hle, hn⟩ k hk
      have hc : c = .back → ¬ s.Straddles := by
        rintro rfl
        exact h.not_straddles hs hle
      cases k with
      | zero => exact hc (by simpa using hk)
      | succ k =>
        obtain ⟨_, _, hs', ho, -⟩ := h.onSpan (t := t) hc
        obtain ⟨-, rfl⟩ := Prod.mk.inj (hs'.symm.trans hs)
        simpa [answerEach, hs] using (ih ho).mp hn k (by simpa using hk)
    · intro hk
      have hc : c = .back → ¬ s.Straddles := by
        rintro rfl
        exact hk 0 rfl
      obtain ⟨answer, s', hs, ho, -⟩ := h.onSpan (t := t) hc
      refine ⟨answer, s', hs, ho.le, (ih ho).mpr fun k hk' => ?_⟩
      simpa [answerEach, hs] using hk (k + 1) (by simpa using hk')

theorem not_straddles_of_le (hw : s.back.format.size ≤ s.front.format.size) : ¬ s.Straddles :=
  fun ⟨hl, hb⟩ => Nat.not_lt_of_le (Nat.le_trans hw hl) hb

theorem Ordered.safe_of_le (h : s.Ordered) (hw : s.back.format.size ≤ s.front.format.size)
    (calls : List Side) : s.Safe t calls := by
  induction calls generalizing s with
  | nil => trivial
  | cons c calls ih =>
    obtain ⟨answer, s', hs, ho, hf, hb⟩ := h.onSpan (t := t) (c := c) fun _ => not_straddles_of_le hw
    exact ⟨answer, s', hs, ho.le, ih ho (by rwa [hf, hb])⟩

theorem Ordered.safe_of_empty (h : s.Ordered) (he : s.front.offset = s.back.offset)
    (calls : List Side) : s.Safe t calls := by
  have hl : s.back.offset - s.front.offset < s.front.format.size := by
    rw [he, Nat.sub_self]
    exact s.front.format.size_pos
  induction calls with
  | nil => trivial
  | cons c calls ih => exact ⟨none, s, h.onSpan_of_lt hl c, h.le, ih⟩

theorem Ordered.exists_not_safe (h : s.Ordered) (hw : s.front.format.size < s.back.format.size)
    {n : Nat} (hd : s.back.offset - s.front.offset = (n + 1) * s.front.format.size) :
    ∃ calls, ¬ s.Safe t calls := by
  induction n generalizing s with
  | zero =>
    rw [Nat.zero_add, Nat.one_mul] at hd
    have hb : s.Straddles := ⟨Nat.le_of_eq hd.symm, hd ▸ hw⟩
    exact ⟨[.back], fun ⟨_, _, hs, hle, _⟩ => h.not_straddles hs hle hb⟩
  | succ n ih =>
    rw [Nat.succ_mul] at hd
    obtain ⟨x, hn⟩ := h.next_of_le (t := t) (by omega)
    obtain ⟨_, _, hs, ho, -⟩ := h.onSpan (t := t) (c := .front) fun hc => nomatch hc
    obtain ⟨-, rfl⟩ := Prod.mk.inj (hn.symm.trans hs)
    have hd' : s.back.offset - (s.front.offset + s.front.format.size) =
        (n + 1) * s.front.format.size := by omega
    obtain ⟨calls, hc⟩ := ih ho hw hd'
    refine ⟨.front :: calls, fun ⟨_, _, hs', _, hsafe⟩ => hc ?_⟩
    obtain ⟨-, rfl⟩ := Prod.mk.inj (hs.symm.trans hs')
    exact hsafe

/-- Whatever the two formats are, taking samples one by one goes wrong at the first sample at the back
that begins before the front, and nowhere else. -/
theorem safe_between {b : Buffer} (hb : b.bytes.length < sizeLimit) {f g : Format} {i j : Nat}
    {s : Span} (h : between ⟨b, i, f⟩ ⟨b, j, g⟩ = .ok s) (t : SampleType) :
    (∀ calls, s.Safe t calls ↔ ∀ k, calls[k]? = some .back →
      ¬ (answerEach (Side.onSpan t) (calls.take k) s).2.Straddles) ∧
    ((∀ calls, s.Safe t calls) ↔ g.size ≤ f.size ∨ i = j) := by
  obtain ⟨rfl, -, hle, hin, n, hn⟩ := between_eq_ok_iff.mp h
  have ho : Ordered ⟨⟨b, i, f⟩, ⟨b, j, g⟩⟩ := ⟨rfl, hle, hin, hb⟩
  refine ⟨ho.safe_iff, fun hs => ?_, ?_⟩
  · rcases Nat.lt_or_ge f.size g.size with hw | hw
    · simp only at hn hle
      cases n with
      | zero => exact .inr (by omega)
      | succ n =>
        rw [Nat.mul_comm] at hn
        obtain ⟨calls, hc⟩ := ho.exists_not_safe (t := t) hw hn
        exact absurd (hs calls) hc
    · exact .inl hw
  · rintro (hw | rfl) calls
    · exact ho.safe_of_le hw calls
    · exact ho.safe_of_empty rfl calls

theorem safe_between_w24_w16 :
    ∃ s, between ⟨⟨0, [1, 2, 3, 4, 5, 6]⟩, 0, .integer .signed .w24 .big⟩
        ⟨⟨0, [1, 2, 3, 4, 5, 6]⟩, 6, .integer .signed .w16 .little⟩ = .ok s ∧
      s.Safe .i16 [.back, .front, .back, .back] := by
  refine ⟨_, rfl, ?_⟩
  have h : between ⟨⟨0, [1, 2, 3, 4, 5, 6]⟩, 0, .integer .signed .w24 .big⟩
      ⟨⟨0, [1, 2, 3, 4, 5, 6]⟩, 6, .integer .signed .w16 .little⟩ = .ok ⟨_, _⟩ := rfl
  exact (safe_between (by decide) h .i16).2.mpr (.inl (by decide)) _

/-- One sample of 16 bits, with a sample of 32 bits asked for at the back: there is none before the
back at all, or there is one that begins before the front, and then no call answers any more. -/
theorem nextBack_across_front :
    (∃ s, between ⟨⟨0, [0, 0, 0, 0]⟩, 0, .integer .signed .w16 .little⟩
        ⟨⟨0, [0, 0, 0, 0]⟩, 2, .integer .signed .w32 .little⟩ = .ok s ∧
      s.nextBack .i16 = (.error .beforeStart, s)) ∧
    ∃ s, between ⟨⟨0, [0, 0, 0, 0]⟩, 2, .integer .signed .w16 .little⟩
        ⟨⟨0, [0, 0, 0, 0]⟩, 4, .integer .signed .w32 .little⟩ = .ok s ∧
      (answerEach (Side.onSpan .i16) [.back, .front] s).1 = [.ok (some 0), .error .arithmetic] :=
  ⟨⟨_, rfl, rfl⟩, _, rfl, rfl⟩

end
end Span
end RawPcm
