import RawPcm.Proofs.Transfer.Decoding
import RawPcm.Proofs.Transfer.Dispatch

/-! A span is the double-ended queue of the samples between its ends. -/
namespace RawPcm

/-- What calls answer one after the other, and the state behind the last of them. -/
def answerEach {κ σ α : Type} (step : κ → σ → α × σ) : List κ → σ → List α × σ
  | [], s => ([], s)
  | c :: cs, s =>
    let (x, s) := step c s
    let (xs, s) := answerEach step cs s
    (x :: xs, s)

/-- A step that answers as one on simpler states does, and keeps what connects the two states, does so
over any row of calls. -/
theorem answerEach_of_step {κ σ τ α β : Type} {step : κ → σ → α × σ} {row : κ → τ → β × τ}
    (answer : β → α) {R : τ → σ → Prop} {calls : List κ}
    (hstep : ∀ c ∈ calls, ∀ x s, R x s →
      ∃ s', step c s = (answer (row c x).1, s') ∧ R (row c x).2 s') {x : τ} {s : σ} (h : R x s) :
    ∃ s', answerEach step calls s = ((answerEach row calls x).1.map answer, s') ∧
      R (answerEach row calls x).2 s' := by
  induction calls generalizing x s with
  | nil => exact ⟨s, rfl, h⟩
  | cons c calls ih =>
    obtain ⟨s', hc, hr⟩ := hstep c (List.mem_cons_self ..) x s h
    obtain ⟨s'', hn, hr'⟩ := ih (fun e he => hstep e (List.mem_cons_of_mem c he)) hr
    exact ⟨s'', by simp [answerEach, hc, hn], hr'⟩

namespace Span

/-- The calls that take a sample, some of them after passing by others. -/
inductive Call where
  | next
  | nextBack
  | nth (n : Nat)
  | nthBack (n : Nat)

namespace Call

def onSpan (t : SampleType) : Call → Span → Except Fault (Option (Sample t)) × Span
  | next, s => s.next t
  | nextBack, s => s.nextBack t
  | nth n, s => s.nth t n
  | nthBack n, s => s.nthBack t n

/-- The same on a row of values. What is passed by is gone, and all of it if nothing comes behind. -/
def onRow {α : Type} : Call → List α → Option α × List α
  | next, xs => (xs.head?, xs.tail)
  | nextBack, xs => (xs.getLast?, xs.dropLast)
  | nth n, xs => (xs[n]?, xs.drop (n + 1))
  | nthBack n, xs => (xs.reverse[n]?, xs.take (xs.length - (n + 1)))

theorem onRow_nil {α : Type} (c : Call) : c.onRow ([] : List α) = (none, []) := by
  cases c <;> simp [onRow]

theorem answerEach_onRow_nil {α : Type} (calls : List Call) :
    answerEach onRow calls ([] : List α) = (calls.map fun _ => none, []) := by
  induction calls with
  | nil => rfl
  | cons c calls ih => simp [answerEach, onRow_nil, ih]

end Call

def samples (s : Span) (t : SampleType) : List (Sample t) :=
  s.format.decodeAll t ((s.front.buffer.bytes.take s.back.offset).drop s.front.offset)

/-- The spans over one buffer in one format: over all of it, or between positions that pass the
checks. -/
inductive Over (b : Buffer) (f : Format) : Span → Prop
  | whole : Over b f (.whole b f)
  | exact {s : Span} (h : Span.exact b f = .ok s) : Over b f s
  | between {i j : Nat} {s : Span} (h : Span.between ⟨b, i, f⟩ ⟨b, j, f⟩ = .ok s) : Over b f s

variable {t : SampleType} {b : Buffer} {f : Format}

/-- A span with some values left: they fill the bytes between its ends. -/
def Queues (b : Buffer) (f : Format) (xs : List (Sample t)) (s : Span) : Prop :=
  ∃ i n, s = ofCount b f i n ∧ i + n * f.size ≤ b.bytes.length ∧
    (f.firstChunks n (b.bytes.drop i)).map (f.decode t) = xs

theorem samples_ofCount {i n : Nat} (h : i + n * f.size ≤ b.bytes.length) :
    (ofCount b f i n).samples t = (f.firstChunks n (b.bytes.drop i)).map (f.decode t) := by
  have hn : n * f.size ≤ (b.bytes.drop i).length := by
    rw [List.length_drop]
    omega
  simp only [samples, ofCount, format, Format.decodeAll]
  rw [List.drop_take, Nat.add_sub_cancel_left, f.chunks_take hn]

theorem Over.queues (hb : b.bytes.length < sizeLimit) {s : Span} (h : Over b f s) :
    Queues b f (s.samples t) s := by
  have hcount {s : Span} (hs : s.Sound) (hbuffer : s.front.buffer = b) (hformat : s.front.format = f) :
      Queues b f (s.samples t) s := by
    obtain ⟨b', f', i, n, rfl, hn, -⟩ := hs.exists_ofCount
    obtain rfl : b' = b := hbuffer
    obtain rfl : f' = f := hformat
    exact ⟨i, n, rfl, hn, (samples_ofCount hn).symm⟩
  cases h with
  | whole => exact hcount (sound_whole hb f) rfl rfl
  | exact h =>
    rw [exact_eq] at h
    split at h
    · cases h
      exact hcount (sound_whole hb f) rfl rfl
    · cases h
  | @between i j _ h =>
    obtain rfl := eq_of_between h
    exact hcount ⟨rfl, rfl, h, hb⟩ rfl rfl

theorem nth_of_step {α σ : Type} (step : σ → Except Fault (Option α) × σ)
    (nth : Nat → σ → Except Fault (Option α) × σ) (hzero : ∀ s, nth 0 s = step s)
    (hsome : ∀ n s x s', step s = (.ok (some x), s') → nth (n + 1) s = nth n s')
    (hnone : ∀ n s s', step s = (.ok none, s') → nth (n + 1) s = (.ok none, s'))
    {R : List α → σ → Prop}
    (hstep : ∀ xs s, R xs s → ∃ s', step s = (.ok xs.head?, s') ∧ R xs.tail s')
    (n : Nat) {xs : List α} {s : σ} (h : R xs s) :
    ∃ s', nth n s = (.ok xs[n]?, s') ∧ R (xs.drop (n + 1)) s' := by
  induction n generalizing xs s with
  | zero => simpa [hzero, List.head?_eq_getElem?] using hstep xs s h
  | succ n ih =>
    obtain ⟨s', hs, hr⟩ := hstep xs s h
    cases xs with
    | nil => exact ⟨s', hnone n s s' hs, by simpa using hr⟩
    | cons x xs =>
      obtain ⟨s'', hn, hr'⟩ := ih hr
      exact ⟨s'', (hsome n s x s' hs).trans hn, hr'⟩

namespace Queues
variable {xs : List (Sample t)} {s : Span}

theorem next (hb : b.bytes.length < sizeLimit) (h : Queues b f xs s) :
    ∃ s', s.next t = (.ok xs.head?, s') ∧ Queues b f xs.tail s' := by
  obtain ⟨i, n, rfl, hn, rfl⟩ := h
  cases n with
  | zero => exact ⟨_, next_ofCount_zero b f i, i, 0, rfl, hn, rfl⟩
  | succ n =>
    have hs := hn
    rw [Nat.succ_mul] at hs
    refine ⟨_, ?_, i + f.size, n, rfl, by omega, ?_⟩
    · simp [next_ofCount hb f hn, Format.firstChunks, Format.decode_take]
    · simp [Format.firstChunks, List.drop_drop]

theorem nextBack (h : Queues b f xs s) :
    ∃ s', s.nextBack t = (.ok xs.getLast?, s') ∧ Queues b f xs.dropLast s' := by
  obtain ⟨i, n, rfl, hn, rfl⟩ := h
  cases n with
  | zero => exact ⟨_, by simp [Span.nextBack, remaining_ofCount, Format.firstChunks], i, 0, rfl, hn, rfl⟩
  | succ n =>
    have hs := hn
    rw [Nat.succ_mul] at hs
    refine ⟨_, ?_, i, n, rfl, by omega, ?_⟩
    · simp [nextBack_ofCount f hn, f.firstChunks_succ, Format.decode_take]
    · simp [f.firstChunks_succ]

theorem nth (hb : b.bytes.length < sizeLimit) (h : Queues b f xs s) (n : Nat) :
    ∃ s', s.nth t n = (.ok xs[n]?, s') ∧ Queues b f (xs.drop (n + 1)) s' :=
  nth_of_step (Span.next t) (Span.nth t) (fun _ => rfl) (fun _ _ _ _ h => by rw [Span.nth, h])
    (fun _ _ _ h => by simp [Span.nth, h]) (fun _ _ h => h.next hb) n h

theorem nthBack (h : Queues b f xs s) (n : Nat) :
    ∃ s', s.nthBack t n = (.ok xs.reverse[n]?, s') ∧
      Queues b f (xs.take (xs.length - (n + 1))) s' := by
  have hstep (ys : List (Sample t)) (s : Span) (h : Queues b f ys.reverse s) :
      ∃ s', s.nextBack t = (.ok ys.head?, s') ∧ Queues b f ys.tail.reverse s' := by
    simpa using h.nextBack
  have hr : Queues b f xs.reverse.reverse s := by rwa [List.reverse_reverse]
  obtain ⟨s', hn, hr⟩ := nth_of_step (Span.nextBack t) (Span.nthBack t) (fun _ => rfl)
    (fun _ _ _ _ h => by rw [Span.nthBack, h]) (fun _ _ _ h => by simp [Span.nthBack, h]) hstep n hr
  exact ⟨s', hn, by simpa [List.drop_reverse] using hr⟩

theorem call (hb : b.bytes.length < sizeLimit) (h : Queues b f xs s) (c : Call) :
    ∃ s', c.onSpan t s = (.ok (c.onRow xs).1, s') ∧ Queues b f (c.onRow xs).2 s' := by
  cases c with
  | next => exact h.next hb
  | nextBack => exact h.nextBack
  | nth n => exact h.nth hb n
  | nthBack n => exact h.nthBack n

theorem calls (hb : b.bytes.length < sizeLimit) (h : Queues b f xs s) (calls : List Call) :
    ∃ s', answerEach (Call.onSpan t) calls s = ((answerEach Call.onRow calls xs).1.map .ok, s') ∧
      Queues b f (answerEach Call.onRow calls xs).2 s' :=
  answerEach_of_step Except.ok (fun c _ _ _ h => h.call hb c) h

theorem exists_ends (h : Queues b f xs s) :
    ∃ i j, s = ⟨⟨b, i, f⟩, ⟨b, j, f⟩⟩ ∧ i ≤ j ∧ j ≤ b.bytes.length ∧ f.size ∣ j - i ∧
      s.samples t = xs ∧ s.remaining = .ok xs.length := by
  obtain ⟨i, n, rfl, hn, rfl⟩ := h
  refine ⟨i, i + n * f.size, rfl, Nat.le_add_right .., hn, ?_, samples_ofCount hn, ?_⟩
  · rw [Nat.add_sub_cancel_left]
    exact Nat.dvd_mul_left ..
  · rw [remaining_ofCount, List.length_map, Format.length_firstChunks]

end Queues

/-- Every beginning of a row of calls is a row of calls, so that all of this holds at any time. -/
theorem answers_from_both_ends (hb : b.bytes.length < sizeLimit) {s : Span} (hs : Over b f s)
    (t : SampleType) (calls : List Call) :
    let row := answerEach Call.onRow calls (s.samples t)
    ∃ i j, let left : Span := ⟨⟨b, i, f⟩, ⟨b, j, f⟩⟩
      answerEach (Call.onSpan t) calls s = (row.1.map .ok, left) ∧
        i ≤ j ∧ j ≤ b.bytes.length ∧ f.size ∣ j - i ∧ left.samples t = row.2 ∧
        left.remaining = .ok row.2.length ∧
        left.sizeHint = .ok (row.2.length, some row.2.length) ∧
        (row.2 = [] → ∀ more, (answerEach (Call.onSpan t) more left).1 =
          more.map fun _ => .ok none) := by
  intro row
  obtain ⟨_, hcalls, hq⟩ := (hs.queues (t := t) hb).calls hb calls
  obtain ⟨i, j, rfl, hij, hj, hd, hx, hr⟩ := hq.exists_ends
  refine ⟨i, j, hcalls, hij, hj, hd, hx, hr, by simp only [sizeHint, hr]; rfl, ?_⟩
  intro hrow more
  obtain ⟨_, hmore, -⟩ := hq.calls hb more
  rw [hmore, show (answerEach Call.onRow calls (s.samples t)).2 = [] from hrow,
    Call.answerEach_onRow_nil, List.map_map]
  rfl

theorem answers_from_both_ends_of_three_samples :
    ∃ s, between ⟨⟨0, [9, 1, 0, 2, 0, 3, 0, 9]⟩, 1, .integer .signed .w16 .little⟩
        ⟨⟨0, [9, 1, 0, 2, 0, 3, 0, 9]⟩, 7, .integer .signed .w16 .little⟩ = .ok s ∧
      (answerEach (Call.onSpan .i16) [.next, .nthBack 1, .nextBack, .nth 0] s).1 =
        [.ok (some 1), .ok (some 2), .ok none, .ok none] := by
  refine ⟨_, rfl, ?_⟩
  obtain ⟨i, j, hcalls, -⟩ := answers_from_both_ends
    (b := ⟨0, [9, 1, 0, 2, 0, 3, 0, 9]⟩) (by decide)
    (.between (f := .integer .signed .w16 .little) (i := 1) (j := 7) rfl) .i16
    [.next, .nthBack 1, .nextBack, .nth 0]
  exact (congrArg Prod.fst hcalls).trans rfl

end Span
end RawPcm
