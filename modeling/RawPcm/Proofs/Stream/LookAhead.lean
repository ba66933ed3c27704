import RawPcm.Proofs.Span.Deque
import RawPcm.Proofs.Transfer.Complete
import RawPcm.Proofs.Transfer.Counted

/-! Any calls on a stream go through its samples in order, one of them taken ahead. -/
namespace RawPcm
namespace Stream
variable {t : SampleType}

theorem fetch_eq (f : Format) (bytes : List UInt8) :
    fetch f t bytes = ((f.decodeAll t bytes).head?, bytes.drop f.size) := by
  rcases Nat.lt_or_ge bytes.length f.size with hl | hl
  · rw [fetch_of_lt hl, f.decodeAll_of_lt hl, List.drop_of_length_le (Nat.le_of_lt hl)]
    rfl
  · rw [fetch_of_le hl, f.decodeAll_of_le hl]
    rfl

theorem start_eq (f : Format) (bytes : List UInt8) :
    start t bytes f = ⟨bytes.drop f.size, f, (f.decodeAll t bytes).head?⟩ := by
  simp only [start, fetch_eq]

theorem next_start (f : Format) (bytes : List UInt8) :
    (start t bytes f).next = ((f.decodeAll t bytes).head?, start t (bytes.drop f.size) f) := by
  rcases Nat.lt_or_ge bytes.length f.size with hl | hl
  · rw [start_eq, f.decodeAll_of_lt hl, List.drop_of_length_le (Nat.le_of_lt hl), start_eq,
      f.decodeAll_nil, List.drop_nil]
    rfl
  · rw [start_eq, f.decodeAll_of_le hl]
    rfl

theorem bind_eq (s : Stream t) (expected : Format) :
    s.bind expected = if s.format = expected then .ok s else .error ⟨s.format, expected⟩ := by
  obtain ⟨rest, f, current⟩ := s
  by_cases h : f = expected
  · subst h
    simp [bind]
  · simp [bind, Format.bind_of_ne h, h]

/-- The stream of some bytes behind a number of samples. -/
def ahead (t : SampleType) (bytes : List UInt8) (f : Format) (count : Nat) : Stream t :=
  start t (bytes.drop (count * f.size)) f

section Ahead
variable (f : Format) (bytes : List UInt8) (count : Nat)

theorem ahead_zero : ahead t bytes f 0 = start t bytes f := by
  simp [ahead]

theorem format_ahead : (ahead t bytes f count).format = f := by
  rw [ahead, start_eq]

theorem current_ahead : (ahead t bytes f count).current = (f.decodeAll t bytes)[count]? := by
  rw [ahead, start_eq, f.decodeAll_drop, List.head?_drop]

theorem rest_ahead : (ahead t bytes f count).rest = bytes.drop ((count + 1) * f.size) := by
  rw [ahead, start_eq, List.drop_drop, Nat.succ_mul]

theorem next_ahead :
    (ahead t bytes f count).next = ((f.decodeAll t bytes)[count]?, ahead t bytes f (count + 1)) := by
  rw [ahead, next_start, f.decodeAll_drop, List.head?_drop, List.drop_drop, ahead, Nat.succ_mul]

theorem holds_ahead :
    (Source.stream (ahead t bytes f count)).Holds ((f.decodeAll t bytes).drop count) := by
  rw [← f.decodeAll_drop]
  exact Source.holds_start f _

theorem after_ahead (more : Nat) :
    (Source.stream (ahead t bytes f count)).after more =
      .stream (ahead t bytes f (count + more)) := by
  induction more generalizing count with
  | zero => rfl
  | succ more ih => rw [Source.after, Source.pull, next_ahead, ih, Nat.succ_add_eq_add_succ]

end Ahead

/-- What can be done with a stream. A format that it is bound to is given back at once. -/
inductive Call (t : SampleType) where
  | next
  | peek
  | bind (expected : Format)
  | copyBounded (d : Sink t)
  | copyExactly (count : Nat) (d : Sink t)
  | copy (d : Sink t)

inductive Outcome (t : SampleType) where
  | value (x : Option (Sample t))
  | bound
  | mismatch (cause : FormatMismatch)
  | copied (d : Sink t) (fault : Option Fault)
  | gone

/-- A transfer that breaks off takes its source with it. -/
def Outcome.ofTransfer :
    Except FormatMismatch Unit × Transfer t → Outcome t × Option (Stream t)
  | (.error e, _) => (mismatch e, none)
  | (.ok (), ⟨s, d, fault⟩) =>
    (copied d fault, match s, fault with
      | .stream s, none => some s
      | _, _ => none)

namespace Call

/-- What a call answers and the stream that it leaves, unless the stream is gone. -/
def onStream : Call t → Option (Stream t) → Outcome t × Option (Stream t)
  | _, none => (.gone, none)
  | next, some s => (.value s.next.1, some s.next.2)
  | peek, some s => (.value s.current, some s)
  | bind expected, some s =>
    match s.bind expected with
    | .error e => (.mismatch e, none)
    | .ok s => (.bound, some s)
  | copyBounded d, some s => Outcome.ofTransfer (RawPcm.copyBounded (.stream s) d)
  | copyExactly count d, some s => Outcome.ofTransfer (RawPcm.copyExactly (.stream s) count d)
  | copy d, some s => ((Outcome.ofTransfer (RawPcm.copy (.stream s) d)).1, none)

/-- The same on a row of values, with the number of those that are through. Past the end the number
goes on. -/
def onRow (f : Format) (xs : List (Sample t)) : Call t → Option Nat → Outcome t × Option Nat
  | _, none => (.gone, none)
  | next, some k => (.value xs[k]?, some (k + 1))
  | peek, some k => (.value xs[k]?, some k)
  | bind expected, some k =>
    if f = expected then (.bound, some k) else (.mismatch ⟨f, expected⟩, none)
  | copyBounded d, some k =>
    let moved := d.accepted (xs.length - k)
    (.copied (d.filled ((xs.drop k).take moved)) none, some (k + moved))
  | copyExactly count d, some k =>
    let wanted := min count (xs.length - k)
    let moved := d.accepted wanted
    (.copied (d.filled ((xs.drop k).take moved))
        (if moved < wanted then some d.refusal
          else if xs.length - k < count then some .sourceExhausted else none),
      if moved = count then some (k + count) else none)
  | copy d, some k =>
    let moved := d.accepted (xs.length - k)
    (.copied (d.filled ((xs.drop k).take moved))
        (if xs.length - k ≤ moved then none else some d.refusal), none)

def Addressable : Call t → Prop
  | copyBounded d | copyExactly _ d | copy d => d.Addressable
  | _ => True

section Steps
variable (f : Format) (bytes : List UInt8)

theorem onStream_copyBounded {d : Sink t} (hd : d.Addressable) (k : Nat) :
    (copyBounded d).onStream (some (ahead t bytes f k)) =
      (((copyBounded d).onRow f (f.decodeAll t bytes) (some k)).1,
        ((copyBounded d).onRow f (f.decodeAll t bytes) (some k)).2.map (ahead t bytes f)) := by
  have hx := holds_ahead (t := t) f bytes k
  simp [onStream, onRow, copyBounded_eq (s := .stream _) trivial hx hd, after_ahead,
    Outcome.ofTransfer]

theorem onStream_copyExactly {d : Sink t} (hd : d.Addressable) (count k : Nat) :
    (copyExactly count d).onStream (some (ahead t bytes f k)) =
      (((copyExactly count d).onRow f (f.decodeAll t bytes) (some k)).1,
        ((copyExactly count d).onRow f (f.decodeAll t bytes) (some k)).2.map
          (ahead t bytes f)) := by
  have hx := holds_ahead (t := t) f bytes k
  have hle := d.accepted_le (min count ((f.decodeAll t bytes).length - k))
  simp only [onStream, onRow, copyExactly_eq (s := .stream _) trivial hx, Source.isSized,
    Bool.false_eq_true, false_and, if_false, Transfer.counted_eq hx hd, after_ahead,
    Outcome.ofTransfer, List.length_drop]
  generalize (f.decodeAll t bytes).length - k = n at hle ⊢
  generalize d.accepted (min count n) = moved at hle ⊢
  -- The room gives out, or the samples do, or neither: only then is the stream left.
  rcases Nat.lt_or_eq_of_le hle with hm | hm
  · have hne : moved ≠ count := by omega
    simp [hm, hne]
  · rcases Nat.lt_or_ge n count with hn | hn
    · have hne : min count n ≠ count := by omega
      simp [hm, hne, hn]
    · have he : min count n = count := Nat.min_eq_left hn
      rw [he] at hm
      simp [hm, he, Nat.not_lt_of_le hn]

theorem onStream_ahead {c : Call t} (hc : c.Addressable) (k : Nat) :
    let row := c.onRow f (f.decodeAll t bytes) (some k)
    c.onStream (some (ahead t bytes f k)) = (row.1, row.2.map (ahead t bytes f)) := by
  cases c with
  | next => simp [onStream, onRow, next_ahead]
  | peek => simp [onStream, onRow, current_ahead]
  | bind expected =>
    by_cases h : f = expected <;> simp [onStream, onRow, bind_eq, format_ahead, h]
  | copyBounded d => exact onStream_copyBounded f bytes hc k
  | copyExactly count d => exact onStream_copyExactly f bytes hc count k
  | copy d =>
    have hx := holds_ahead (t := t) f bytes k
    simp [onStream, onRow, copy_eq (s := .stream _) trivial hx hc, Outcome.ofTransfer]

theorem onStream_calls (calls : List (Call t)) (hc : ∀ c ∈ calls, c.Addressable)
    (state : Option Nat) :
    let row := answerEach (onRow f (f.decodeAll t bytes)) calls state
    answerEach onStream calls (state.map (ahead t bytes f)) =
      (row.1, row.2.map (ahead t bytes f)) := by
  have hstep c (hm : c ∈ calls) (state : Option Nat) s (hs : s = state.map (ahead t bytes f)) :
      ∃ s', onStream c s = (id (onRow f (f.decodeAll t bytes) c state).1, s') ∧
        s' = (onRow f (f.decodeAll t bytes) c state).2.map (ahead t bytes f) := by
    subst hs
    cases state with
    | none => exact ⟨none, by cases c <;> rfl, by cases c <;> rfl⟩
    | some k => exact ⟨_, onStream_ahead f bytes (hc c hm) k, rfl⟩
  obtain ⟨_, hcalls, rfl⟩ := answerEach_of_step id hstep (x := state) rfl
  rwa [List.map_id] at hcalls

end Steps

theorem onRow_next (f : Format) (xs : List (Sample t)) (count k : Nat) :
    answerEach (onRow f xs) (.replicate count next) (some k) =
      (((xs.drop k).take count).map (fun x => .value (some x)) ++
        .replicate (count - (xs.length - k)) (.value none), some (k + count)) := by
  induction count generalizing k with
  | zero => simp [answerEach]
  | succ count ih =>
    simp only [List.replicate_succ, answerEach, onRow, ih, Nat.succ_add_eq_add_succ]
    -- Past the last value every call answers the same, and the induction goes on with nothing left.
    rcases Nat.lt_or_ge k xs.length with hk | hk
    · have hn : count + 1 - (xs.length - k) = count - (xs.length - (k + 1)) := by omega
      rw [List.drop_eq_getElem_cons hk, List.getElem?_eq_getElem hk, hn]
      rfl
    · rw [List.getElem?_eq_none hk, List.drop_of_length_le hk,
        List.drop_of_length_le (Nat.le_succ_of_le hk), Nat.sub_eq_zero_of_le hk,
        Nat.sub_eq_zero_of_le (Nat.le_succ_of_le hk)]
      simp [List.replicate_succ]

end Call

/-- Calls in any order answer as they would on the row of samples. The stream that they leave has
taken the bytes of one sample more than are through, and neither a look at that sample nor a format
that it is bound to and gives back makes a difference to it. -/
theorem answers_one_ahead (f : Format) (bytes : List UInt8) :
    let xs : List (Sample t) := f.decodeAll t bytes
    xs.length = bytes.length / f.size ∧
      (∀ (i : Nat) (hi : i < xs.length),
        f.read t ((bytes.drop (i * f.size)).take f.size) = .ok xs[i]) ∧
      (∀ calls : List (Call t), (∀ c ∈ calls, c.Addressable) →
        let row := answerEach (Call.onRow f xs) calls (some 0)
        answerEach Call.onStream calls (some (.start t bytes f)) =
          (row.1, row.2.map (ahead t bytes f))) ∧
      ∀ k, let s := ahead t bytes f k
        answerEach Call.onStream (.replicate k .next) (some (.start t bytes f)) =
            ((xs.take k).map (fun x => .value (some x)) ++
              .replicate (k - xs.length) (.value none), some s) ∧
          s.rest = bytes.drop ((k + 1) * f.size) ∧
          bytes.length - s.rest.length = min bytes.length ((k + 1) * f.size) ∧
          s.current = xs[k]? ∧ s.next = (s.current, ahead t bytes f (k + 1)) ∧
          s.bind f = .ok s ∧ (Source.stream s).bind = .ok (.stream s) := by
  intro xs
  refine ⟨f.length_decodeAll bytes, fun i hi => f.read_eq_getElem_decodeAll bytes hi, ?_, ?_⟩
  · intro calls hc
    have hrun := Call.onStream_calls f bytes calls hc (some 0)
    rwa [Option.map_some, ahead_zero] at hrun
  · intro k s
    have hrun := Call.onStream_calls f bytes (.replicate k (.next : Call t))
      (fun c hc => (List.eq_of_mem_replicate hc).symm ▸ trivial) (some 0)
    rw [Option.map_some, ahead_zero, Call.onRow_next] at hrun
    refine ⟨by simpa using hrun, rest_ahead f bytes k, ?_, current_ahead f bytes k, ?_, ?_,
      Source.bind_stream _⟩
    · rw [rest_ahead, List.length_drop]
      omega
    · rw [next_ahead, current_ahead]
    · rw [bind_eq, format_ahead, if_pos rfl]

theorem answers_one_ahead_of_three_samples_and_a_byte :
    answerEach Call.onStream [.peek, .next, .bind (.integer .signed .w16 .big),
        .copyBounded (.ofPlaces [7]), .copyExactly 2 (.list []), .next]
      (some (.start .i16 [0, 1, 0, 2, 0, 3, 9] (.integer .signed .w16 .big))) =
    ([.value (some 1), .value (some 1), .bound, .copied (.slice [2] []) none,
      .copied (.list [3]) (some .sourceExhausted), .gone], none) := by
  obtain ⟨-, -, hcalls, -⟩ := answers_one_ahead (t := .i16) (.integer .signed .w16 .big)
    [0, 1, 0, 2, 0, 3, 9]
  refine (hcalls _ ?_).trans rfl
  simp [Call.Addressable, Sink.Addressable, Sink.ofPlaces]

end Stream
end RawPcm
