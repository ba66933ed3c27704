import RawPcm.Proofs.Transfer.Source
import RawPcm.Proofs.Transfer.Sink
import RawPcm.Transfer.Copy

/-! Transfers that end with the side that ends first move as many values as there are of both. -/
namespace RawPcm
variable {t : SampleType}

/-- The sink is asked first, so that no value is pulled that could not be pushed. -/
theorem Transfer.fitting_eq {s : Source t} {xs : List (Sample t)} (hs : s.Holds xs) {d : Sink t}
    (hd : d.Addressable) (fuel : Nat) (hf : xs.length < fuel) :
    fitting fuel s d =
      ⟨s.after (d.accepted xs.length), d.filled (xs.take (d.accepted xs.length)), none⟩ := by
  induction hs generalizing d fuel with
  | @nil s hp =>
    obtain ⟨fuel, rfl⟩ := Nat.exists_eq_succ_of_ne_zero (Nat.ne_of_gt hf)
    simp [fitting, hp, Sink.accepted_zero, Source.after, Sink.filled_nil]
  | @cons s s' x xs hp hs ih =>
    obtain ⟨fuel, rfl⟩ := Nat.exists_eq_succ_of_ne_zero (Nat.ne_of_gt (Nat.zero_lt_of_lt hf))
    rw [List.length_cons] at hf ⊢
    by_cases hc : d.capacity = 0
    · simp [fitting, hc, Sink.accepted_of_capacity_eq_zero hc, Source.after, Sink.filled_nil]
    · have hn := ih (hd.filled (Sink.one_le_accepted hc x)) fuel (by omega)
      simp only [fitting, if_neg hc, hp, Sink.push_of_capacity_ne_zero hd hc, hn,
        Sink.accepted_succ hc x, Source.after, List.take_succ_cons, Sink.filled_cons hc]

theorem dispatch_of_sound {s : Source t} (hs : s.Sound)
    (transfer : Source t → Sink t → Transfer t) (d : Sink t) :
    dispatch transfer s d = (.ok (), transfer s d) := by
  simp only [dispatch, hs.bind, Sink.bind_eq]

theorem copyBounded_eq {s : Source t} (hs : s.Sound) {xs : List (Sample t)} (hx : s.Holds xs)
    {d : Sink t} (hd : d.Addressable) : copyBounded s d = (.ok (),
      ⟨s.after (d.accepted xs.length), d.filled (xs.take (d.accepted xs.length)), none⟩) := by
  rw [copyBounded, dispatch_of_sound hs, Transfer.fitting_eq hx hd _ (hs.length_lt_bound hx)]

theorem copyBounded_values (xs : List (Sample t)) {d : Sink t} (hd : d.Addressable) :
    copyBounded (.values xs) d = (.ok (),
      ⟨.values (xs.drop (d.accepted xs.length)), d.filled (xs.take (d.accepted xs.length)),
        none⟩) := by
  rw [copyBounded_eq (s := .values xs) trivial (Source.holds_values xs) hd, Source.after_values]

theorem copyBounded_whole {b : Buffer} (hb : b.bytes.length < sizeLimit) (f : Format) {d : Sink t}
    (hd : d.Addressable) :
    copyBounded (.span (.whole b f)) d = (.ok (),
      ⟨(Source.span (.whole b f)).after (d.accepted (b.bytes.length / f.size)),
        d.filled ((f.decodeAll t b.bytes).take (d.accepted (b.bytes.length / f.size))), none⟩) := by
  rw [copyBounded_eq (s := .span _) (Span.sound_whole hb f) (Source.holds_whole hb f) hd,
    Format.length_decodeAll]

theorem readInto_eq {bytes : List UInt8} (hb : bytes.length < sizeLimit) (f : Format)
    (out : List (Sample t)) :
    readInto bytes f out = .ok (.ok (min (bytes.length / f.size) out.length,
      (f.decodeAll t bytes).take out.length ++ out.drop (bytes.length / f.size))) := by
  have hn := f.length_decodeAll (t := t) bytes
  rw [readInto, copyBounded_whole (b := ⟨0, bytes⟩) hb f (d := .ofPlaces out) trivial]
  simp only [Sink.ofPlaces, Sink.accepted, Sink.capacity, Sink.filled, Sink.values, List.nil_append,
    List.length_drop, List.length_take, hn, Except.ok.injEq, Prod.mk.injEq]
  refine ⟨by omega, ?_⟩
  rcases Nat.le_total (bytes.length / f.size) out.length with h | h
  · rw [Nat.min_eq_left h, Nat.min_self, List.take_of_length_le (Nat.le_of_eq hn),
      List.take_of_length_le (by omega)]
  · rw [Nat.min_eq_right h, Nat.min_eq_left h, List.drop_of_length_le (Nat.le_refl _),
      List.drop_of_length_le h]

theorem writeInto_eq (xs : List (Sample t)) (f : Format) {bytes : List UInt8}
    (hb : bytes.length < sizeLimit) :
    writeInto xs f bytes = .ok (.ok (min xs.length (bytes.length / f.size),
      f.encodeAll (xs.take (bytes.length / f.size)) ++
        bytes.drop (min xs.length (bytes.length / f.size) * f.size))) := by
  have hk : (Sink.cursor ⟨bytes, 0, f⟩ : Sink t).accepted xs.length =
      min xs.length (bytes.length / f.size) := by
    simp [Sink.accepted, Sink.capacity, WriteCursor.remaining]
  have ht : xs.take (min xs.length (bytes.length / f.size)) = xs.take (bytes.length / f.size) := by
    rw [Nat.min_comm, ← List.take_take, List.take_of_length_le (Nat.le_refl _)]
  rw [writeInto, copyBounded_values xs (d := .cursor ⟨bytes, 0, f⟩) hb, hk, ht]
  simp only [List.length_drop, Sink.filled, WriteCursor.filled, Sink.bytes, List.take_zero,
    List.nil_append, Nat.zero_add, List.length_take, Except.ok.injEq, Prod.mk.injEq]
  refine ⟨by omega, ?_⟩
  rw [Nat.min_comm]

end RawPcm
