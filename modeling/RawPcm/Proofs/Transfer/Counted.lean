import RawPcm.Proofs.Transfer.Bounded

/-! Transfers of a given number of values succeed exactly if both sides have as many. -/
namespace RawPcm
variable {t : SampleType}

namespace Source

def isSized : Source t → Bool
  | values _ | span _ => true
  | stream _ => false

theorem Sound.remaining {s : Source t} (hs : s.Sound) {xs : List (Sample t)} (hx : s.Holds xs) :
    s.remaining = .ok (if s.isSized then some xs.length else none) := by
  cases s with
  | values ys =>
    rw [hx.unique (holds_values ys)]
    rfl
  | span s =>
    obtain ⟨b, f, i, n, rfl, hn, hb⟩ := Span.Sound.exists_ofCount hs
    rw [hx.unique (holds_ofCount hb f i n hn), List.length_map, Format.length_firstChunks]
    simp [Source.remaining, Span.remaining_ofCount, isSized]
  | stream s => rfl

end Source

/-- A value that the sink refuses has been pulled before, and the sink is not asked once the source
has none. -/
theorem Transfer.counted_eq {s : Source t} {xs : List (Sample t)} (hs : s.Holds xs) {d : Sink t}
    (hd : d.Addressable) (count : Nat) :
    let wanted := min count xs.length
    let moved := d.accepted wanted
    counted count s d = ⟨s.after (min (moved + 1) wanted), d.filled (xs.take moved),
      if moved < wanted then some d.refusal
      else if xs.length < count then some .sourceExhausted else none⟩ := by
  induction count generalizing s xs d with
  | zero => simp [counted, Sink.accepted_zero, Source.after, Sink.filled_nil]
  | succ count ih =>
    cases hs with
    | nil hp => simp [counted, hp, Sink.accepted_zero, Source.after, Sink.filled_nil]
    | @cons _ s' x xs hp hs =>
      rw [List.length_cons, Nat.add_min_add_right]
      by_cases hc : d.capacity = 0
      · -- The value is gone from the source when the sink turns out to be full.
        simp [counted, hp, Sink.push_of_capacity_eq_zero hc, Sink.accepted_of_capacity_eq_zero hc,
          Source.after, Sink.filled_nil]
      · have hn := ih hs (hd.filled (Sink.one_le_accepted hc x))
        simp only [counted, hp, Sink.push_of_capacity_ne_zero hd hc, hn, Sink.accepted_succ hc x,
          Nat.add_min_add_right, Source.after, List.take_succ_cons, Sink.filled_cons hc,
          Sink.refusal_filled, Nat.add_lt_add_iff_right]

namespace Sink
variable {d : Sink t} {count n : Nat}

theorem accepted_of_room (h : ∀ room ∈ d.room, count ≤ room) : d.accepted count = count := by
  rw [accepted_eq]
  cases hr : d.room with
  | none => rfl
  | some room => exact Nat.min_eq_left (h room hr)

theorem accepted_of_short (h : ¬ (count ≤ n ∧ ∀ room ∈ d.room, count ≤ room)) :
    d.accepted (min count n) = d.accepted n ∧
      (d.accepted n < min count n ↔ d.accepted n < n) ∧ (¬ d.accepted n < n → n < count) := by
  simp only [accepted_eq]
  cases hr : d.room with
  | none =>
    simp only [hr, Option.mem_def, reduceCtorEq, false_implies, implies_true, and_true] at h
    simp only [Option.elim_none]
    omega
  | some room =>
    simp only [hr, Option.mem_def, Option.some.injEq, forall_eq'] at h
    simp only [Option.elim_some]
    omega

end Sink

theorem copyExactly_eq {s : Source t} (hs : s.Sound) {xs : List (Sample t)} (hx : s.Holds xs)
    (count : Nat) (d : Sink t) :
    copyExactly s count d = (.ok (), if s.isSized ∧ xs.length < count then
      ⟨s, d, some (.tooFewValues xs.length count)⟩ else Transfer.counted count s d) := by
  rw [copyExactly, dispatch_of_sound hs, Transfer.exactly, hs.remaining hx]
  cases s.isSized <;> simp

/-- A count that is too great for a source whose number is known comes to light before anything else;
after that the side that ends first decides. -/
theorem copyExactly_moves {s : Source t} (hs : s.Sound) {d : Sink t} (hd : d.Addressable)
    (count : Nat) : ∃ xs, s.Holds xs ∧
      s.remaining = .ok (if s.isSized then some xs.length else none) ∧
      if count ≤ xs.length ∧ ∀ room ∈ d.room, count ≤ room then
        ∃ s', copyExactly s count d = (.ok (), ⟨s', d.filled (xs.take count), none⟩) ∧
          s'.Holds (xs.drop count) ∧
          (d.filled (xs.take count)).room = d.room.map (· - count)
      else if s.isSized ∧ xs.length < count then
        copyExactly s count d = (.ok (), ⟨s, d, some (.tooFewValues xs.length count)⟩)
      else
        ∃ s', copyExactly s count d = (.ok (), ⟨s', d.filled (xs.take (d.accepted xs.length)),
          some (if d.accepted xs.length < xs.length then d.refusal else .sourceExhausted)⟩) := by
  obtain ⟨xs, hx, -⟩ := hs.exists_holds
  have hc := Transfer.counted_eq hx hd count
  refine ⟨xs, hx, hs.remaining hx, ?_⟩
  rw [copyExactly_eq hs hx]
  split
  case isTrue h =>
    obtain ⟨hn, hroom⟩ := h
    have ha := Sink.accepted_of_room hroom
    have hl : (xs.take count).length = count := List.length_take_of_le hn
    rw [if_neg (fun h => Nat.not_lt_of_le hn h.2), hc]
    refine ⟨s.after count, ?_, hx.after count, ?_⟩
    · simp [Nat.min_eq_left hn, ha, Nat.not_lt_of_le hn]
    · rw [Sink.room_filled (Nat.le_of_eq (by rw [hl, ha])), hl]
  case isFalse h =>
    split
    case isTrue hfew => rfl
    case isFalse hfew =>
      obtain ⟨hm, hlt, hshort⟩ := Sink.accepted_of_short h
      have hfault : (if d.accepted (min count xs.length) < min count xs.length then some d.refusal
          else if xs.length < count then some .sourceExhausted else none) =
          some (if d.accepted xs.length < xs.length then d.refusal else .sourceExhausted) := by
        rw [hm]
        by_cases hn : d.accepted xs.length < xs.length
        · rw [if_pos (hlt.mpr hn), if_pos hn]
        · rw [if_neg (mt hlt.mp hn), if_pos (hshort hn), if_neg hn]
      refine ⟨s.after (min (d.accepted xs.length + 1) (min count xs.length)), ?_⟩
      rw [hc, hfault, hm]

theorem copyExactly_two_and_three_samples :
    (∃ s', copyExactly (.stream (.start .i16 [0, 1, 0, 2, 0, 3, 9] (.integer .signed .w16 .big))) 2
        (.cursor ⟨[7, 7, 7, 7, 7], 1, .integer .signed .w16 .big⟩) =
          (.ok (), ⟨s', .cursor ⟨[7, 0, 1, 0, 2], 5, .integer .signed .w16 .big⟩, none⟩) ∧
      s'.Holds [3]) ∧
    copyExactly (.span (.whole ⟨0, [0, 1, 0, 2]⟩ (.integer .signed .w16 .big))) 3
        (.ofPlaces [(7 : Sample .i16)]) =
      (.ok (), ⟨.span (.whole ⟨0, [0, 1, 0, 2]⟩ (.integer .signed .w16 .big)), .ofPlaces [7],
        some (.tooFewValues 2 3)⟩) ∧
    ∃ s', copyExactly (.stream (.start .i16 [0, 1, 0, 2] (.integer .signed .w16 .big))) 3
        (.ofPlaces [7, 8, 9]) = (.ok (), ⟨s', .slice [1, 2] [9], some .sourceExhausted⟩) := by
  refine ⟨?_, ?_, ?_⟩
  · obtain ⟨xs, hx, -, h⟩ := copyExactly_moves
      (s := .stream (.start .i16 [0, 1, 0, 2, 0, 3, 9] (.integer .signed .w16 .big))) trivial
      (d := .cursor ⟨[7, 7, 7, 7, 7], 1, .integer .signed .w16 .big⟩)
      (by simp [Sink.Addressable, sizeLimit]) 2
    obtain rfl : xs = [1, 2, 3] := hx.unique (Source.holds_start _ _)
    rw [if_pos (by decide)] at h
    obtain ⟨s', hc, hs, -⟩ := h
    exact ⟨s', hc, hs⟩
  · obtain ⟨xs, hx, -, h⟩ := copyExactly_moves (t := .i16)
      (s := .span (.whole ⟨0, [0, 1, 0, 2]⟩ (.integer .signed .w16 .big)))
      (Span.sound_whole (by decide) _) (d := .ofPlaces [7]) trivial 3
    obtain rfl : xs = [1, 2] := hx.unique (Source.holds_whole (by decide) _)
    rw [if_neg (by decide), if_pos (by decide)] at h
    exact h
  · obtain ⟨xs, hx, -, h⟩ := copyExactly_moves
      (s := .stream (.start .i16 [0, 1, 0, 2] (.integer .signed .w16 .big))) trivial
      (d := .ofPlaces [7, 8, 9]) trivial 3
    obtain rfl : xs = [1, 2] := hx.unique (Source.holds_start _ _)
    rw [if_neg (by decide), if_neg (by decide)] at h
    exact h

end RawPcm
