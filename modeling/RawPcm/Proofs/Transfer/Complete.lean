import RawPcm.Proofs.Transfer.Bounded

/-! Transfers of every value of a source. -/
namespace RawPcm
variable {t : SampleType}

/-- The value that is refused has been pulled before. -/
theorem Transfer.all_eq {s : Source t} {xs : List (Sample t)} (hs : s.Holds xs) {d : Sink t}
    (hd : d.Addressable) (fuel : Nat) (hf : xs.length < fuel) :
    all fuel s d =
      ⟨s.after (d.accepted xs.length + 1), d.filled (xs.take (d.accepted xs.length)),
        if xs.length ≤ d.accepted xs.length then none else some d.refusal⟩ := by
  induction hs generalizing d fuel with
  | @nil s hp =>
    obtain ⟨fuel, rfl⟩ := Nat.exists_eq_succ_of_ne_zero (Nat.ne_of_gt hf)
    simp [all, hp, Sink.accepted_zero, Source.after, Sink.filled_nil]
  | @cons s s' x xs hp hs ih =>
    obtain ⟨fuel, rfl⟩ := Nat.exists_eq_succ_of_ne_zero (Nat.ne_of_gt (Nat.zero_lt_of_lt hf))
    rw [List.length_cons] at hf ⊢
    by_cases hc : d.capacity = 0
    · simp [all, hp, Sink.push_of_capacity_eq_zero hc, Sink.accepted_of_capacity_eq_zero hc,
        Source.after, Sink.filled_nil]
    · have hn := ih (hd.filled (Sink.one_le_accepted hc x)) fuel (by omega)
      simp only [all, hp, Sink.push_of_capacity_ne_zero hd hc, hn, Sink.accepted_succ hc x,
        Source.after, List.take_succ_cons, Sink.filled_cons hc, Sink.refusal_filled,
        Nat.add_le_add_iff_right]

theorem copy_eq {s : Source t} (hs : s.Sound) {xs : List (Sample t)} (hx : s.Holds xs)
    {d : Sink t} (hd : d.Addressable) : copy s d = (.ok (),
      ⟨s.after (d.accepted xs.length + 1), d.filled (xs.take (d.accepted xs.length)),
        if xs.length ≤ d.accepted xs.length then none else some d.refusal⟩) := by
  rw [copy, dispatch_of_sound hs, Transfer.all_eq hx hd _ (hs.length_lt_bound hx)]

theorem copy_list {s : Source t} (hs : s.Sound) {xs : List (Sample t)} (hx : s.Holds xs)
    (ys : List (Sample t)) :
    copy s (.list ys) = (.ok (), ⟨s.after (xs.length + 1), .list (ys ++ xs), none⟩) := by
  rw [copy_eq hs hx (d := .list ys) trivial]
  simp [Sink.accepted, Sink.filled]

end RawPcm
