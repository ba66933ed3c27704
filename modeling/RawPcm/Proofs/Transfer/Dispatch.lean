import RawPcm.Transfer.Copy

/-! Transfers from a span whose ends have different formats are refused before they start. -/
namespace RawPcm
variable {t : SampleType}

namespace Span

theorem eq_of_between {front back : Cursor} {s : Span} (h : between front back = .ok s) :
    s = ⟨front, back⟩ :=
  (between_eq_ok_iff.mp h).1

theorem bind_format (s : Span) : s.bind s.format =
    if s.front.format = s.back.format then .ok s
    else .error ⟨s.back.format, s.front.format⟩ := by
  obtain ⟨front, back⟩ := s
  by_cases h : front.format = back.format
  · have hb : back.bind front.format = .ok back := h ▸ back.bind_format
    simp only [bind, format, Cursor.bind_format, hb, if_pos h]
  · simp [bind, format, h, Cursor.bind, Format.bind_of_ne (Ne.symm h)]

end Span

theorem dispatch_span (transfer : Source t → Sink t → Transfer t) (s : Span) (d : Sink t) :
    dispatch transfer (.span s) d = if s.front.format = s.back.format then
      (.ok (), transfer (.span s) d)
      else (.error ⟨s.back.format, s.front.format⟩, ⟨.span s, d, none⟩) := by
  by_cases h : s.front.format = s.back.format <;>
    simp [dispatch, Source.bind_span, Span.bind_format, h, Except.map]

/-- A transfer is refused for a mismatch, and no value or byte of its sink has changed. -/
def Sink.Refuses (d : Sink t) (cause : FormatMismatch)
    (r : Except FormatMismatch Unit × Transfer t) : Prop :=
  r.1 = .error cause ∧ r.2.sink = d

theorem refuses_dispatch {s : Span} (h : s.front.format ≠ s.back.format)
    (transfer : Source t → Sink t → Transfer t) (d : Sink t) :
    d.Refuses ⟨s.back.format, s.front.format⟩ (dispatch transfer (.span s) d) := by
  rw [dispatch_span, if_neg h]
  exact ⟨rfl, rfl⟩

/-- A count that is out of reach and a sink that is full come to light only after the formats. -/
theorem transfers_between_ends {front back : Cursor} {s : Span}
    (h : Span.between front back = .ok s) (d : Sink t) :
    copyBetween front back d = .ok (copy (.span s) d) ∧
      if front.format = back.format then
        (∃ r, copy (.span s) d = (.ok (), r)) ∧ (∃ r, copyBounded (.span s) d = (.ok (), r)) ∧
          (∀ count, ∃ r, copyExactly (.span s) count d = (.ok (), r)) ∧
          ∀ transfer, dispatch transfer (.span s) d = (.ok (), transfer (.span s) d)
      else
        d.Refuses ⟨back.format, front.format⟩ (copy (.span s) d) ∧
          d.Refuses ⟨back.format, front.format⟩ (copyBounded (.span s) d) ∧
          (∀ count, d.Refuses ⟨back.format, front.format⟩ (copyExactly (.span s) count d)) ∧
          ∀ transfer, d.Refuses ⟨back.format, front.format⟩ (dispatch transfer (.span s) d) := by
  refine ⟨by rw [copyBetween, h], ?_⟩
  obtain rfl := Span.eq_of_between h
  split
  case isTrue hf =>
    have hd (transfer : Source t → Sink t → Transfer t) :
        dispatch transfer (.span ⟨front, back⟩) d =
          (.ok (), transfer (.span ⟨front, back⟩) d) := by
      rw [dispatch_span, if_pos hf]
    exact ⟨⟨_, hd _⟩, ⟨_, hd _⟩, fun _ => ⟨_, hd _⟩, hd⟩
  case isFalse hf =>
    have hd := refuses_dispatch (t := t) (s := ⟨front, back⟩) hf
    exact ⟨hd _ d, hd _ d, fun _ => hd _ d, fun _ => hd _ d⟩

theorem transfers_between_ends_of_nothing :
    (∃ s, Span.between ⟨⟨0, [1, 2, 3, 4]⟩, 2, .integer .signed .w24 .big⟩
          ⟨⟨0, [1, 2, 3, 4]⟩, 2, .integer .signed .w16 .little⟩ = .ok s ∧
      (Sink.cursor ⟨[7, 7], 0, .integer .unsigned .w8 .big⟩).Refuses
        ⟨.integer .signed .w16 .little, .integer .signed .w24 .big⟩
        (copyExactly (.span s) 5 (.cursor ⟨[7, 7], 0, .integer .unsigned .w8 .big⟩ : Sink .f32)) ∧
      ∃ r, copyBetween ⟨⟨0, [1, 2, 3, 4]⟩, 2, .integer .signed .w24 .big⟩
          ⟨⟨0, [1, 2, 3, 4]⟩, 2, .integer .signed .w16 .little⟩ (.list [9] : Sink .f32) = .ok r ∧
        r.1 = .error ⟨.integer .signed .w16 .little, .integer .signed .w24 .big⟩ ∧
        r.2.sink = .list [9]) ∧
    ∃ s, Span.between ⟨⟨0, [1, 2, 3, 4]⟩, 2, .integer .signed .w16 .big⟩
          ⟨⟨0, [1, 2, 3, 4]⟩, 4, .integer .signed .w16 .big⟩ = .ok s ∧
      ∃ r, copy (.span s) (.cursor ⟨[7, 7], 0, .integer .unsigned .w8 .big⟩ : Sink .i16) =
        (.ok (), r) := by
  refine ⟨⟨_, rfl, ?_⟩, _, rfl, ?_⟩
  · have hs : Span.between ⟨⟨0, [1, 2, 3, 4]⟩, 2, .integer .signed .w24 .big⟩
        ⟨⟨0, [1, 2, 3, 4]⟩, 2, .integer .signed .w16 .little⟩ = .ok ⟨_, _⟩ := rfl
    obtain ⟨-, hc⟩ := transfers_between_ends (t := .f32) hs
      (.cursor ⟨[7, 7], 0, .integer .unsigned .w8 .big⟩)
    obtain ⟨hb, hl⟩ := transfers_between_ends (t := .f32) hs (.list [9])
    rw [if_neg (by decide)] at hc hl
    exact ⟨hc.2.2.1 5, _, hb, hl.1⟩
  · have hs : Span.between ⟨⟨0, [1, 2, 3, 4]⟩, 2, .integer .signed .w16 .big⟩
        ⟨⟨0, [1, 2, 3, 4]⟩, 4, .integer .signed .w16 .big⟩ = .ok ⟨_, _⟩ := rfl
    have hc := (transfers_between_ends (t := .i16) hs
      (.cursor ⟨[7, 7], 0, .integer .unsigned .w8 .big⟩)).2
    rw [if_pos (by decide)] at hc
    exact hc.1

end RawPcm
