import RawPcm.Proofs.Transfer.Complete

/-! All ways to take samples from bytes give the same samples. -/
namespace RawPcm
variable {t : SampleType}

namespace Cursor

def getEach (t : SampleType) : (count : Nat) → Cursor →
    Except Fault (List (Sample t) × Cursor)
  | 0, c => .ok ([], c)
  | count + 1, c =>
    match c.get t with
    | .error e => .error e
    | .ok x =>
      match c.advance with
      | (.error e, _) => .error e
      | (.ok (), c) =>
        match getEach t count c with
        | .error e => .error e
        | .ok (xs, c) => .ok (x :: xs, c)

theorem getEach_eq {b : Buffer} (hb : b.bytes.length < sizeLimit) (f : Format)
    (offset count : Nat) (h : offset + count * f.size ≤ b.bytes.length) :
    getEach t count ⟨b, offset, f⟩ =
      .ok ((f.firstChunks count (b.bytes.drop offset)).map (f.decode t),
        ⟨b, offset + count * f.size, f⟩) := by
  induction count generalizing offset with
  | zero => simp [getEach, Format.firstChunks]
  | succ count ih =>
    rw [Nat.succ_mul] at h
    have hn := ih (offset + f.size) (by omega)
    rw [getEach, get_of_le (show offset + f.size ≤ b.bytes.length by omega),
      advance_of_lt (show offset + f.size < sizeLimit by omega)]
    simp only [hn, Format.firstChunks, List.map_cons, List.drop_drop, Format.decode_take,
      Nat.succ_mul, Nat.add_assoc, Nat.add_comm f.size]

end Cursor

theorem drain_of_holds {σ : Type} {step : σ → Except Fault (Option (Sample t)) × σ}
    {source : σ → Source t} (hstep : ∀ s, (source s).pull = ((step s).1, source (step s).2))
    {s : σ} {xs : List (Sample t)} (h : (source s).Holds xs) (fuel : Nat) (hf : xs.length < fuel) :
    drain step fuel s = .ok xs := by
  induction xs generalizing s fuel with
  | nil =>
    obtain ⟨fuel, rfl⟩ := Nat.exists_eq_succ_of_ne_zero (Nat.ne_of_gt hf)
    cases h with
    | nil h =>
      rw [hstep] at h
      cases hn : step s with
      | mk answer s' =>
        simp only [hn, Prod.mk.injEq] at h
        simp [drain, hn, h.1]
  | cons x xs ih =>
    obtain ⟨fuel, rfl⟩ := Nat.exists_eq_succ_of_ne_zero (Nat.ne_of_gt (Nat.zero_lt_of_lt hf))
    cases h with
    | cons h hs =>
      rw [hstep] at h
      cases hn : step s with
      | mk answer s' =>
        simp only [hn, Prod.mk.injEq] at h
        obtain ⟨rfl, rfl⟩ := h
        simp [drain, hn, ih hs fuel (Nat.lt_of_succ_lt_succ hf)]

theorem Span.nextBack_ofCount {b : Buffer} (f : Format) {offset count : Nat}
    (h : offset + (count + 1) * f.size ≤ b.bytes.length) :
    (ofCount b f offset (count + 1)).nextBack t =
      (.ok (some (f.decode t (b.bytes.drop (offset + count * f.size)))),
        ofCount b f offset count) := by
  have he : offset + (count + 1) * f.size = offset + count * f.size + f.size := by
    rw [Nat.succ_mul, Nat.add_assoc]
  have hs : f.size ≤ offset + (count + 1) * f.size := he ▸ Nat.le_add_left ..
  rw [nextBack_of_remaining (remaining_ofCount ..) hs h]
  simp only [ofCount, he, Nat.add_sub_cancel]

theorem Span.drain_nextBack {b : Buffer} (f : Format) {offset count : Nat}
    (h : offset + count * f.size ≤ b.bytes.length) (fuel : Nat) (hf : count < fuel) :
    drain (nextBack t) fuel (ofCount b f offset count) =
      .ok ((f.firstChunks count (b.bytes.drop offset)).map (f.decode t)).reverse := by
  induction count generalizing fuel with
  | zero =>
    obtain ⟨fuel, rfl⟩ := Nat.exists_eq_succ_of_ne_zero (Nat.ne_of_gt hf)
    simp [drain, nextBack, remaining_ofCount, Format.firstChunks]
  | succ count ih =>
    obtain ⟨fuel, rfl⟩ := Nat.exists_eq_succ_of_ne_zero (Nat.ne_of_gt (Nat.zero_lt_of_lt hf))
    have hn := h
    rw [Nat.succ_mul] at hn
    rw [drain, nextBack_ofCount f h]
    simp only [ih (by omega) fuel (Nat.lt_of_succ_lt_succ hf)]
    rw [f.firstChunks_succ, List.map_append, List.map_singleton, Format.decode_take,
      List.reverse_append, List.reverse_singleton, List.singleton_append, List.drop_drop]

theorem Stream.drain_next (fuel : Nat) (s : Stream t) :
    drain (fun s : Stream t => (.ok s.next.1, s.next.2)) fuel s = .ok (takeAll fuel s).1 := by
  induction fuel generalizing s with
  | zero => rfl
  | succ fuel ih =>
    rcases hn : s.next with ⟨_ | x, s'⟩
    · simp [drain, takeAll, hn]
    · simp [drain, takeAll, hn, ih]

theorem Stream.takeAll_of_holds {s : Stream t} {xs : List (Sample t)}
    (h : (Source.stream s).Holds xs) (fuel : Nat) (hf : xs.length < fuel) :
    (takeAll fuel s).1 = xs :=
  Except.ok.inj ((drain_next fuel s).symm.trans (drain_of_holds (fun _ => rfl) h fuel hf))

theorem Span.between_start {b : Buffer} (hb : b.bytes.length < sizeLimit) (f : Format) :
    between (.start b f) ⟨b, b.bytes.length / f.size * f.size, f⟩ = .ok (whole b f) := by
  have ha := (sound_whole hb f).accepted
  rw [whole_eq, ofCount, Nat.zero_add] at ha ⊢
  exact ha

theorem Span.exact_eq (b : Buffer) (f : Format) :
    exact b f = if f.size ∣ b.bytes.length then .ok (whole b f)
      else .error ⟨b.bytes.length, f.size⟩ := by
  simp only [exact, Nat.dvd_iff_mod_eq_zero]

/-- Each way ends by itself, whatever the number of steps that it is given beyond those it takes,
and no way takes what is left over at the end for a sample. -/
theorem decodings_agree (f : Format) (t : SampleType) (b : Buffer)
    (hb : b.bytes.length < sizeLimit) :
    ∃ xs : List (Sample t), xs.length = b.bytes.length / f.size ∧
      (∀ (i : Nat) (hi : i < xs.length),
        f.read t ((b.bytes.drop (i * f.size)).take f.size) = .ok xs[i]) ∧
      (Format.readers t)[f.index]? = some (f.read t) ∧
      (∀ steps, xs.length < steps →
        drain (Span.next t) steps (.whole b f) = .ok xs ∧
        drain (Span.nextBack t) steps (.whole b f) = .ok xs.reverse ∧
        (Stream.takeAll steps (.start t b.bytes f)).1 = xs) ∧
      Span.exact b f = (if f.size ∣ b.bytes.length then .ok (.whole b f)
        else .error ⟨b.bytes.length, f.size⟩) ∧
      (∀ ys, ∃ s, copy (.span (.whole b f)) (.list ys) = (.ok (), ⟨s, .list (ys ++ xs), none⟩) ∧
        copyBetween (.start b f) ⟨b, xs.length * f.size, f⟩ (.list ys) =
          .ok (.ok (), ⟨s, .list (ys ++ xs), none⟩)) ∧
      (Cursor.start b f).getEach t xs.length = .ok (xs, ⟨b, xs.length * f.size, f⟩) ∧
      ∀ out, readInto b.bytes f out =
        .ok (.ok (min xs.length out.length, xs.take out.length ++ out.drop xs.length)) := by
  have hn := f.length_decodeAll (t := t) b.bytes
  have hle : 0 + b.bytes.length / f.size * f.size ≤ b.bytes.length := by
    rw [Nat.zero_add]
    exact Nat.div_mul_le_self ..
  have hfront := Source.holds_whole (t := t) hb f
  refine ⟨f.decodeAll t b.bytes, hn, fun i hi => f.read_eq_getElem_decodeAll b.bytes hi,
    f.readers_index t, ?_, Span.exact_eq b f, ?_, ?_, ?_⟩
  · intro steps hs
    refine ⟨drain_of_holds (fun _ => rfl) hfront steps hs, ?_,
      Stream.takeAll_of_holds (Source.holds_start f b.bytes) steps hs⟩
    rw [Span.whole_eq]
    exact Span.drain_nextBack f hle steps (hn ▸ hs)
  · intro ys
    have hcopy := copy_list (s := .span (.whole b f)) (Span.sound_whole hb f) hfront ys
    rw [hn] at hcopy
    refine ⟨_, hcopy, ?_⟩
    rw [hn, copyBetween, Span.between_start hb f]
    exact congrArg Except.ok hcopy
  · have hstep := Cursor.getEach_eq (t := t) hb f 0 _ hle
    rw [Nat.zero_add] at hstep
    rw [hn]
    exact hstep
  · intro out
    rw [readInto_eq hb, hn]

theorem decodings_of_two_samples_and_a_byte :
    drain (Span.next .i16) 3 (.whole ⟨7, [0x12, 0x34, 0x56, 0xff, 0xfe, 0x80, 0x99]⟩
        (.integer .signed .w24 .big)) = .ok [0x1234, 0xfffe] ∧
      drain (Span.nextBack .i16) 3 (.whole ⟨7, [0x12, 0x34, 0x56, 0xff, 0xfe, 0x80, 0x99]⟩
        (.integer .signed .w24 .big)) = .ok [0xfffe, 0x1234] ∧
      readInto [0x12, 0x34, 0x56, 0xff, 0xfe, 0x80, 0x99] (.integer .signed .w24 .big)
        [1, 2, (3 : Sample .i16)] = .ok (.ok (2, [0x1234, 0xfffe, 3])) := by
  obtain ⟨xs, hn, -, -, hs, -, -, -, hr⟩ := decodings_agree (.integer .signed .w24 .big) .i16
    ⟨7, [0x12, 0x34, 0x56, 0xff, 0xfe, 0x80, 0x99]⟩ (by decide)
  have hlen : xs.length = 2 := hn
  obtain ⟨hf, hb, -⟩ := hs 3 (by omega)
  have hx : xs = [0x1234, 0xfffe] := by
    have hv : drain (Span.next .i16) 3 (.whole ⟨7, [0x12, 0x34, 0x56, 0xff, 0xfe, 0x80, 0x99]⟩
        (.integer .signed .w24 .big)) = .ok [0x1234, 0xfffe] := rfl
    exact Except.ok.inj (hf.symm.trans hv)
  subst hx
  exact ⟨hf, hb, hr [1, 2, 3]⟩

end RawPcm
