import RawPcm.Proofs.File.Conversion

/-! How bytes are cut into pieces makes no difference: the chunks of a conversion are known
beforehand. -/
namespace RawPcm
namespace Reader
variable {r : Reader} {want : Nat} {cause : String}

theorem Reads.take_of_broken {done : List UInt8} {q q' : Reader} (h : r.Reads want done q)
    (hlt : done.length < want) (ha : q.attempt (want - done.length) = (.broken cause, q')) :
    r.take want = .error cause := by
  rw [h.take, take_eq q (Nat.sub_pos_of_lt hlt), ha]
  rfl

theorem take_eq_error_iff : r.take want = .error cause ↔ ∃ done q q', r.Reads want done q ∧
    done.length < want ∧ q.attempt (want - done.length) = (.broken cause, q') := by
  constructor
  · intro he
    obtain ⟨done, q, h, hend⟩ := r.exists_reads want
    cases hend with
    | full hd =>
      rw [h.take, hd, Nat.sub_self, take_zero] at he
      cases he
    | empty hlt ha =>
      rw [h.take, take_eq q (Nat.sub_pos_of_lt hlt), ha] at he
      cases he
    | broken hlt ha =>
      rw [h.take_of_broken hlt ha] at he
      cases he
      exact ⟨done, q, _, h, hlt, ha⟩
  · intro ⟨done, q, q', h, hlt, ha⟩
    exact h.take_of_broken hlt ha

theorem fill_eq_error_iff {buffer : Scratch UInt8} :
    r.fill buffer = .error cause ↔ r.take buffer.size = .error cause := by
  unfold fill
  split <;> simp_all

theorem Delivers.fill (h : r.Delivers) (buffer : Scratch UInt8) : ∃ buffer' r',
    r.fill buffer = .ok (min buffer.size r.rest.length, buffer', r') ∧
    buffer'.toList = r.rest.take buffer.size ++
      buffer.toList.drop (min buffer.size r.rest.length) ∧
    r'.rest = r.rest.drop buffer.size ∧ r'.Delivers := by
  obtain ⟨r', hf, hr'⟩ := delivering_delivers.fill h buffer
  refine ⟨_, r', hf, ?_, hr'⟩
  rw [Scratch.toList_put, List.length_take]
  apply List.take_of_length_le
  rw [List.length_append, List.length_take, List.length_drop, Scratch.length_toList]
  omega

end Reader

namespace Workspace
variable {t : SampleType} {w w' : Workspace t} {count : Nat}

theorem input_of_decode {span : Span} (h : w.decode span = .ok (.ok (count, w'))) :
    w'.input = w.input := by
  simp only [decode] at h
  split at h
  · cases h
  · split at h
    · cases h
    · cases h
      rfl

theorem input_of_encode {f : Format} {written : Nat}
    (h : w.encode f count = .ok (.ok (written, w'))) : w'.input = w.input := by
  simp only [encode] at h
  split at h
  · cases h
  · cases h
  · cases h
    rfl

end Workspace

namespace Conversion
variable {t : SampleType}

def chunksOf (size : Nat) (bytes : List UInt8) : List (List UInt8) :=
  if bytes = [] ∨ size = 0 then [] else bytes.take size :: chunksOf size (bytes.drop size)
termination_by bytes.length
decreasing_by
  have : bytes.length ≠ 0 := by simp_all
  rw [List.length_drop]
  omega

theorem chunksOf_nil (size : Nat) : chunksOf size [] = [] := by
  rw [chunksOf, if_pos (.inl rfl)]

/-- Rounds over chunks that are known beforehand. -/
def absorbEach (c : Conversion) : List (List UInt8) → Workspace t → Progress →
    Except Fault (Except ConversionError Unit × Progress)
  | [], _, p => .ok (.ok (), p)
  | bytes :: more, w, p =>
    match c.absorb bytes.length { w with input := w.input.put bytes } p with
    | .error e => .error e
    | .ok (.error e, p) => .ok (.error e, p)
    | .ok (.ok w, p) => c.absorbEach more w p

theorem input_of_absorb {c : Conversion} {filled : Nat} {w w' : Workspace t} {p p' : Progress}
    (h : c.absorb filled w p = .ok (.ok w', p')) : w'.input = w.input := by
  unfold absorb at h
  split at h
  · cases h
  · split at h
    · cases h
    · cases h
    · rename_i hd
      split at h
      · cases h
      · cases h
      · rename_i he
        split at h
        · cases h
        · dsimp only at h
          split at h
          · cases h
          · cases h
            exact (Workspace.input_of_encode he).trans (Workspace.input_of_decode hd)

/-- The chunks that a conversion sees are those of the bytes that come. -/
theorem advance_eq_absorbEach (c : Conversion) {r : Reader} (hr : r.Delivers) (w : Workspace t)
    (p : Progress) :
    c.advance r w p = c.absorbEach (chunksOf w.input.size r.rest) w p := by
  -- On the bytes that are left, of which every round takes some as long as there are any.
  induction hn : r.rest.length using Nat.strongRecOn generalizing r w p with
  | ind n ih =>
    subst hn
    obtain ⟨r', hf, hrest, hr'⟩ := Reader.delivering_delivers.fill hr w.input
    have hnil : r.rest = [] ↔ r.rest.length = 0 := List.length_eq_zero_iff.symm
    by_cases h0 : min w.input.size r.rest.length = 0
    · rw [advance_eq_of_fill hf, if_pos h0, chunksOf, if_pos (by rw [hnil]; omega), absorbEach]
    · rw [chunksOf, if_neg (by rw [hnil]; omega), absorbEach, List.length_take]
      cases ha : c.absorb (min w.input.size r.rest.length)
          { w with input := w.input.put (r.rest.take w.input.size) } p with
      | error e => rw [advance_eq_of_fill hf, if_neg h0, ha]
      | ok v =>
        obtain ⟨answer, p'⟩ := v
        cases answer with
        | error e => rw [advance_eq_of_fill hf, if_neg h0, ha]
        | ok w' =>
          have hi : w'.input.size = w.input.size := by rw [input_of_absorb ha, Scratch.size_put]
          have hd : r'.rest.length = r.rest.length - w.input.size := by rw [hrest, List.length_drop]
          rw [advance_of_fill hf h0 ha, Scratch.size_put]
          by_cases hlt : min w.input.size r.rest.length < w.input.size
          · have hend : r.rest.drop w.input.size = [] := List.drop_of_length_le (by omega)
            simp only [if_pos hlt, hend, chunksOf_nil, absorbEach]
          · simp only [if_neg hlt, ih _ (by omega) hr' w' p' rfl, hi, hrest]

theorem runThrough_eq_of_rest (c : Conversion) (memory : Nat) (t : SampleType) {q r : Reader}
    (hq : q.Delivers) (hr : r.Delivers) (h : q.rest = r.rest) (writer : Writer) :
    c.runThrough memory t q writer = c.runThrough memory t r writer := by
  simp only [runThrough, advance_eq_absorbEach c hq, advance_eq_absorbEach c hr, h]

/-- Short reads and interruptions are hidden: a buffer is filled and a conversion goes on as if the
bytes had come in one piece. What breaks an attempt is all that makes reading fail. -/
theorem pieces_make_no_difference (r : Reader) :
    (r.Delivers →
      (∀ buffer : Scratch UInt8, ∃ buffer' r',
        r.fill buffer = .ok (min buffer.size r.rest.length, buffer', r') ∧
        buffer'.toList = r.rest.take buffer.size ++
          buffer.toList.drop (min buffer.size r.rest.length) ∧
        r'.rest = r.rest.drop buffer.size ∧ r'.Delivers) ∧
      (∀ (c : Conversion) (t : SampleType) (w : Workspace t) (p : Progress),
        c.advance r w p = c.absorbEach (chunksOf w.input.size r.rest) w p) ∧
      ∀ (c : Conversion) (memory : Nat) (t : SampleType) (q : Reader) (writer : Writer),
        q.Delivers → q.rest = r.rest →
          c.runThrough memory t q writer = c.runThrough memory t r writer) ∧
    ∀ (buffer : Scratch UInt8) (cause : String), r.fill buffer = .error cause ↔
      ∃ done q q', r.Reads buffer.size done q ∧ done.length < buffer.size ∧
        q.attempt (buffer.size - done.length) = (.broken cause, q') := by
  refine ⟨fun hr => ⟨hr.fill, fun c t w p => advance_eq_absorbEach c hr w p,
    fun c memory t q writer hq h => runThrough_eq_of_rest c memory t hq hr h writer⟩, ?_⟩
  intro buffer cause
  rw [Reader.fill_eq_error_iff, Reader.take_eq_error_iff]

theorem pieces_make_no_difference_to_five_bytes :
    (.mk [.upTo 1, .interrupted, .upTo 2] [1, 2, 3, 4, 5] : Reader).Delivers ∧
    (∃ buffer' r', (.mk [.upTo 1, .interrupted, .upTo 2] [1, 2, 3, 4, 5] : Reader).fill
        ((Scratch.blank 7).put [9, 9, 9, 9, 9, 9, 9]) = .ok (5, buffer', r') ∧
      buffer'.toList = [1, 2, 3, 4, 5, 9, 9] ∧ r'.rest = [] ∧ r'.Delivers) ∧
    (⟨.integer .signed .w16 .little, .floating .single .big, 1, true⟩ : Conversion).runThrough
        ordinaryMemory .f64 (.mk [] [1, 2, 3, 4, 5]) .unlimited =
      (⟨.integer .signed .w16 .little, .floating .single .big, 1, true⟩ : Conversion).runThrough
        ordinaryMemory .f64 (.mk [.upTo 1, .interrupted, .upTo 2] [1, 2, 3, 4, 5]) .unlimited ∧
    (.mk [.upTo 1, .broken "gone"] [1, 2, 3] : Reader).fill (.blank 2) = .error "gone" := by
  have hr : (.mk [.upTo 1, .interrupted, .upTo 2] [1, 2, 3, 4, 5] : Reader).Delivers :=
    Reader.delivering_steady.delivers (by simp [Reader.Steady, Piece.Steady])
  have hq : (.mk [] [1, 2, 3, 4, 5] : Reader).Delivers :=
    Reader.delivering_steady.delivers (by simp [Reader.Steady])
  obtain ⟨hfill, -, hrun⟩ := (pieces_make_no_difference _).1 hr
  exact ⟨hr, hfill _, hrun _ _ _ _ _ hq rfl,
    ((pieces_make_no_difference _).2 _ _).mpr
      ⟨[1], _, _, .got .start (by decide) rfl (by decide), by decide, rfl⟩⟩

end Conversion
end RawPcm
