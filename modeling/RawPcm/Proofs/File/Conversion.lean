import RawPcm.Proofs.File.Delivery
import RawPcm.Proofs.Transfer.Bounded
import RawPcm.File.Conversion

/-! The loop of a conversion. Its buffers hold what earlier rounds left; only their sizes stay the
same. -/
namespace RawPcm

namespace Workspace
variable {t : SampleType}

/-- Places behind the decoded values keep old values, which no one asks for. -/
theorem decode_whole (w : Workspace t) (f : Format) {bytes : List UInt8}
    (hb : bytes.length < sizeLimit) (hv : bytes.length / f.size ≤ w.values.size) :
    ∃ values, w.decode (.whole ⟨0, bytes⟩ f) =
        .ok (.ok (bytes.length / f.size, { w with values })) ∧
      values.size = w.values.size ∧
      values.front (bytes.length / f.size) = f.decodeAll t bytes := by
  have hn := f.length_decodeAll (t := t) bytes
  have hq := Nat.div_add_mod bytes.length f.size
  have hc : bytes.length / f.size ≤ f.size * (bytes.length / f.size) :=
    Nat.le_mul_of_pos_left _ f.size_pos
  have hr : (Span.whole ⟨0, bytes⟩ f).back.offset = bytes.length - bytes.length % f.size := rfl
  have hk : min (bytes.length / f.size)
      (w.values.front (bytes.length - bytes.length % f.size + 1)).length =
        bytes.length / f.size := by
    rw [Scratch.length_front]
    omega
  have hp : bytes.length / f.size ≤
      (w.values.front (bytes.length - bytes.length % f.size + 1)).length := by omega
  have hs := w.values.length_front (bytes.length - bytes.length % f.size + 1)
  refine ⟨w.values.put (f.decodeAll t bytes ++
    (w.values.front (bytes.length - bytes.length % f.size + 1)).drop (bytes.length / f.size)),
    ?_, rfl, ?_⟩
  · rw [decode, hr, copyBounded_whole (b := ⟨0, bytes⟩) hb f (d := .ofPlaces _) trivial]
    simp only [Sink.ofPlaces, Sink.accepted, Sink.capacity, Sink.filled, Sink.values, hk,
      List.take_of_length_le (Nat.le_of_eq hn), hn, List.nil_append, List.length_drop]
    rw [Nat.sub_sub_self hp]
  · rw [Scratch.front_put (by rw [List.length_append, List.length_drop, hn]; omega)
      (by rw [List.length_append, hn]; omega), List.take_left' hn]

theorem encode_eq (w : Workspace t) (f : Format) (count : Nat) (hv : count ≤ w.values.size)
    (ho : count * f.size ≤ w.output.size) (hl : w.output.size < sizeLimit) :
    ∃ output, w.encode f count = .ok (.ok (count, { w with output })) ∧
      output.size = w.output.size ∧
      output.front (count * f.size) = f.encodeAll (w.values.front count) := by
  have hn : (w.values.front count).length = count := by
    rw [Scratch.length_front, Nat.min_eq_left hv]
  have hb : (w.output.front (count * f.size)).length = count * f.size := by
    rw [Scratch.length_front, Nat.min_eq_left ho]
  have he : (f.encodeAll (w.values.front count)).length = count * f.size := by
    rw [Format.length_encodeAll, hn]
  refine ⟨w.output.put (f.encodeAll (w.values.front count)), ?_, rfl, ?_⟩
  · rw [encode, writeInto_eq _ f (by omega), hb, hn, Nat.mul_div_cancel _ f.size_pos, Nat.min_self,
      List.take_of_length_le (Nat.le_of_eq hn), List.drop_of_length_le (Nat.le_of_eq hb),
      List.append_nil]
  · rw [Scratch.front_put (by omega) (Nat.le_of_eq he.symm),
      List.take_of_length_le (Nat.le_of_eq he)]

end Workspace

namespace Conversion
variable {t : SampleType}

structure Equipped (c : Conversion) (w : Workspace t) : Prop where
  input : w.input.size = c.chunk * c.source.size
  values : w.values.size = c.chunk
  output : w.output.size = c.chunk * c.target.size
  input_lt : w.input.size < sizeLimit
  output_lt : w.output.size < sizeLimit

theorem add_of_le {totals : Totals} {samples dropped count : Nat} (hs : samples ≤ count)
    (hd : dropped ≤ count) (hsl : totals.samples + count < sizeLimit)
    (hdl : totals.dropped + count < sizeLimit) : totals.add samples dropped =
      .ok ⟨totals.samples + samples, totals.dropped + dropped⟩ := by
  rw [Totals.add, Size.add, if_pos (by omega), Size.add, if_pos (by omega)]

/-- What is written is accepted, and the totals can count as many bytes more. -/
structure Ready (p : Progress) (count : Nat) : Prop where
  room : p.writer.room = none
  samples : p.totals.samples + count < sizeLimit
  dropped : p.totals.dropped + count < sizeLimit

theorem Ready.of_add {p : Progress} {count more : Nat} (h : Ready p (count + more)) :
    Ready p count where
  room := h.room
  samples := Nat.lt_of_le_of_lt (Nat.add_le_add_left (Nat.le_add_right ..) _) h.samples
  dropped := Nat.lt_of_le_of_lt (Nat.add_le_add_left (Nat.le_add_right ..) _) h.dropped

theorem ready_start (r : Reader) : Ready (.start .unlimited) r.rest.length where
  room := rfl
  samples := by simpa [Progress.start] using r.length_lt
  dropped := by simpa [Progress.start] using r.length_lt

/-- What the conversion of some bytes adds to what has been done. -/
structure Adds (c : Conversion) (t : SampleType) (bytes : List UInt8) (p p' : Progress) : Prop where
  room : p'.writer.room = none
  written : p'.writer.written = p.writer.written ++ c.target.encodeAll (c.source.decodeAll t bytes)
  samples : p'.totals.samples = p.totals.samples + bytes.length / c.source.size
  dropped : p'.totals.dropped = p.totals.dropped + bytes.length % c.source.size

theorem Adds.ready {c : Conversion} {bytes : List UInt8} {p p' : Progress} {count : Nat}
    (h : c.Adds t bytes p p') (hp : Ready p (bytes.length + count)) : Ready p' count where
  room := h.room
  samples := by
    have hle := Nat.div_le_self bytes.length c.source.size
    have := hp.samples
    rw [h.samples]
    omega
  dropped := by
    have hle := Nat.mod_le bytes.length c.source.size
    have := hp.dropped
    rw [h.dropped]
    omega

theorem Adds.nil (c : Conversion) {p : Progress} (h : p.writer.room = none) : c.Adds t [] p p where
  room := h
  written := by simp [Format.decodeAll, Format.chunks, Format.firstChunks, Format.encodeAll]
  samples := by simp
  dropped := by simp

/-- Rounds add up, as long as only the last one may end inside of a sample. -/
theorem Adds.append {c : Conversion} {bytes more : List UInt8} {p p' p'' : Progress} {count : Nat}
    (h : c.Adds t bytes p p') (hb : bytes.length = count * c.source.size)
    (hm : c.Adds t more p' p'') : c.Adds t (bytes ++ more) p p'' where
  room := hm.room
  written := by
    rw [hm.written, h.written, Format.decodeAll_append _ hb, Format.encodeAll_append,
      List.append_assoc]
  samples := by
    rw [hm.samples, h.samples, List.length_append, hb, Nat.mul_div_cancel _ c.source.size_pos,
      Nat.mul_comm, Nat.mul_add_div c.source.size_pos, Nat.add_assoc]
  dropped := by
    rw [hm.dropped, h.dropped, List.length_append, hb, Nat.mul_mod_left, Nat.add_zero,
      Nat.mul_add_mod_self_right]

/-- One round: the bytes put in front of the input buffer are converted, whatever stands behind. -/
theorem absorb_put {c : Conversion} {w : Workspace t} (hw : c.Equipped w) {bytes : List UInt8}
    (hl : bytes.length ≤ w.input.size) (hs : c.strict = false ∨ bytes.length % c.source.size = 0)
    {p : Progress} (hp : Ready p bytes.length) :
    ∃ w' p', c.absorb bytes.length { w with input := w.input.put bytes } p = .ok (.ok w', p') ∧
      c.Equipped w' ∧ c.Adds t bytes p p' := by
  have hi : (w.input.put bytes).front bytes.length = bytes := by
    rw [Scratch.front_put hl (Nat.le_refl _), List.take_length]
  have hsp : c.samples bytes = .ok (.whole ⟨0, bytes⟩ c.source) := by
    rcases hs with hs | hs
    · simp [samples, hs]
    · simp [samples, Span.exact, hs]
  have hn : bytes.length / c.source.size ≤ c.chunk :=
    Nat.div_le_of_le_mul (by rw [Nat.mul_comm, ← hw.input]; exact hl)
  obtain ⟨values, hd, hvs, hvf⟩ := Workspace.decode_whole
    { w with input := w.input.put bytes } c.source (Nat.lt_of_le_of_lt hl hw.input_lt)
    (hw.values ▸ hn)
  have hv : bytes.length / c.source.size ≤ values.size := by rwa [hvs, hw.values]
  obtain ⟨output, he, hos, hof⟩ := Workspace.encode_eq
    { w with input := w.input.put bytes, values } c.target (bytes.length / c.source.size) hv
    (by rw [hw.output]; exact Nat.mul_le_mul_right _ hn) hw.output_lt
  have ht : bytes.length - bytes.length / c.source.size * c.source.size =
      bytes.length % c.source.size := by
    have := Nat.div_add_mod bytes.length c.source.size
    rw [Nat.mul_comm] at this
    omega
  have htot := add_of_le (Nat.div_le_self bytes.length c.source.size)
    (Nat.mod_le bytes.length c.source.size) hp.samples hp.dropped
  simp only [hvf] at hof
  refine ⟨⟨w.input.put bytes, values, output⟩,
    ⟨{ p.writer with
        written := p.writer.written ++ c.target.encodeAll (c.source.decodeAll t bytes) },
      ⟨p.totals.samples + bytes.length / c.source.size,
        p.totals.dropped + bytes.length % c.source.size⟩,
      p.log ++ c.remark bytes.length ++ c.dropRemark (bytes.length % c.source.size)⟩, ?_,
    ⟨hw.input, hvs.trans hw.values, hos.trans hw.output, hw.input_lt, hos ▸ hw.output_lt⟩,
    hp.room, rfl, rfl, rfl⟩
  simp only [absorb, hi, hsp, hd, he, hof, Writer.put_of_room_eq_none hp.room, ht, htot]

theorem advance_eq_of_fill {c : Conversion} {w : Workspace t} {r r' : Reader} {filled : Nat}
    {input : Scratch UInt8} (h : r.fill w.input = .ok (filled, input, r')) (p : Progress) :
    c.advance r w p = if filled = 0 then .ok (.ok (), p) else
      match c.absorb filled { w with input } p with
      | .error e => .error e
      | .ok (.error e, p) => .ok (.error e, p)
      | .ok (.ok w, p) => if filled < input.size then .ok (.ok (), p) else c.advance r' w p := by
  rw [advance]
  split
  · simp_all
  · rename_i _ _ _ h'
    rw [h] at h'
    cases h'
    rfl

theorem advance_of_fill {c : Conversion} {w : Workspace t} {r r' : Reader} {filled : Nat}
    {input : Scratch UInt8} (h : r.fill w.input = .ok (filled, input, r')) (hf : filled ≠ 0)
    {w' : Workspace t} {p p' : Progress}
    (ha : c.absorb filled { w with input } p = .ok (.ok w', p')) :
    c.advance r w p = if filled < input.size then .ok (.ok (), p') else c.advance r' w' p' := by
  rw [advance_eq_of_fill h, if_neg hf, ha]

theorem advance_of_fill_zero {c : Conversion} {w : Workspace t} {r r' : Reader}
    {input : Scratch UInt8} (h : r.fill w.input = .ok (0, input, r')) (p : Progress) :
    c.advance r w p = .ok (.ok (), p) := by
  rw [advance_eq_of_fill h, if_pos rfl]

theorem Equipped.input_pos {c : Conversion} {w : Workspace t} (hw : c.Equipped w) :
    0 < w.input.size := by
  rw [hw.input]
  exact Nat.mul_pos (Nat.lt_of_lt_of_le Nat.zero_lt_one (Nat.le_max_right ..)) c.source.size_pos

theorem advance_of_full {c : Conversion} {w : Workspace t} (hw : c.Equipped w) {r : Reader}
    (hr : r.Steady) (h : w.input.size ≤ r.rest.length) {p : Progress}
    (hp : Ready p r.rest.length) :
    ∃ (w' : Workspace t) (r' : Reader) (p' : Progress),
      c.advance r w p = c.advance r' w' p' ∧ c.Equipped w' ∧ r'.Steady ∧
      r'.rest = r.rest.drop w.input.size ∧ c.Adds t (r.rest.take w.input.size) p p' ∧
      Ready p' r'.rest.length := by
  obtain ⟨r', hf, hr', hst⟩ := Reader.fill_of_steady hr w.input
  have hl : (r.rest.take w.input.size).length = w.input.size := List.length_take_of_le h
  have hm : (r.rest.take w.input.size).length % c.source.size = 0 := by
    rw [hl, hw.input, Nat.mul_mod_left]
  have hready : Ready p ((r.rest.take w.input.size).length + r'.rest.length) := by
    rwa [hr', ← List.length_append, List.take_append_drop]
  obtain ⟨w', p', ha, hw', hadd⟩ := absorb_put hw (Nat.le_of_eq hl) (.inr hm) hready.of_add
  rw [hl] at ha
  rw [Nat.min_eq_left h] at hf
  refine ⟨w', r', p', ?_, hw', hst, hr', hadd, hadd.ready hready⟩
  rw [advance_of_fill hf (Nat.ne_of_gt hw.input_pos) ha, Scratch.size_put,
    if_neg (Nat.lt_irrefl _)]

/-- All full chunks are behind the loop. What is left is less than a chunk. -/
theorem advance_of_fulls {c : Conversion} {w : Workspace t} (hw : c.Equipped w) {r : Reader}
    (hr : r.Steady) {p : Progress} (hp : Ready p r.rest.length) :
    ∃ (w' : Workspace t) (r' : Reader) (p' : Progress),
      c.advance r w p = c.advance r' w' p' ∧ c.Equipped w' ∧ r'.Steady ∧
      r'.rest = r.rest.drop (r.rest.length / w.input.size * w.input.size) ∧
      c.Adds t (r.rest.take (r.rest.length / w.input.size * w.input.size)) p p' ∧
      Ready p' r'.rest.length := by
  -- On the number of full chunks. The buffers hold something else in each round.
  induction hq : r.rest.length / w.input.size generalizing r w p with
  | zero =>
    rw [Nat.zero_mul, List.drop_zero, List.take_zero]
    exact ⟨w, r, p, rfl, hw, hr, rfl, .nil c hp.room, hp⟩
  | succ q ih =>
    have hge : w.input.size ≤ r.rest.length := by
      apply Nat.le_of_not_lt
      intro hlt
      rw [Nat.div_eq_of_lt hlt] at hq
      cases hq
    obtain ⟨w₁, r₁, p₁, ha, hw₁, hr₁, hrest, hadd, hp₁⟩ := advance_of_full hw hr hge hp
    have hi : w₁.input.size = w.input.size := hw₁.input.trans hw.input.symm
    have hq₁ : r₁.rest.length / w₁.input.size = q := by
      rw [Nat.div_eq_sub_div hw.input_pos hge] at hq
      rw [hrest, List.length_drop, hi]
      exact Nat.succ.inj hq
    obtain ⟨w', r', p', ha', hw', hr', hrest', hadd', hp'⟩ := ih hw₁ hr₁ hp₁ hq₁
    rw [hi] at hrest' hadd'
    rw [Nat.succ_mul, Nat.add_comm]
    refine ⟨w', r', p', ha.trans ha', hw', hr', ?_, ?_, hp'⟩
    · rw [hrest', hrest, List.drop_drop]
    · rw [List.take_add, ← hrest]
      exact hadd.append ((List.length_take_of_le hge).trans hw.input) hadd'

theorem length_drop_div_mul (bytes : List UInt8) (size : Nat) :
    (bytes.drop (bytes.length / size * size)).length = bytes.length % size := by
  have := Nat.div_add_mod' bytes.length size
  rw [List.length_drop]
  omega

theorem Equipped.length_drop_lt {c : Conversion} {w w' : Workspace t} (hw : c.Equipped w)
    (hw' : c.Equipped w') (bytes : List UInt8) :
    (bytes.drop (bytes.length / w.input.size * w.input.size)).length < w'.input.size := by
  rw [length_drop_div_mul, hw'.input, ← hw.input]
  exact Nat.mod_lt _ hw.input_pos

/-- A chunk that is not full is the last one. -/
theorem advance_of_lt {c : Conversion} {w : Workspace t} (hw : c.Equipped w) {r : Reader}
    (hr : r.Steady) (hlt : r.rest.length < w.input.size)
    (hs : c.strict = false ∨ r.rest.length % c.source.size = 0) {p : Progress}
    (hp : Ready p r.rest.length) :
    ∃ p', c.advance r w p = .ok (.ok (), p') ∧ c.Adds t r.rest p p' := by
  obtain ⟨r', hf, -, -⟩ := Reader.fill_of_steady hr w.input
  rw [Nat.min_eq_right (Nat.le_of_lt hlt), List.take_of_length_le (Nat.le_of_lt hlt)] at hf
  by_cases h0 : r.rest = []
  · rw [h0, List.length_nil] at hf
    exact ⟨p, advance_of_fill_zero hf p, h0 ▸ .nil c hp.room⟩
  · obtain ⟨w', p', ha, -, hadd⟩ := absorb_put hw (Nat.le_of_lt hlt) hs hp
    refine ⟨p', ?_, hadd⟩
    rw [advance_of_fill hf (Nat.ne_of_gt (List.length_pos_iff.mpr h0)) ha, Scratch.size_put,
      if_pos hlt]

/-- The loop ends where the bytes do: each round but the last takes a full chunk, which is a whole
number of samples. -/
theorem advance_eq {c : Conversion} {w : Workspace t} (hw : c.Equipped w) {r : Reader}
    (hr : r.Steady) (hs : c.strict = false ∨ r.rest.length % c.source.size = 0) {p : Progress}
    (hp : Ready p r.rest.length) :
    ∃ p', c.advance r w p = .ok (.ok (), p') ∧ c.Adds t r.rest p p' := by
  obtain ⟨w', r', p', ha, hw', hr', hrest, hadd, hp'⟩ := advance_of_fulls hw hr hp
  have hl : r'.rest.length = r.rest.length % w.input.size := by rw [hrest, length_drop_div_mul]
  have hlt : r'.rest.length < w'.input.size := by rw [hrest]; exact hw.length_drop_lt hw' _
  have hm : r'.rest.length % c.source.size = r.rest.length % c.source.size := by
    rw [hl, hw.input, Nat.mod_mul_left_mod]
  obtain ⟨p'', hadv, hadd'⟩ := advance_of_lt hw' hr' hlt (hm ▸ hs) hp'
  have hb : (r.rest.take (r.rest.length / w.input.size * w.input.size)).length =
      r.rest.length / w.input.size * c.chunk * c.source.size := by
    rw [List.length_take_of_le (Nat.div_mul_le_self ..), Nat.mul_assoc, hw.input]
  refine ⟨p'', ha.trans hadv, ?_⟩
  rw [← List.take_append_drop (r.rest.length / w.input.size * w.input.size) r.rest, ← hrest]
  exact hadd.append hb hadd'

/-- Memory has room for the buffers of a chunk: bytes that come, values, bytes that go out. -/
def HasRoom (c : Conversion) (memory : Nat) (t : SampleType) : Prop :=
  ∀ size ∈ [c.source.size, t.bytes, c.target.size],
    c.chunk * size < bufferLimit ∧ c.chunk * size < memory

instance (c : Conversion) (memory : Nat) (t : SampleType) : Decidable (c.HasRoom memory t) :=
  inferInstanceAs (Decidable (∀ _ ∈ _, _))

theorem workspace_of_hasRoom {c : Conversion} {memory : Nat} (h : c.HasRoom memory t) :
    ∃ w, c.workspace memory t = .ok w ∧ c.Equipped w := by
  obtain ⟨hi, hv, ho⟩ : _ ∧ _ ∧ _ := by simpa [HasRoom] using h
  have hl : bufferLimit < sizeLimit := by decide
  refine ⟨⟨.blank (c.chunk * c.source.size), .blank c.chunk, .blank (c.chunk * c.target.size)⟩, ?_,
    rfl, rfl, rfl, Nat.lt_trans hi.1 hl, Nat.lt_trans ho.1 hl⟩
  rw [workspace, Size.buffer_eq_ok_iff.mpr ⟨rfl, hi⟩, Size.buffer_eq_ok_iff.mpr ⟨rfl, hv⟩,
    Size.buffer_eq_ok_iff.mpr ⟨rfl, ho⟩]

theorem hasRoom_of_workspace {c : Conversion} {memory : Nat} {w : Workspace t}
    (h : c.workspace memory t = .ok w) : c.HasRoom memory t := by
  unfold workspace at h
  split at h
  · cases h
  · rename_i hi
    split at h
    · cases h
    · rename_i hv
      split at h
      · cases h
      · rename_i ho
        obtain ⟨rfl, hi⟩ := Size.buffer_eq_ok_iff.mp hi
        obtain ⟨rfl, hv⟩ := Size.buffer_eq_ok_iff.mp hv
        obtain ⟨rfl, ho⟩ := Size.buffer_eq_ok_iff.mp ho
        simp [HasRoom, hi, hv, ho]

theorem runThrough_of_hasRoom {c : Conversion} {memory : Nat} (h : c.HasRoom memory t) {r : Reader}
    (hr : r.Steady) (hs : c.strict = false ∨ r.rest.length % c.source.size = 0) :
    ∃ p, c.runThrough memory t r .unlimited =
        .ok (.ok ⟨r.rest.length / c.source.size, r.rest.length % c.source.size⟩, p) ∧
      p.writer.written = c.target.encodeAll (c.source.decodeAll t r.rest) := by
  obtain ⟨w, hw, he⟩ := workspace_of_hasRoom h
  obtain ⟨p, ha, hadd⟩ := advance_eq he hr hs (ready_start r)
  have ht : p.totals = ⟨r.rest.length / c.source.size, r.rest.length % c.source.size⟩ := by
    have hsm := hadd.samples
    have hd := hadd.dropped
    simp only [Progress.start, Nat.zero_add] at hsm hd
    cases htot : p.totals
    simp_all
  refine ⟨p, ?_, hadd.written⟩
  simp only [runThrough, hw, ha, ht]

def Fits (c : Conversion) (memory : Nat) (via : Via) : Prop :=
  ∀ size ∈ [c.source.size, via.valueSize, c.target.size],
    c.chunk * size < bufferLimit ∧ c.chunk * size < memory

instance (c : Conversion) (memory : Nat) (via : Via) : Decidable (c.Fits memory via) :=
  inferInstanceAs (Decidable (∀ _ ∈ _, _))

theorem Fits.hasRoom {c : Conversion} {memory : Nat} {via : Via} (h : c.Fits memory via) :
    c.HasRoom memory via.sampleType := h

theorem run_of_not_fits {c : Conversion} {memory : Nat} {via : Via} (h : ¬ c.Fits memory via)
    (r : Reader) (writer : Writer) : ∃ e, c.run memory via r writer = .error e := by
  cases hw : c.workspace memory via.sampleType with
  | error e => exact ⟨e, by simp only [run, runThrough, hw]⟩
  | ok w => exact absurd (hasRoom_of_workspace hw) h

theorem run_of_fits {c : Conversion} {memory : Nat} {via : Via} (h : c.Fits memory via)
    {r : Reader} (hr : r.Steady) (hs : c.strict = false ∨ r.rest.length % c.source.size = 0) :
    ∃ p, c.run memory via r .unlimited =
        .ok (.ok ⟨r.rest.length / c.source.size, r.rest.length % c.source.size⟩, p) ∧
      p.writer.written = c.target.encodeAll (c.source.decodeAll via.sampleType r.rest) :=
  runThrough_of_hasRoom h.hasRoom hr hs

/-- Every whole sample is decoded and encoded once and in order, the bytes after the last one are
dropped, and nothing of it depends on the size of a chunk. -/
theorem run_converts_each_sample (c : Conversion) (memory : Nat) (via : Via) (r : Reader)
    (hs : c.strict = false) (hr : r.Steady) (hf : c.Fits memory via) :
    ∃ p, c.run memory via r .unlimited =
        .ok (.ok ⟨r.rest.length / c.source.size, r.rest.length % c.source.size⟩, p) ∧
      p.writer.written = (c.source.chunks r.rest).flatMap (fun chunk =>
        c.target.encode (c.source.decode via.sampleType chunk)) ∧
      ∀ k, { c with chunkSamples := k }.Fits memory via →
        ∃ q, { c with chunkSamples := k }.run memory via r .unlimited =
            .ok (.ok ⟨r.rest.length / c.source.size, r.rest.length % c.source.size⟩, q) ∧
          q.writer.written = p.writer.written := by
  obtain ⟨p, hp, hw⟩ := run_of_fits hf hr (.inl hs)
  refine ⟨p, hp, ?_, ?_⟩
  · rw [hw, Format.encodeAll, Format.decodeAll, List.flatMap_map]
  · intro k hk
    obtain ⟨q, hq, hv⟩ := run_of_fits hk hr (.inl hs)
    exact ⟨q, hq, hv.trans hw.symm⟩

theorem run_two_samples_and_a_byte :
    ∃ p, (⟨.integer .signed .w16 .little, .integer .unsigned .w24 .big, 0, false⟩ : Conversion).run
        ordinaryMemory .i64 (.mk [.upTo 1, .interrupted] [0xff, 0x7f, 0xfe, 0xff, 0x80]) .unlimited =
          .ok (.ok ⟨2, 1⟩, p) ∧
      p.writer.written = [0xff, 0xff, 0x00, 0x7f, 0xfe, 0x00] ∧
      ∃ q, (⟨.integer .signed .w16 .little, .integer .unsigned .w24 .big, 3, false⟩ :
          Conversion).run ordinaryMemory .i64
            (.mk [.upTo 1, .interrupted] [0xff, 0x7f, 0xfe, 0xff, 0x80]) .unlimited =
          .ok (.ok ⟨2, 1⟩, q) ∧
        q.writer.written = p.writer.written := by
  obtain ⟨p, hp, hw, hk⟩ := run_converts_each_sample
    ⟨.integer .signed .w16 .little, .integer .unsigned .w24 .big, 0, false⟩ ordinaryMemory .i64
    (.mk [.upTo 1, .interrupted] [0xff, 0x7f, 0xfe, 0xff, 0x80]) rfl
    (by simp [Reader.Steady, Piece.Steady]) (by decide)
  exact ⟨p, hp, hw.trans (by decide +kernel), hk 3 (by decide)⟩

end Conversion
end RawPcm
