import RawPcm.File.Delivery

/-! Reading in full is a loop over attempts. A reader that delivers fills a buffer with the next
bytes in order. -/
namespace RawPcm

inductive Attempt where
  | got (bytes : List UInt8)
  | interrupted
  | broken (cause : String)
deriving DecidableEq

def Attempt.bytes : Attempt → List UInt8
  | got bytes => bytes
  | interrupted => []
  | broken _ => []

/-- An attempt that is interrupted or gets a byte at least, as long as there are any. -/
def Piece.Steady : Piece → Prop
  | upTo count => 0 < count
  | interrupted => True
  | broken _ => False

namespace Reader
variable {r r' : Reader} {want : Nat} {answer : Attempt}

def attempt (r : Reader) (want : Nat) : Attempt × Reader :=
  match r.pieces with
  | [] => (.got (r.rest.take want), ⟨[], r.rest.drop want, length_drop_lt r.length_lt want⟩)
  | .upTo count :: pieces =>
    (.got (r.rest.take (min count want)),
      ⟨pieces, r.rest.drop (min count want), length_drop_lt r.length_lt _⟩)
  | .interrupted :: pieces => (.interrupted, { r with pieces })
  | .broken cause :: pieces => (.broken cause, { r with pieces })

theorem append_of_attempt (h : r.attempt want = (answer, r')) :
    answer.bytes ++ r'.rest = r.rest := by
  unfold attempt at h
  split at h <;> cases h <;> simp [Attempt.bytes]

theorem length_bytes_of_attempt (h : r.attempt want = (answer, r')) :
    answer.bytes.length ≤ want := by
  unfold attempt at h
  split at h <;> cases h <;> simp only [Attempt.bytes, List.length_take, List.length_nil] <;> omega

theorem suffix_of_attempt (h : r.attempt want = (answer, r')) : r'.pieces <:+ r.pieces := by
  unfold attempt at h
  split at h <;> cases h <;> simp_all

/-- Interruptions come to an end. -/
theorem length_pieces_of_interrupted (h : r.attempt want = (.interrupted, r')) :
    r'.pieces.length < r.pieces.length := by
  unfold attempt at h
  split at h <;> cases h
  simp_all

theorem take_zero (r : Reader) : r.take 0 = .ok ([], r) := by
  obtain ⟨pieces, rest, hl⟩ := r
  cases pieces <;> simp [take, readFull]

theorem take_append_take_drop {α : Type} (rest : List α) {m want : Nat} (h : m ≤ want) :
    rest.take m ++ (rest.drop m).take (want - (rest.take m).length) = rest.take want := by
  rw [List.length_take]
  cases Nat.le_total m rest.length with
  | inl hm => rw [Nat.min_eq_left hm, ← List.take_add, Nat.add_sub_cancel' h]
  | inr hm =>
    rw [List.drop_of_length_le hm, List.take_nil, List.append_nil, List.take_of_length_le hm,
      List.take_of_length_le (Nat.le_trans hm h)]

theorem drop_drop_length_take {α : Type} (rest : List α) {m want : Nat} (h : m ≤ want) :
    (rest.drop m).drop (want - (rest.take m).length) = rest.drop want := by
  rw [List.length_take, List.drop_drop]
  cases Nat.le_total m rest.length with
  | inl hm => rw [Nat.min_eq_left hm, Nat.add_sub_cancel' h]
  | inr hm => rw [List.drop_of_length_le (by omega), List.drop_of_length_le (by omega)]

/-- Reading in full is to attempt until there is nothing left to ask for or nothing comes. -/
theorem take_eq (r : Reader) (h : 0 < want) : r.take want =
    match r.attempt want with
    | (.got bytes, r') =>
      if bytes = [] then .ok ([], r')
      else (r'.take (want - bytes.length)).map (Prod.map (bytes ++ ·) id)
    | (.interrupted, r') => r'.take want
    | (.broken cause, _) => .error cause := by
  obtain ⟨pieces, rest, hl⟩ := r
  have hw : want ≠ 0 := Nat.ne_of_gt h
  cases pieces with
  | nil =>
    simp only [take, attempt, readFull, Except.map, Prod.map, id]
    split
    · rename_i hg
      rw [hg]
    · simp only [take_append_take_drop rest (Nat.le_refl want),
        drop_drop_length_take rest (Nat.le_refl want)]
  | cons piece pieces =>
    cases piece with
    | upTo count =>
      simp only [take, attempt, readFull, if_neg hw]
      split
      · rename_i hg
        have hd := List.take_append_drop (min count want) rest
        rw [hg, List.nil_append] at hd
        simp only [hd]
      · split <;> rename_i hm <;> rw [hm] <;> rfl
    | interrupted => simp [take, attempt, readFull, hw]
    | broken cause => simp [take, attempt, readFull, hw]

/-- How far the attempts to read `want` bytes can come: the bytes that have been read, and the reader
behind them. -/
inductive Reads (r : Reader) (want : Nat) : List UInt8 → Reader → Prop
  | start : Reads r want [] r
  | got {done bytes : List UInt8} {q q' : Reader} : Reads r want done q → done.length < want →
      q.attempt (want - done.length) = (.got bytes, q') → bytes ≠ [] →
      Reads r want (done ++ bytes) q'
  | interrupted {done : List UInt8} {q q' : Reader} : Reads r want done q → done.length < want →
      q.attempt (want - done.length) = (.interrupted, q') → Reads r want done q'

namespace Reads
variable {done : List UInt8} {q : Reader}

theorem append (h : r.Reads want done q) : done ++ q.rest = r.rest := by
  induction h with
  | start => rfl
  | got _ _ ha _ ih => rw [List.append_assoc, ← ih, ← append_of_attempt ha]; rfl
  | interrupted _ _ ha ih => rw [← ih, ← append_of_attempt ha]; rfl

theorem length_le (h : r.Reads want done q) : done.length ≤ want := by
  induction h with
  | start => exact Nat.zero_le want
  | got _ hlt ha _ ih =>
    have := length_bytes_of_attempt ha
    simp only [Attempt.bytes] at this
    rw [List.length_append]
    omega
  | interrupted _ _ _ ih => exact ih

theorem take (h : r.Reads want done q) :
    r.take want = (q.take (want - done.length)).map (Prod.map (done ++ ·) id) := by
  induction h with
  | start =>
    rw [List.length_nil, Nat.sub_zero]
    cases r.take want <;> rfl
  | got _ hlt ha hb ih =>
    rw [ih, take_eq _ (Nat.sub_pos_of_lt hlt), ha, List.length_append, ← Nat.sub_sub]
    simp only [if_neg hb]
    cases Reader.take _ _ <;> simp [Except.map, Prod.map]
  | interrupted _ hlt ha ih => rw [ih, take_eq _ (Nat.sub_pos_of_lt hlt), ha]

end Reads

/-- Where the attempts to read `want` bytes end: all have been read, nothing comes or one breaks. -/
inductive Ends (want : Nat) (done : List UInt8) (q : Reader) : Prop
  | full (h : done.length = want)
  | empty {q' : Reader} (h : done.length < want)
      (ha : q.attempt (want - done.length) = (.got [], q'))
  | broken {cause : String} {q' : Reader} (h : done.length < want)
      (ha : q.attempt (want - done.length) = (.broken cause, q'))

/-- The attempts come to an end, as each one but the last gets some of the bytes or is one of finitely
many interruptions. -/
theorem exists_reads (r : Reader) (want : Nat) :
    ∃ done q, r.Reads want done q ∧ Ends want done q := by
  -- An attempt gets some of the bytes or uses up an interruption, so that less of both is left.
  suffices h : ∀ n done q, q.pieces.length + q.rest.length = n → r.Reads want done q →
      ∃ done q, r.Reads want done q ∧ Ends want done q from h _ [] r rfl .start
  intro n
  induction n using Nat.strongRecOn with
  | ind n ih =>
    intro done q hn h
    by_cases hd : done.length = want
    · exact ⟨done, q, h, .full hd⟩
    have hlt := Nat.lt_of_le_of_ne h.length_le hd
    cases ha : q.attempt (want - done.length) with
    | mk answer q' =>
      have happ := append_of_attempt ha
      cases answer with
      | broken cause => exact ⟨done, q, h, .broken hlt ha⟩
      | interrupted =>
        have hrest : q'.rest = q.rest := happ
        have hpieces := length_pieces_of_interrupted ha
        exact ih _ (by rw [hrest]; omega) done q' rfl (h.interrupted hlt ha)
      | got bytes =>
        by_cases hb : bytes = []
        · exact ⟨done, q, h, .empty hlt (hb ▸ ha)⟩
        · have hpos := List.length_pos_iff.mpr hb
          have hpieces := (suffix_of_attempt ha).length_le
          have hlen : q.rest.length = bytes.length + q'.rest.length := by
            rw [← happ, List.length_append, Attempt.bytes]
          exact ih _ (by omega) (done ++ bytes) q' rfl (h.got hlt ha hb)

/-- A property that stays true of a reader whatever is asked of it, and that keeps it delivering: no
attempt breaks, and none comes back empty but at the end. -/
structure Delivering (P : Reader → Prop) : Prop where
  attempt : ∀ {r want}, P r → 0 < want → P (r.attempt want).2
  unbroken : ∀ {r want}, P r → 0 < want → ∀ cause, (r.attempt want).1 ≠ .broken cause
  empty : ∀ {r want}, P r → 0 < want → (r.attempt want).1 = .got [] → r.rest = []

namespace Delivering
variable {P : Reader → Prop}

theorem of_attempt (hP : Delivering P) (hr : P r) (h0 : 0 < want)
    (h : r.attempt want = (answer, r')) : P r' := by
  have := hP.attempt hr h0
  rwa [h] at this

theorem of_reads (hP : Delivering P) (hr : P r) {done : List UInt8} (h : r.Reads want done r') :
    P r' := by
  induction h with
  | start => exact hr
  | got _ hlt ha _ ih => exact hP.of_attempt ih (Nat.sub_pos_of_lt hlt) ha
  | interrupted _ hlt ha ih => exact hP.of_attempt ih (Nat.sub_pos_of_lt hlt) ha

theorem take (hP : Delivering P) (hr : P r) (want : Nat) :
    ∃ r', r.take want = .ok (r.rest.take want, r') ∧ r'.rest = r.rest.drop want ∧ P r' := by
  obtain ⟨done, q, h, hend⟩ := r.exists_reads want
  have hq := hP.of_reads hr h
  have happ := h.append
  cases hend with
  | full hd =>
    refine ⟨q, ?_, ?_, hq⟩
    · rw [h.take, hd, Nat.sub_self, take_zero, ← happ, List.take_left' hd]
      simp [Except.map]
    · rw [← happ, List.drop_left' hd]
  | @empty q' hlt ha =>
    have h0 := Nat.sub_pos_of_lt hlt
    have hnil := hP.empty hq h0 (congrArg Prod.fst ha)
    have hq' : q'.rest = [] := (append_of_attempt ha).trans hnil
    rw [hnil, List.append_nil] at happ
    refine ⟨q', ?_, ?_, hP.of_attempt hq h0 ha⟩
    · rw [h.take, take_eq q h0, ha, ← happ, List.take_of_length_le (Nat.le_of_lt hlt)]
      simp [Except.map]
    · rw [hq', ← happ, List.drop_of_length_le (Nat.le_of_lt hlt)]
  | broken hlt ha =>
    exact absurd (congrArg Prod.fst ha) (hP.unbroken hq (Nat.sub_pos_of_lt hlt) _)

theorem fill (hP : Delivering P) (hr : P r) (buffer : Scratch UInt8) :
    ∃ r', r.fill buffer =
        .ok (min buffer.size r.rest.length, buffer.put (r.rest.take buffer.size), r') ∧
      r'.rest = r.rest.drop buffer.size ∧ P r' := by
  obtain ⟨r', ht, hr'⟩ := hP.take hr buffer.size
  exact ⟨r', by simp [Reader.fill, ht], hr'⟩

end Delivering

def after (r : Reader) : List Nat → Reader
  | [] => r
  | want :: wants => (r.attempt want).2.after wants

/-- Whatever is asked of the reader, no attempt breaks, and none comes back empty but at the end. -/
def Delivers (r : Reader) : Prop :=
  ∀ wants : List Nat, (∀ want ∈ wants, 0 < want) → ∀ want, 0 < want →
    (∀ cause, ((r.after wants).attempt want).1 ≠ .broken cause) ∧
    (((r.after wants).attempt want).1 = .got [] → (r.after wants).rest = [])

theorem delivering_delivers : Delivering Delivers where
  attempt h h0 wants hw := h (_ :: wants) (List.forall_mem_cons.mpr ⟨h0, hw⟩)
  unbroken h h0 := (h [] (by simp) _ h0).1
  empty h h0 := (h [] (by simp) _ h0).2

theorem Delivering.delivers {P : Reader → Prop} (hP : Delivering P) (hr : P r) : r.Delivers := by
  intro wants
  induction wants generalizing r with
  | nil => exact fun _ want h0 => ⟨hP.unbroken hr h0, hP.empty hr h0⟩
  | cons first wants ih =>
    intro hw
    obtain ⟨h0, hw⟩ := List.forall_mem_cons.mp hw
    exact ih (hP.attempt hr h0) hw

def Steady (r : Reader) : Prop := ∀ piece ∈ r.pieces, piece.Steady

theorem delivering_steady : Delivering Steady where
  attempt h _ piece hp := h piece ((suffix_of_attempt rfl).subset hp)
  unbroken h _ cause hc := by
    unfold Reader.attempt at hc
    split at hc <;> simp_all [Steady, Piece.Steady]
  empty h h0 hg := by
    unfold Reader.attempt at hg
    split at hg <;> simp_all [Steady, Piece.Steady, Nat.pos_iff_ne_zero]

theorem fill_of_steady (h : r.Steady) (buffer : Scratch UInt8) :
    ∃ r', r.fill buffer =
        .ok (min buffer.size r.rest.length, buffer.put (r.rest.take buffer.size), r') ∧
      r'.rest = r.rest.drop buffer.size ∧ r'.Steady :=
  delivering_steady.fill h buffer

end Reader

theorem Writer.put_of_room_eq_none {w : Writer} (h : w.room = none) (bytes : List UInt8) :
    w.put bytes = (true, { w with written := w.written ++ bytes }) := by
  simp [put, h]

end RawPcm
