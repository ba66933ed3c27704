import RawPcm.Fault
import RawPcm.File.Scratch

/-! Bytes that come in pieces, none of which is lost, and bytes that go where room may be short. -/
namespace RawPcm

/-- What one attempt at reading meets with. -/
inductive Piece where
  | upTo (count : Nat)
  | interrupted
  | broken (cause : String)
deriving DecidableEq

/-- Bytes still to come and the attempts that are limited. Later ones get all they ask for. -/
structure Reader where
  pieces : List Piece
  rest : List UInt8
  /-- Bytes are counted in 64 bits. -/
  length_lt : rest.length < sizeLimit := by decide
deriving DecidableEq

namespace Reader

theorem length_drop_lt {rest : List UInt8} (h : rest.length < sizeLimit) (count : Nat) :
    (rest.drop count).length < sizeLimit := by
  rw [List.length_drop]
  exact Nat.lt_of_le_of_lt (Nat.sub_le ..) h

/-- Attempts to read until `want` bytes have come, or none do. -/
def readFull : (pieces : List Piece) → (rest : List UInt8) → rest.length < sizeLimit →
    (want : Nat) → Except String (List UInt8 × Reader)
  | [], rest, h, want => .ok (rest.take want, ⟨[], rest.drop want, length_drop_lt h want⟩)
  | piece :: pieces, rest, h, want =>
    if want = 0 then .ok ([], ⟨piece :: pieces, rest, h⟩)
    else match piece with
      | .interrupted => readFull pieces rest h want
      | .broken cause => .error cause
      | .upTo count =>
        let got := rest.take (min count want)
        if got = [] then .ok ([], ⟨pieces, rest, h⟩)
        else match readFull pieces _ (length_drop_lt h (min count want)) (want - got.length) with
          | .error e => .error e
          | .ok (more, r) => .ok (got ++ more, r)

def take (r : Reader) (want : Nat) : Except String (List UInt8 × Reader) :=
  readFull r.pieces r.rest r.length_lt want

theorem append_of_readFull {pieces : List Piece} {rest got : List UInt8}
    {hl : rest.length < sizeLimit} {want : Nat} {r : Reader}
    (h : readFull pieces rest hl want = .ok (got, r)) : got ++ r.rest = rest := by
  induction pieces generalizing rest want got r with
  | nil =>
    simp only [readFull, Except.ok.injEq, Prod.mk.injEq] at h
    obtain ⟨rfl, rfl⟩ := h
    exact List.take_append_drop want rest
  | cons piece pieces ih =>
    unfold readFull at h
    split at h
    · simp only [Except.ok.injEq, Prod.mk.injEq] at h
      obtain ⟨rfl, rfl⟩ := h
      rfl
    · cases piece with
      | interrupted => exact ih h
      | broken cause => simp at h
      | upTo count =>
        simp only at h
        split at h
        · simp only [Except.ok.injEq, Prod.mk.injEq] at h
          obtain ⟨rfl, rfl⟩ := h
          rfl
        · split at h
          · simp at h
          · rename_i more r' hm
            simp only [Except.ok.injEq, Prod.mk.injEq] at h
            obtain ⟨rfl, rfl⟩ := h
            rw [List.append_assoc, ih hm, List.take_append_drop]

theorem append_of_take {r r' : Reader} {want : Nat} {got : List UInt8}
    (h : r.take want = .ok (got, r')) : got ++ r'.rest = r.rest :=
  append_of_readFull h

/-- Puts bytes into a buffer until it is full or none come, and tells how many have been put. -/
def fill (r : Reader) (buffer : Scratch UInt8) : Except String (Nat × Scratch UInt8 × Reader) :=
  match r.take buffer.size with
  | .error e => .error e
  | .ok (got, r) => .ok (got.length, buffer.put got, r)

theorem length_rest_of_fill {r r' : Reader} {buffer buffer' : Scratch UInt8} {filled : Nat}
    (h : r.fill buffer = .ok (filled, buffer', r')) :
    filled + r'.rest.length = r.rest.length := by
  unfold fill at h
  split at h
  · simp at h
  · rename_i got r₁ ht
    simp only [Except.ok.injEq, Prod.mk.injEq] at h
    obtain ⟨rfl, rfl, rfl⟩ := h
    rw [← append_of_take ht, List.length_append]

end Reader

structure Writer where
  written : List UInt8
  room : Option Nat
  refusal : String
deriving DecidableEq

namespace Writer

def unlimited : Writer := ⟨[], none, ""⟩

def put (w : Writer) (bytes : List UInt8) : Bool × Writer :=
  match w.room with
  | none => (true, { w with written := w.written ++ bytes })
  | some room =>
    (decide (bytes.length ≤ room),
      { w with written := w.written ++ bytes.take room, room := some (room - bytes.length) })

end Writer
end RawPcm
