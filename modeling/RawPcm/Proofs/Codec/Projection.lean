import RawPcm.Proofs.Sample.Projection
import RawPcm.Proofs.Codec.Lossless

/-! Samples that are written, read and written again. But for some integers of 64 bits the bytes
stay. -/
namespace RawPcm.Format
open Sample
variable {s u : Signedness} {w : Width} {o : ByteOrder} {n : WordSize} {p r : Precision}
  {t : SampleType}

/-- Double precision puts the integer beyond the end, above all that comes back from there. -/
def TopsOut : Format → {t : SampleType} → Sample t → Prop
  | floating .double _, .integer s _, x => 2 ^ 63 - 1536 < s.amplitude x
  | _, _, _ => False

/-- Double precision has no digit for the half that rounding adds to the integer on the way back. -/
def CarriesTooFar : Format → {t : SampleType} → Sample t → Prop
  | floating .double _, .integer s _, x => Overshoots (s.amplitude x)
  | _, _, _ => False

theorem encode_decode_encode_integer (x : Sample (.integer u n)) :
    (integer s w o).encode ((integer s w o).decode (.integer u n) ((integer s w o).encode x)) =
      (integer s w o).encode x := by
  have hl : ((integer s w o).encode x).length = w.bytes := length_encode ..
  have he : ((integer s w o).encode ((integer s w o).decode (.integer u n)
      ((integer s w o).encode x))).length = w.bytes := length_encode ..
  apply centred_injective (s := s) (o := o) he hl
  rw [centred_encode, amplitude_decode hl, centred_encode]
  rcases Nat.le_total w.bits n.bits with h | h
  · rw [scaled_scaled (by omega), scaled_self]
  · rw [scaled_scaled (m := n.bits) (by omega), scaled_self]

/-- Integers wider than the precision fill the value that holds them. -/
theorem encode_decode_encode_wide (h : p.digits < w.bits) (x : Sample (.floating p)) :
    (integer s w o).encode ((integer s w o).decode (.floating p) ((integer s w o).encode x)) =
      (integer s w o).encode x := by
  have hs : (integer s w o).stage = (integer s w o).size := by
    cases w with
    | w24 => exact absurd h (by cases p <;> decide)
    | _ => cases s <;> cases o <;> rfl
  rw [decode_eq, encode_eq, encode_eq, staged_unstaged hs]
  congr 1
  cases w with
  | w8 => exact absurd h (by cases p <;> decide)
  | w16 => exact absurd h (by cases p <;> decide)
  | w24 => exact absurd h (by cases p <;> decide)
  | w32 => exact quantize_dequantize_quantize (n := .w32) h x
  | w64 => exact quantize_dequantize_quantize (n := .w64) h x

theorem encode_decode_encode_quantized (x : Sample (.floating p)) :
    (integer s w o).encode ((integer s w o).decode (.floating p) ((integer s w o).encode x)) =
      (integer s w o).encode x := by
  rcases Nat.lt_or_ge p.digits w.bits with h | h
  · exact encode_decode_encode_wide h x
  · exact encode_decode_floating (f := integer s w o) h (length_encode ..) rfl

theorem dequantize_quantize_dequantize (x : Sample (.integer s n)) (o : ByteOrder)
    (htop : ¬ (floating p o).TopsOut x) (hfar : ¬ (floating p o).CarriesTooFar x) :
    ((x.dequantize p).quantize s n).dequantize p = x.dequantize p := by
  rcases Nat.lt_or_ge p.digits n.bits with h | h
  · cases p with
    | single => exact dequantize_quantize_dequantize_single h x
    | double =>
      cases n with
      | w64 => exact dequantize_quantize_dequantize_double (not_lt.mp htop) hfar
      | _ => exact absurd h (by decide)
  · rw [quantize_dequantize h]

theorem convert_convert_floating {x : Sample (.floating r)} (hx : (r.datum x).isNaN = false) :
    convert (s := .floating r) (.floating p)
        (convert (s := .floating p) (.floating r) (convert (s := .floating r) (.floating p) x)) =
      convert (s := .floating r) (.floating p) x := by
  rcases Nat.le_total p.digits r.digits with h | h
  · exact Precision.cast_cast h (Precision.isNaN_cast p (Precision.isNaN_cast .double hx))
  · have hcast : convert (s := .floating p) (.floating r)
        (convert (s := .floating r) (.floating p) x) = x := Precision.cast_cast h hx
    rw [hcast]

theorem encode_decode_encode {f : Format} {x : Sample t} (hn : Sample.isNaN x = false)
    (htop : ¬ f.TopsOut x) (hfar : ¬ f.CarriesTooFar x) :
    f.encode (f.decode t (f.encode x)) = f.encode x := by
  cases f with
  | integer s w o =>
    cases t with
    | integer u n => exact encode_decode_encode_integer x
    | floating p => exact encode_decode_encode_quantized x
  | floating p o =>
    rw [decode_encode_floating, encode_eq, encode_eq]
    congr 1
    cases t with
    | integer u n => exact dequantize_quantize_dequantize x o htop hfar
    | floating r => exact convert_convert_floating hn

theorem encode_double (o : ByteOrder) (x : Sample t) : (floating .double o).encode x =
    o.store 8 (convert (.floating .double) x : Sample .f64).toNat := by
  have hs : (floating .double o).stage = 8 ∧ (floating .double o).size = 8 := by
    cases o <;> exact ⟨rfl, rfl⟩
  apply ByteOrder.load_injective o
  · rw [length_encode, hs.2, ByteOrder.length_store]
  · have hl := load_unstaged (floating .double o) (convert (.floating .double) x)
    rw [hs.1, hs.2, Nat.sub_self, Nat.mul_zero, Nat.pow_zero, Nat.div_one] at hl
    rw [ByteOrder.load_store, encode_eq]
    exact hl.trans (Nat.mod_eq_of_lt (BitVec.isLt _)).symm

theorem encode_of_gt {x : Sample (.integer s .w64)} (h : 2 ^ 63 - 1536 < s.amplitude x) :
    (floating .double o).encode x =
      o.store 8 (if s.amplitude x < 2 ^ 63 - 512 then 0x3fefffffffffffff else 0x3ff0000000000000) := by
  have hx := encode_double o x
  rw [convert, dequantize_of_gt h] at hx
  split at hx
  case isTrue hlt => rw [if_pos hlt, hx]; rfl
  case isFalse hge => rw [if_neg hge, hx]; rfl

theorem encode_of_eq_end {x : Sample (.integer s .w64)} (h : s.amplitude x = 2 ^ 63 - 2 ^ 11) :
    (floating .double o).encode x = o.store 8 0x3feffffffffffffe := by
  rw [encode_double, convert, dequantize_of_eq_end h]
  rfl

theorem decode_encode_of_gt {x y : Sample (.integer s .w64)} (h : 2 ^ 63 - 1536 < s.amplitude x)
    (hy : (floating .double o).decode _ ((floating .double o).encode x) = y) :
    s.amplitude y = 2 ^ 63 - 2 ^ 11 ∧
      (floating .double o).decode (.integer s .w64) ((floating .double o).encode y) = y := by
  rw [decode_encode_floating] at hy
  subst hy
  rw [decode_encode_floating]
  exact ⟨amplitude_quantize_dequantize_of_gt h,
    quantize_dequantize_quantize (n := .w64) (by decide) _⟩

theorem write_encode_append {f : Format} (x : Sample t) (rest : List UInt8) (y : Sample t) :
    f.write (f.encode x ++ rest) y = (.ok (), f.encode y ++ rest) := by
  have hl := f.length_encode x
  rw [write_of_le f (by rw [List.length_append]; omega), List.drop_left' hl]

/-- The bytes stay as they are. In double precision integers next to full scale are written as one or as
the number below it, and the second time as the end. -/
theorem write_read_write :
    (∀ (f : Format) {t : SampleType} (x : Sample t) (bytes : List UInt8), f.size ≤ bytes.length →
      Sample.isNaN x = false → ¬ f.CarriesTooFar x → ¬ f.TopsOut x →
      ∃ out y, f.write bytes x = (.ok (), out) ∧ f.read t out = .ok y ∧
        f.write out y = (.ok (), out)) ∧
    ∀ (o : ByteOrder) (s : Signedness) (x : Sample (.integer s .w64)) (bytes : List UInt8),
      8 ≤ bytes.length → 2 ^ 63 - 1536 < s.amplitude x →
      ∃ out y out', s.amplitude y = 2 ^ 63 - 2048 ∧
        out = o.store 8 (if s.amplitude x < 2 ^ 63 - 512 then 0x3fefffffffffffff
          else 0x3ff0000000000000) ++ bytes.drop 8 ∧
        out' = o.store 8 0x3feffffffffffffe ++ bytes.drop 8 ∧
        (floating .double o).write bytes x = (.ok (), out) ∧
        (floating .double o).read (.integer s .w64) out = .ok y ∧
        (floating .double o).write out y = (.ok (), out') ∧
        (floating .double o).read (.integer s .w64) out' = .ok y := by
  constructor
  · intro f t x bytes hb hn hfar htop
    refine ⟨f.encode x ++ bytes.drop f.size, f.decode t (f.encode x), write_of_le f hb x,
      read_encode_append .., ?_⟩
    rw [write_encode_append, encode_decode_encode hn htop hfar]
  · intro o s x bytes hb hx
    have hout := encode_of_gt (o := o) hx
    obtain ⟨hy, hstay⟩ := decode_encode_of_gt (o := o) hx rfl
    have hout' := encode_of_eq_end (o := o) hy
    refine ⟨_, (floating .double o).decode _ ((floating .double o).encode x), _, hy, rfl, rfl, ?_⟩
    rw [← hout, ← hout', write_encode_append, read_encode_append, read_encode_append, hstay]
    exact ⟨write_of_le (floating .double o) hb x, rfl, rfl, rfl⟩

/-- Above 2 ^ 53 an integer may be rounded, and comes back as it was rounded. The least one that is not
left alone is written as the number below one. -/
theorem write_read_write_rounded :
    ((floating .double .big).size ≤ (List.replicate 9 (7 : UInt8)).length ∧
      Sample.isNaN (t := .i64) 0x20000000000001#64 = false ∧
      ¬ (floating .double .big).CarriesTooFar (t := .i64) 0x20000000000001#64 ∧
      ¬ (floating .double .big).TopsOut (t := .i64) 0x20000000000001#64 ∧
      ∃ out y, (floating .double .big).write (t := .i64) (List.replicate 9 7) 0x20000000000001#64 =
          (.ok (), out) ∧
        (floating .double .big).read .i64 out = .ok y ∧
        (floating .double .big).write (t := .i64) out y = (.ok (), out)) ∧
    8 ≤ (List.replicate 9 (7 : UInt8)).length ∧
      2 ^ 63 - 1536 < Signedness.signed.amplitude 0x7ffffffffffffa01#64 ∧
      ∃ y, Signedness.signed.amplitude y = 2 ^ 63 - 2048 ∧
        (floating .double .big).write (t := .i64) (List.replicate 9 7) 0x7ffffffffffffa01#64 =
          (.ok (), [0x3f, 0xef, 0xff, 0xff, 0xff, 0xff, 0xff, 0xff, 7]) ∧
        (floating .double .big).read .i64 [0x3f, 0xef, 0xff, 0xff, 0xff, 0xff, 0xff, 0xff, 7] =
          .ok y := by
  have hb : (floating .double .big).size ≤ (List.replicate 9 (7 : UInt8)).length := by decide
  have hfar : ¬ (floating .double .big).CarriesTooFar (t := .i64) 0x20000000000001#64 := by
    change ¬ Overshoots (Signedness.signed.amplitude 0x20000000000001#64)
    rw [overshoots_intCast]
    decide
  have htop : ¬ (floating .double .big).TopsOut (t := .i64) 0x20000000000001#64 := by
    change ¬ 2 ^ 63 - 1536 < Signedness.signed.amplitude 0x20000000000001#64
    decide
  have hx : 2 ^ 63 - 1536 < Signedness.signed.amplitude 0x7ffffffffffffa01#64 := by decide
  refine ⟨⟨hb, rfl, hfar, htop, write_read_write.1 _ _ _ hb rfl hfar htop⟩, hb, hx, ?_⟩
  obtain ⟨out, y, -, hy, rfl, -, hw, hr, -⟩ := write_read_write.2 .big .signed _ _ hb hx
  exact ⟨y, hy, hw, hr⟩

theorem write_read_write_greatest :
    (floating .double .big).write (t := .i64) (List.replicate 8 0) 0x7fffffffffffffff#64 =
        (.ok (), [0x3f, 0xf0, 0, 0, 0, 0, 0, 0]) ∧
      (floating .double .big).read .i64 [0x3f, 0xf0, 0, 0, 0, 0, 0, 0] =
        .ok 0x7ffffffffffff800#64 ∧
      (floating .double .big).write (t := .i64) [0x3f, 0xf0, 0, 0, 0, 0, 0, 0]
          0x7ffffffffffff800#64 = (.ok (), [0x3f, 0xef, 0xff, 0xff, 0xff, 0xff, 0xff, 0xfe]) := by
  decide +kernel

end RawPcm.Format
