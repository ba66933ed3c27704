import RawPcm.Floating.Precision

/-! Sample formats: how one sample is laid out in bytes. The catalogue lists each at its index. -/
namespace RawPcm

inductive Signedness where
  | signed
  | unsigned
deriving DecidableEq

inductive NumberKind where
  | signedInteger
  | unsignedInteger
  | floatingPoint
deriving DecidableEq

inductive Width where
  | w8
  | w16
  | w24
  | w32
  | w64
deriving DecidableEq

inductive ByteOrder where
  | big
  | little
deriving DecidableEq

inductive Format where
  | integer (sign : Signedness) (width : Width) (order : ByteOrder)
  | floating (precision : Precision) (order : ByteOrder)
deriving DecidableEq

def Signedness.kind : Signedness → NumberKind
  | signed => .signedInteger
  | unsigned => .unsignedInteger

namespace NumberKind

def isInteger : NumberKind → Bool
  | floatingPoint => false
  | _ => true

/-- Floating point numbers count as signed. -/
def isSigned : NumberKind → Bool
  | unsignedInteger => false
  | _ => true

end NumberKind

namespace Width

@[reducible] def bits : Width → Nat
  | w8 => 8
  | w16 => 16
  | w24 => 24
  | w32 => 32
  | w64 => 64

@[reducible] def bytes : Width → Nat
  | w8 => 1
  | w16 => 2
  | w24 => 3
  | w32 => 4
  | w64 => 8

def all : List Width := [w8, w16, w24, w32, w64]

def rank : Width → Nat
  | w8 => 0
  | w16 => 1
  | w24 => 2
  | w32 => 3
  | w64 => 4

def ofBits? : Nat → Option Width
  | 8 => some w8
  | 16 => some w16
  | 24 => some w24
  | 32 => some w32
  | 64 => some w64
  | _ => none

theorem bits_eq_bytes_mul (w : Width) : w.bits = 8 * w.bytes := by cases w <;> rfl

theorem bytes_pos (w : Width) : 0 < w.bytes := by cases w <;> decide

theorem ofBits?_bits (w : Width) : ofBits? w.bits = some w := by cases w <;> rfl

theorem bits_of_ofBits? {n : Nat} {w : Width} (h : ofBits? n = some w) : w.bits = n := by
  unfold ofBits? at h
  split at h <;> simp_all <;> subst h <;> rfl

end Width

namespace ByteOrder

def rank : ByteOrder → Nat
  | big => 0
  | little => 1

end ByteOrder

def Precision.width : Precision → Width
  | .single => .w32
  | .double => .w64

namespace Format

def kind : Format → NumberKind
  | integer s _ _ => s.kind
  | floating _ _ => .floatingPoint

def width : Format → Width
  | integer _ w _ => w
  | floating p _ => p.width

def order : Format → ByteOrder
  | integer _ _ o => o
  | floating _ o => o

def size (f : Format) : Nat := f.width.bytes

def catalogue : List Format :=
  [Signedness.signed, .unsigned].flatMap (fun s =>
    Width.all.flatMap fun w => [integer s w .big, integer s w .little]) ++
  [Precision.single, .double].flatMap fun p => [floating p .big, floating p .little]

def index : Format → Nat
  | integer .signed w o => 2 * w.rank + o.rank
  | integer .unsigned w o => 10 + 2 * w.rank + o.rank
  | floating .single o => 20 + o.rank
  | floating .double o => 22 + o.rank

theorem size_pos (f : Format) : 0 < f.size := f.width.bytes_pos

theorem catalogue_index (f : Format) : catalogue[f.index]? = some f := by
  cases f with
  | integer s w o => cases s <;> cases w <;> cases o <;> rfl
  | floating p o => cases p <;> cases o <;> rfl

theorem index_lt (f : Format) : f.index < catalogue.length :=
  (List.getElem?_eq_some_iff.mp (catalogue_index f)).1

theorem mem_catalogue (f : Format) : f ∈ catalogue :=
  List.mem_of_getElem? (catalogue_index f)

end Format
end RawPcm
