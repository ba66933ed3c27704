/-! A buffer that is used again and again: behind what is put into it stands what was there. -/
namespace RawPcm

/-- A fixed number of places. Only the places in front that were ever put into are kept, all others
hold zero. -/
structure Scratch (α : Type) where
  size : Nat
  touched : List α
  length_le : touched.length ≤ size

namespace Scratch
variable {α : Type}

def blank (size : Nat) : Scratch α := ⟨size, [], Nat.zero_le size⟩

def put (s : Scratch α) (xs : List α) : Scratch α :=
  ⟨s.size, (xs ++ s.touched.drop xs.length).take s.size, List.length_take_le ..⟩

@[simp] theorem size_put (s : Scratch α) (xs : List α) : (s.put xs).size = s.size := rfl

variable [OfNat α 0]

def toList (s : Scratch α) : List α := s.touched ++ List.replicate (s.size - s.touched.length) 0

def front (s : Scratch α) (count : Nat) : List α :=
  (s.touched ++ List.replicate (min count s.size - s.touched.length) 0).take count

@[simp] theorem length_toList (s : Scratch α) : s.toList.length = s.size := by
  have := s.length_le
  simp [toList]
  omega

theorem front_eq_take (s : Scratch α) (count : Nat) : s.front count = s.toList.take count := by
  have := s.length_le
  simp only [front, toList, List.take_append, List.take_replicate]
  congr 2
  omega

@[simp] theorem length_front (s : Scratch α) (count : Nat) :
    (s.front count).length = min count s.size := by
  simp [front_eq_take]

theorem toList_put (s : Scratch α) (xs : List α) :
    (s.put xs).toList = (xs ++ s.toList.drop xs.length).take s.size := by
  have := s.length_le
  simp only [toList, put, List.drop_append, ← List.append_assoc, List.take_append,
    List.drop_replicate, List.take_replicate, List.length_append, List.length_take,
    List.length_drop]
  congr 2
  omega

theorem front_put {s : Scratch α} {xs : List α} (h : xs.length ≤ s.size) {count : Nat}
    (hc : count ≤ xs.length) : (s.put xs).front count = xs.take count := by
  rw [front_eq_take, toList_put, List.take_take, Nat.min_eq_left (by omega),
    List.take_append_of_le_length hc]

end Scratch
end RawPcm
