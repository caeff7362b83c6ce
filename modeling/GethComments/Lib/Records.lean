import Mathlib.Data.List.Basic

/-!
# Files of records

A file that is a sequence of records of one width, as a list of bytes, and how cutting the file
cuts the sequence.

* `take_records`, `drop_records`: cutting between two records;
* `resize`: cutting or extending a file to a given length.
-/

namespace GethComments.Records

universe u v

variable {α : Type u} {β : Type v} {enc : α → List β} {w : Nat}

section

variable (h : ∀ a, (enc a).length = w) (l : List α)
include h l

theorem length_records : (l.flatMap enc).length = l.length * w := by
  induction l with
  | nil => simp
  | cons a l ih => simp [List.flatMap_cons, h, ih, Nat.add_mul, Nat.add_comm]

theorem take_records (k : Nat) : (l.flatMap enc).take (k * w) = (l.take k).flatMap enc := by
  induction l generalizing k with
  | nil => simp
  | cons a l ih =>
    cases k with
    | zero => simp
    | succ k =>
      rw [List.flatMap_cons, List.take_succ_cons, List.flatMap_cons, ← ih k, List.take_append, h a,
        List.take_of_length_le (by rw [h a, Nat.succ_mul]; omega)]
      congr 2
      rw [Nat.succ_mul]
      omega

theorem drop_records (k : Nat) : (l.flatMap enc).drop (k * w) = (l.drop k).flatMap enc := by
  have hsplit : (l.take k).flatMap enc ++ (l.flatMap enc).drop (k * w) =
      (l.take k).flatMap enc ++ (l.drop k).flatMap enc := by
    rw [← List.flatMap_append, List.take_append_drop, ← take_records h, List.take_append_drop]
  exact List.append_cancel_left hsplit

end

/-- A file of the given length: the rest is cut off, or zeros are added. -/
def resize [Zero β] (c : List β) (size : Nat) : List β :=
  c.take size ++ List.replicate (size - c.length) 0

theorem resize_of_le [Zero β] {c : List β} {size : Nat} (h : size ≤ c.length) :
    resize c size = c.take size := by
  simp [resize, Nat.sub_eq_zero_of_le h]

theorem length_resize [Zero β] (c : List β) (size : Nat) : (resize c size).length = size := by
  simp [resize]
  omega

end GethComments.Records
