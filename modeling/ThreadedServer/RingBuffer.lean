import Mathlib.Data.List.DropRight
import Mathlib.Data.List.Rotate

/-!
# Ring buffers that keep the last values

A ring of `n` cells takes values one after another: first it fills up from cell
zero, then each value replaces the oldest one.  Read from the oldest cell on, it
holds the last `n` values, or all of them while there are fewer.
-/

namespace RingBuffer

variable {β : Type*} {n count oldest : Nat} {cells xs : List β}

/-- The first `count` cells of the ring hold `xs`, which begins at cell `oldest`
and goes round. -/
structure Holds (n : Nat) (cells : List β) (count oldest : Nat) (xs : List β) : Prop where
  length : cells.length = n
  count_le : count ≤ n
  oldest_lt : oldest < n
  filling : count < n → oldest = 0
  view : (cells.take count).drop oldest ++ (cells.take count).take oldest = xs

theorem Holds.empty (h : 0 < n) (hl : cells.length = n) : Holds n cells 0 0 [] :=
  ⟨hl, Nat.zero_le n, h, fun _ => rfl, by simp⟩

/-- The filled cells are the values in some order. -/
theorem Holds.perm (h : Holds n cells count oldest xs) : (cells.take count).Perm xs := by
  rw [← h.view]
  refine List.Perm.trans ?_ List.perm_append_comm
  rw [List.take_append_drop]

theorem Holds.length_eq (h : Holds n cells count oldest xs) : xs.length = count := by
  have hc := h.count_le
  have hl := h.length
  rw [← h.perm.length_eq, List.length_take]
  omega

theorem take_set_succ {i : Nat} (x : β) (h : i < cells.length) :
    (cells.set i x).take (i + 1) = cells.take i ++ [x] := by
  have hi : i < (cells.set i x).length := by simpa using h
  rw [List.take_succ_eq_append_getElem hi, List.take_set_of_le (Nat.le_refl i)]
  simp

/-- A value for a ring that is not full goes into the next cell. -/
theorem Holds.fill (h : Holds n cells count oldest xs) (hc : count < n) (x : β) :
    Holds n (cells.set count x) (count + 1) oldest (xs ++ [x]) := by
  obtain rfl := h.filling hc
  have hview : cells.take count = xs := by simpa using h.view
  refine ⟨by simpa using h.length, hc, h.oldest_lt, fun _ => rfl, ?_⟩
  rw [take_set_succ x (by rw [h.length]; exact hc), hview]
  simp

/-- A value for a full ring replaces the oldest one. -/
theorem Holds.overwrite (h : Holds n cells n oldest xs) (x : β) :
    Holds n (cells.set oldest x) n ((oldest + 1) % n) (xs.tail ++ [x]) := by
  have hlt := h.oldest_lt
  have hview : cells.drop oldest ++ cells.take oldest = xs := by
    have := h.view
    rwa [List.take_of_length_le (Nat.le_of_eq h.length)] at this
  have hoc : oldest < cells.length := by rw [h.length]; exact hlt
  have htail : xs.tail ++ [x] =
      (cells.set oldest x).drop (oldest + 1) ++ (cells.set oldest x).take (oldest + 1) := by
    rw [take_set_succ x hoc, List.drop_set_of_lt (Nat.lt_succ_self oldest), ← hview,
      List.drop_eq_getElem_cons hoc, List.cons_append, List.tail_cons, List.append_assoc]
  refine ⟨by simpa using h.length, Nat.le_refl n, Nat.mod_lt _ (by omega),
    fun hno => absurd hno (Nat.lt_irrefl n), ?_⟩
  have hlen : (cells.set oldest x).length = n := by simpa using h.length
  rw [htail, List.take_of_length_le (Nat.le_of_eq hlen)]
  by_cases hlast : oldest + 1 = n
  · rw [hlast, Nat.mod_self, List.drop_of_length_le (Nat.le_of_eq hlen),
      List.take_of_length_le (Nat.le_of_eq hlen)]
    simp
  · rw [Nat.mod_eq_of_lt (by omega)]

/-- In a full ring the oldest cell holds the first value. -/
theorem Holds.eq_cons (h : Holds n cells n oldest xs) (z : β) :
    xs = cells.getD oldest z :: xs.tail := by
  have hlt : oldest < cells.length := by
    rw [h.length]
    exact h.oldest_lt
  have hview := h.view
  rw [List.take_of_length_le (Nat.le_of_eq h.length), List.drop_eq_getElem_cons hlt,
    List.cons_append] at hview
  rw [← hview, List.tail_cons]
  simp [hlt]

/-- The cells of a full ring are the values, turned to the place of the oldest one. -/
theorem Holds.cells_eq (h : Holds n cells n oldest xs) : cells = xs.rotate (n - oldest) := by
  have hle : oldest ≤ n := Nat.le_of_lt h.oldest_lt
  have hview : cells.rotate oldest = xs := by
    have hall := h.view
    rw [List.take_of_length_le (Nat.le_of_eq h.length)] at hall
    rw [List.rotate_eq_drop_append_take (by rw [h.length]; exact hle), hall]
  have hround : oldest + (n - oldest) = cells.length := by
    rw [h.length]
    omega
  rw [← hview, List.rotate_rotate, hround, List.rotate_length]

/-! ## The last values of a sequence -/

theorem rtake_concat_of_lt {l : List β} (h : l.length < n) (x : β) :
    (l ++ [x]).rtake n = l.rtake n ++ [x] := by
  rw [List.rtake, List.rtake, Nat.sub_eq_zero_of_le (by simp; omega),
    Nat.sub_eq_zero_of_le (Nat.le_of_lt h)]
  rfl

theorem rtake_concat_of_le {l : List β} (hn : 0 < n) (h : n ≤ l.length) (x : β) :
    (l ++ [x]).rtake n = (l.rtake n).tail ++ [x] := by
  obtain ⟨k, rfl⟩ : ∃ k, n = k + 1 := ⟨n - 1, by omega⟩
  rw [List.rtake_concat_succ, List.rtake, List.rtake, List.tail_drop]
  congr 2
  omega

theorem length_rtake (l : List β) : (l.rtake n).length = min n l.length := by
  rw [List.rtake, List.length_drop]
  omega

/-- What follows `n` values makes the earlier ones forgotten. -/
theorem rtake_append_of_le {l m : List β} (h : n ≤ m.length) :
    (l ++ m).rtake n = m.rtake n := by
  rw [List.rtake, List.rtake, List.length_append]
  have hlen : l.length + m.length - n = l.length + (m.length - n) := by omega
  rw [hlen, List.drop_append]
  simp

theorem rtake_of_length_le {l : List β} (h : l.length ≤ n) : l.rtake n = l := by
  rw [List.rtake, Nat.sub_eq_zero_of_le h]
  rfl

end RingBuffer
