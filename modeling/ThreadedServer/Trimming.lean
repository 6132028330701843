import Mathlib.Data.List.DropRight

/-!
# Trimming

A word of any alphabet is trimmed by removing the blanks from its back and then from its
front.  Programs do so with the positions of the last and of the first letter that is
no blank; here this is compared with the two `dropWhile`s, from which the facts that
parsers need follow: blanks around a word do not matter, and a letter that is no blank
separates what is trimmed on its left from what is trimmed on its right.
-/

namespace Trimming

variable {α : Type*}

/-- The letters between the blanks at the front and those at the back. -/
def trim (p : α → Bool) (s : List α) : List α := (s.rdropWhile p).dropWhile p

/-- There are no blanks at the ends. -/
def Tight (p : α → Bool) (s : List α) : Prop :=
  (∀ c ∈ s.head?, p c = false) ∧ ∀ c ∈ s.getLast?, p c = false

instance (p : α → Bool) (s : List α) : Decidable (Tight p s) :=
  inferInstanceAs (Decidable (_ ∧ _))

section Trim

variable {p : α → Bool} {a b s : List α} {c : α}

theorem rdropWhile_append :
    (a ++ b).rdropWhile p =
      if b.rdropWhile p = [] then a.rdropWhile p else a ++ b.rdropWhile p := by
  simp only [List.rdropWhile, List.reverse_append, List.dropWhile_append, List.isEmpty_iff,
    List.reverse_eq_nil_iff]
  split
  · rfl
  · rw [List.reverse_append, List.reverse_reverse]

/-- Blanks before a word do not matter, -/
theorem trim_append_left (ha : ∀ c ∈ a, p c) : trim p (a ++ s) = trim p s := by
  have hnil : a.rdropWhile p = [] := List.rdropWhile_eq_nil_iff.mpr ha
  rw [trim, trim, rdropWhile_append]
  split
  case isTrue h => rw [hnil, h]
  case isFalse => rw [List.dropWhile_append_of_pos ha]

/-- nor do those after it. -/
theorem trim_append_right (hb : ∀ c ∈ b, p c) : trim p (s ++ b) = trim p s := by
  have hnil : b.rdropWhile p = [] := List.rdropWhile_eq_nil_iff.mpr hb
  rw [trim, trim, rdropWhile_append, if_pos hnil]

theorem Tight.trim_eq (h : Tight p s) : trim p s = s := by
  have hback : s.rdropWhile p = s := by
    rw [List.rdropWhile_eq_self_iff]
    intro hne
    simp [h.2 (s.getLast hne) (List.getLast?_eq_some_getLast hne)]
  rw [trim, hback]
  cases s with
  | nil => rfl
  | cons c s => exact List.dropWhile_cons_of_neg (by simp [h.1 c rfl])

/-- A word without blanks at its ends comes back from any padding. -/
theorem trim_padded (ha : ∀ c ∈ a, p c) (h : Tight p s) (hb : ∀ c ∈ b, p c) :
    trim p (a ++ (s ++ b)) = s := by
  rw [trim_append_left ha, trim_append_right hb, h.trim_eq]

/-- A letter that is no blank keeps the two sides apart. -/
theorem trim_append_cons (hc : p c = false) :
    trim p (a ++ c :: b) = a.dropWhile p ++ c :: b.rdropWhile p := by
  have hright : (c :: b).rdropWhile p = c :: b.rdropWhile p := by
    rw [← List.singleton_append, rdropWhile_append, List.rdropWhile_singleton]
    split
    case isTrue h => simp [hc, h]
    case isFalse => rfl
  rw [trim, rdropWhile_append, hright, if_neg (List.cons_ne_nil _ _), List.dropWhile_append]
  split
  case isTrue h => rw [List.isEmpty_iff.mp h, List.dropWhile_cons_of_neg (by simp [hc])]; rfl
  case isFalse => rfl

/-- One side may have been trimmed before. -/
theorem trim_dropWhile : trim p (s.dropWhile p) = trim p s := by
  have hfront : ∀ c ∈ s.takeWhile p, p c := fun c hc => List.mem_takeWhile_imp hc
  calc trim p (s.dropWhile p)
      = trim p (s.takeWhile p ++ s.dropWhile p) := (trim_append_left hfront).symm
    _ = trim p s := by rw [List.takeWhile_append_dropWhile]

theorem trim_rdropWhile : trim p (s.rdropWhile p) = trim p s := by
  rw [trim, List.rdropWhile_idempotent, trim]

theorem trim_eq_nil_iff : trim p s = [] ↔ ∀ c ∈ s, p c := by
  constructor
  · intro h c hc
    by_contra hblank
    obtain ⟨a, b, rfl⟩ := List.append_of_mem hc
    rw [trim_append_cons (by simpa using hblank)] at h
    simp at h
  · intro h
    rw [trim, List.rdropWhile_eq_nil_iff.mpr h]
    rfl

/-- Only blanks are removed. -/
theorem mem_trim_iff (hc : p c = false) : c ∈ trim p s ↔ c ∈ s := by
  constructor
  · intro h
    exact (List.rdropWhile_prefix p s).subset ((List.dropWhile_sublist p).subset h)
  · intro h
    obtain ⟨a, b, rfl⟩ := List.append_of_mem h
    rw [trim_append_cons hc]
    simp

end Trim

/-! ## By positions -/

section Positions

/-- With `npos` nothing is left. -/
theorem dropWhile_eq_drop (p : α → Bool) (s : List α) :
    s.dropWhile p = match s.findIdx? fun c => !p c with
      | some pos => s.drop pos
      | none => [] := by
  rw [List.dropWhile_eq_drop_findIdx_not]
  cases hpos : s.findIdx? fun c => !p c with
  | none =>
      rw [List.findIdx?_eq_none_iff_findIdx_eq.mp hpos]
      exact List.drop_length
  | some pos => rw [(List.findIdx?_eq_some_iff_findIdx_eq.mp hpos).2]

variable [DecidableEq α]

/-- `s.find_first_not_of(blanks)`; `none` is `npos`. -/
def findFirstNotOf (blanks s : List α) : Option Nat := s.findIdx? fun c => c ∉ blanks

/-- `s.find_last_not_of(blanks)` -/
def findLastNotOf (blanks s : List α) : Option Nat :=
  (s.reverse.findIdx? fun c => c ∉ blanks).map fun i => s.length - 1 - i

/-- The back is cut off behind the last letter that is no blank, and the front before
the first one. -/
def cut (blanks s : List α) : List α :=
  let s := match findLastNotOf blanks s with
    | some pos => s.take (pos + 1)
    | none => []
  match findFirstNotOf blanks s with
  | some pos => s.drop pos
  | none => s

/-- The positions cut where the blanks end. -/
theorem cut_eq (blanks s : List α) : cut blanks s = trim (fun c => c ∈ blanks) s := by
  have hback : (match findLastNotOf blanks s with
      | some pos => s.take (pos + 1)
      | none => []) = s.rdropWhile fun c => c ∈ blanks := by
    rw [findLastNotOf, List.rdropWhile, dropWhile_eq_drop]
    simp only [← decide_not]
    cases hpos : s.reverse.findIdx? fun c => decide (c ∉ blanks) with
    | none => rfl
    | some i =>
        have hlt : i < s.length := by
          have hi := (List.findIdx?_eq_some_iff_findIdx_eq.mp hpos).1
          rwa [List.length_reverse] at hi
        show s.take (s.length - 1 - i + 1) = (s.reverse.drop i).reverse
        rw [List.reverse_drop, List.reverse_reverse, List.length_reverse]
        congr 1
        omega
  rw [cut, hback, trim, dropWhile_eq_drop, findFirstNotOf]
  simp only [← decide_not]
  cases hpos : (s.rdropWhile fun c => decide (c ∈ blanks)).findIdx?
      fun c => decide (c ∉ blanks) with
  | some pos => rfl
  | none =>
      -- what is left has no last letter that is no blank
      have hall : ∀ c ∈ s.rdropWhile fun c => decide (c ∈ blanks),
          decide (c ∈ blanks) = true := by
        intro c hc
        simpa using List.findIdx?_eq_none_iff.mp hpos c hc
      show (s.rdropWhile fun c => decide (c ∈ blanks)) = []
      rw [← List.rdropWhile_idempotent]
      exact List.rdropWhile_eq_nil_iff.mpr hall

end Positions

end Trimming
