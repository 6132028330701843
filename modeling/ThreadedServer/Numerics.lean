import Mathlib.Algebra.Field.Defs
import Mathlib.Algebra.Order.Monoid.Unbundled.WithTop
import Mathlib.Data.List.Rotate

/-!
# Arithmetic of statistics

What is computed from a column of numbers depends on the arithmetic: whether sums are
rounded, and what becomes of a division by zero.  An `Arithmetic` names the operations that
means, variances and their reciprocals are made of, so that one definition can be read in
each of them.

Two are given.  The exact one is over a field; its values are numbers, or nothing that is a
number, as an infinity is not, and what such a value enters is no number either.  The other
one is that of `Float32`, where each operation rounds to the nearest value of the
`binary32` format.
-/

namespace Numerics

/-- A number, or a value that is none. -/
def Entry (K : Type*) := Option K

namespace Entry

variable {K : Type*}

instance [DecidableEq K] : DecidableEq (Entry K) := inferInstanceAs (DecidableEq (Option K))

/-- The entry that is this number. -/
def number (x : K) : Entry K := some x

/-- No number. -/
def undefined : Entry K := none

/-- An operation, for numbers. -/
def map₂ (op : K → K → K) (x y : Entry K) : Entry K := Option.map₂ op x y

/-- Sums absorb what is no number. -/
instance [AddCommMonoid K] : AddCommMonoid (Entry K) := inferInstanceAs (AddCommMonoid (WithTop K))

instance [Mul K] : Mul (Entry K) := ⟨map₂ (· * ·)⟩

instance [Sub K] : Sub (Entry K) := ⟨map₂ (· - ·)⟩

@[simp] theorem number_ne_undefined (x : K) : number x ≠ undefined := Option.some_ne_none x

@[simp] theorem number_add [AddCommMonoid K] (x y : K) : number x + number y = number (x + y) :=
  rfl

@[simp] theorem number_mul [Mul K] (x y : K) : number x * number y = number (x * y) := rfl

@[simp] theorem number_sub [Sub K] (x y : K) : number x - number y = number (x - y) := rfl

@[simp] theorem mul_undefined [Mul K] (x : Entry K) : x * undefined = undefined :=
  Option.map₂_none_right _ x

theorem foldl_number [AddCommMonoid K] (f : K → K) (column : List K) (x : K) :
    column.foldl (fun sum x => sum + number (f x)) (number x) =
      number (x + (column.map f).sum) := by
  induction column generalizing x with
  | nil => simp
  | cons y column ih =>
      rw [List.foldl_cons, number_add, ih, List.map_cons, List.sum_cons, add_assoc]

end Entry

/-- The operations with which numbers of `K` are turned into values of `V`. -/
structure Arithmetic (K V : Type*) where
  number : K → V
  zero : V
  add : V → V → V
  sub : V → V → V
  mul : V → V → V
  /-- One over a count. -/
  share : Nat → V
  /-- One over a value. -/
  invert : V → V
  root : V → V

/-- Exact arithmetic, with this square root. -/
def exact {K : Type*} [Field K] [DecidableEq K] (sqrt : K → K) : Arithmetic K (Entry K) where
  number := Entry.number
  zero := 0
  add x y := x + y
  sub x y := x - y
  mul x y := x * y
  share n := if n = 0 then Entry.undefined else Entry.number (1 / n)
  invert x := Option.bind x fun x => if x = 0 then Entry.undefined else Entry.number (1 / x)
  root x := Option.map sqrt x

/-- The arithmetic of `Float32`. -/
def float32 : Arithmetic Float32 Float32 where
  number x := x
  zero := 0
  add x y := x + y
  sub x y := x - y
  mul x y := x * y
  share n := 1 / .ofModel (.ofNat n)
  invert x := 1 / x
  root := Float32.sqrt

namespace Arithmetic

variable {K V : Type*} (A : Arithmetic K V)

/-- The sum of a column, from its beginning. -/
def sum (column : List K) : V := column.foldl (fun sum x => A.add sum (A.number x)) A.zero

/-- The sum of the squares. -/
def sumSquares (column : List K) : V :=
  column.foldl (fun sum x => A.add sum (A.mul (A.number x) (A.number x))) A.zero

end Arithmetic

section Exact

variable {K : Type*} [Field K] [DecidableEq K] (sqrt : K → K)

theorem exact_sum (column : List K) :
    (exact sqrt).sum column = Entry.number column.sum := by
  have hfold := Entry.foldl_number (fun x : K => x) column 0
  rw [zero_add, List.map_id'] at hfold
  exact hfold

theorem exact_sumSquares (column : List K) :
    (exact sqrt).sumSquares column = Entry.number (column.map fun x => x * x).sum := by
  have hfold := Entry.foldl_number (fun x : K => x * x) column 0
  rw [zero_add] at hfold
  exact hfold

theorem exact_share {n : Nat} (h : n ≠ 0) : (exact sqrt).share n = Entry.number (1 / n : K) :=
  if_neg h

end Exact

/-! ## Sums in another order

Where sums are rounded, a column that begins at another place of a ring may have another
sum.  With most of its values zero, what counts is where the others begin.
-/

section Rotated

variable {σ α : Type*} {f : σ → α → σ} {s : σ} {z : α}

theorem foldl_replicate (h : f s z = s) (m : Nat) : (List.replicate m z).foldl f s = s := by
  induction m with
  | zero => rfl
  | succ m ih => rw [List.replicate_succ, List.foldl_cons, h, ih]

/-- A fold that passes over zeros: they may stand before, behind or between the other
values. -/
theorem foldl_rotate {core : List α} {m j : Nat} (hj : j < core.length + m)
    (hz : ∀ i ≤ core.length, f ((core.drop i).foldl f s) z = (core.drop i).foldl f s) :
    ((core ++ List.replicate m z).rotate j).foldl f s =
      (core.rotate (if j ≤ core.length then j else 0)).foldl f s := by
  rw [List.rotate_eq_drop_append_take (by simpa using hj.le), List.foldl_append]
  split_ifs with hcore
  · rw [List.drop_append_of_le_length hcore, List.take_append_of_le_length hcore,
      List.foldl_append, foldl_replicate (hz j hcore), List.rotate_eq_drop_append_take hcore,
      List.foldl_append]
  · have hempty : f s z = s := by
      have hlast := hz core.length le_rfl
      rwa [List.drop_length] at hlast
    have hcoreFold : f (core.foldl f s) z = core.foldl f s := hz 0 (Nat.zero_le _)
    have hle : core.length ≤ j := by omega
    rw [List.drop_append, List.drop_of_length_le hle, List.nil_append, List.drop_replicate,
      foldl_replicate hempty, List.take_append, List.take_of_length_le hle, List.take_replicate,
      List.foldl_append, foldl_replicate hcoreFold, List.rotate_zero]

end Rotated

end Numerics
