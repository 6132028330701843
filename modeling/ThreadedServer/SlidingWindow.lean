import Mathlib.Algebra.Group.Fin.Basic
import Mathlib.Data.List.Range

/-!
# A window that slides over a stream

A window has `m + 1` cells in a circle and the position of the oldest one.  A
new value takes the oldest value's place, and the position moves on; read from
the position on, once round, the window shows the last `m + 1` values.

The stream is a function on the natural numbers.  What a window shows is said
by the place in the stream where its view begins, and rolling the window over
the values that follow yields one view for each of them, in order, however the
values are cut into pieces.
-/

namespace SlidingWindow

variable {β : Type*} {m : Nat}

/-- Cells in a circle; `pos` is the oldest one.  Positions are taken modulo the
number of cells, as the arithmetic of `Fin` does. -/
structure Window (m : Nat) (β : Type*) where
  cells : Fin (m + 1) → β
  pos : Fin (m + 1)

namespace Window

/-- Replace the oldest value. -/
def push (w : Window m β) (x : β) : Window m β where
  cells := Function.update w.cells w.pos x
  pos := w.pos + 1

/-- The values from the oldest to the newest. -/
def view (w : Window m β) : Fin (m + 1) → β := fun i => w.cells (w.pos + i)

/-- Push the values one after another and look at the window after each. -/
def roll (w : Window m β) : List β → Window m β × List (Fin (m + 1) → β)
  | [] => (w, [])
  | x :: xs => (((w.push x).roll xs).1, (w.push x).view :: ((w.push x).roll xs).2)

/-- The window shows the stream `s` from place `t` on. -/
def Shows (w : Window m β) (s : Nat → β) (t : Nat) : Prop :=
  ∀ i : Fin (m + 1), w.view i = s (t + i)

/-- The newest value is the one just pushed. -/
theorem view_push_last (w : Window m β) (x : β) : (w.push x).view (Fin.last m) = x := by
  have hpos : w.pos + 1 + Fin.last m = w.pos := by
    rw [add_assoc, add_comm 1 (Fin.last m), Fin.last_add_one, add_zero]
  simp [view, push, hpos]

/-- The other values move up by one. -/
theorem view_push_castSucc (w : Window m β) (x : β) (i : Fin m) :
    (w.push x).view i.castSucc = w.view i.succ := by
  have hpos : w.pos + 1 + i.castSucc = w.pos + i.succ := by
    rw [add_assoc, add_comm 1 i.castSucc, Fin.coeSucc_eq_succ]
  have hne : w.pos + i.succ ≠ w.pos := by
    intro h
    simp at h
  rw [view, push]
  simp only [hpos]
  rw [Function.update_of_ne hne, view]

/-- One value of the stream moves the view by one place. -/
theorem Shows.push {w : Window m β} {s : Nat → β} {t : Nat}
    (h : w.Shows s t) : (w.push (s (t + m + 1))).Shows s (t + 1) := by
  intro i
  induction i using Fin.lastCases with
  | last =>
      rw [view_push_last, Fin.val_last]
      congr 1
      omega
  | cast i =>
      rw [view_push_castSucc, h i.succ, Fin.val_succ, Fin.val_castSucc]
      congr 1
      omega

/-- **Rolling over a piece of the stream** yields the views at the places that
follow, and leaves the window at the last of them. -/
theorem Shows.roll {w : Window m β} {s : Nat → β} {t : Nat}
    (h : w.Shows s t)
    (xs : List β)
    (hxs : ∀ k (hk : k < xs.length), xs[k] = s (t + m + 1 + k)) :
    (w.roll xs).1.Shows s (t + xs.length) ∧
      (w.roll xs).2 =
        (List.range' (t + 1) xs.length).map fun u (i : Fin (m + 1)) => s (u + i) := by
  induction xs generalizing w t with
  | nil => exact ⟨h, rfl⟩
  | cons x xs ih =>
      have hx : x = s (t + m + 1) := hxs 0 (by simp)
      have hnext : (w.push x).Shows s (t + 1) := hx ▸ h.push
      obtain ⟨hshows, hviews⟩ := ih hnext (fun k hk => by
        have hk' := hxs (k + 1) (by simpa using hk)
        rw [List.getElem_cons_succ] at hk'
        rw [hk']
        congr 1
        omega)
      refine ⟨?_, ?_⟩
      · have hplace : t + (x :: xs).length = t + 1 + xs.length := by
          rw [List.length_cons]
          omega
        rw [hplace]
        exact hshows
      · have hview : (w.push x).view = fun i : Fin (m + 1) => s (t + 1 + i) := funext hnext
        show (w.push x).view :: ((w.push x).roll xs).2 = _
        rw [hview, hviews, List.length_cons, List.range'_succ, List.map_cons]

/-! ## Windows in order -/

/-- The values from the oldest to the newest, after one more: the oldest is dropped and the
others move up. -/
def shiftUp (values : Fin (m + 1) → β) (x : β) : Fin (m + 1) → β :=
  fun i => if h : (i : Nat) < m then values ⟨i + 1, by omega⟩ else x

/-- A push into the circle is a shift of the values in order. -/
theorem view_push (w : Window m β) (x : β) : (w.push x).view = shiftUp w.view x := by
  funext i
  induction i using Fin.lastCases with
  | last => rw [view_push_last, shiftUp, dif_neg (by simp)]
  | cast i =>
      have hlt : (i.castSucc : Nat) < m := i.isLt
      rw [view_push_castSucc, shiftUp, dif_pos hlt]
      rfl

end Window

end SlidingWindow
