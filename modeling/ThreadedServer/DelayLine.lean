import Mathlib.Data.List.Basic

/-!
# Delay lines

A delay line of length `n` holds the last `n` cells of everything that was ever
written to it, its tape.  A write drops as many cells at the front as it adds at
the back, so that a window at the front of the line is a window of the tape, at
a place that moves by the length of each write.
-/

namespace DelayLine

variable {β : Type*}

/-- Write a block at the back; the front drops out. -/
def push (line block : List β) : List β := line.drop block.length ++ block

/-- The line holds the last `n` cells of the tape, which begin at place `start`. -/
structure Holds (line tape : List β) (start n : Nat) : Prop where
  line : line = tape.drop start
  length : tape.length = start + n

theorem Holds.line_length {line tape : List β} {start n : Nat}
    (h : Holds line tape start n) : line.length = n := by
  rw [h.line, List.length_drop, h.length]
  omega

theorem Holds.start (tape : List β) : Holds tape tape 0 tape.length :=
  ⟨rfl, (Nat.zero_add _).symm⟩

/-- A write moves the line along its tape. -/
theorem Holds.push {line tape block : List β} {start n : Nat}
    (h : Holds line tape start n) (hb : block.length ≤ n) :
    Holds (push line block) (tape ++ block) (start + block.length) n := by
  have hlen := h.length
  refine ⟨?_, ?_⟩
  · rw [DelayLine.push, h.line, List.drop_drop, List.drop_append_of_le_length (by omega)]
  · rw [List.length_append]
    omega

/-- What holds of every cell of a window holds of the tape at every place under
it. -/
theorem forall_mem_window {P : β → Prop} {tape : List β} {start n : Nat} :
    (∀ x ∈ (tape.drop start).take n, P x) ↔
      ∀ p, start ≤ p → p < start + n → ∀ x, tape[p]? = some x → P x := by
  constructor
  · intro h p hlo hhi x hx
    refine h x (List.mem_iff_getElem?.mpr ⟨p - start, ?_⟩)
    rw [List.getElem?_take_of_lt (by omega), List.getElem?_drop, ← hx]
    congr 1
    omega
  · intro h x hx
    obtain ⟨i, hi⟩ := List.mem_iff_getElem?.mp hx
    have hin : i < n := by
      by_contra hge
      rw [List.getElem?_take_eq_none (by omega)] at hi
      cases hi
    rw [List.getElem?_take_of_lt hin, List.getElem?_drop] at hi
    exact h (start + i) (by omega) (by omega) x hi

/-- A window inside another one. -/
theorem window_window {tape : List β} {start n i m : Nat} (h : i + m ≤ n) :
    (((tape.drop start).take n).drop i).take m = (tape.drop (start + i)).take m := by
  rw [List.drop_take, List.drop_drop, List.take_take]
  congr 1
  omega

/-! ## Frames -/

/-- The first `count` frames of a stream: one every `shift` cells, each of `size`
cells. -/
def frames (size shift count : Nat) (stream : List β) : List (List β) :=
  (List.range count).map fun k => (stream.drop (k * shift)).take size

/-- Framing goes on where it stopped. -/
theorem frames_add (size shift n m : Nat) (stream : List β) :
    frames size shift (n + m) stream =
      frames size shift n stream ++ frames size shift m (stream.drop (n * shift)) := by
  rw [frames, frames, frames, List.range_add, List.map_append, List.map_map]
  congr 1
  refine List.map_congr_left fun k _ => ?_
  rw [Function.comp_apply, List.drop_drop, Nat.add_mul]

/-- Frames that lie within a window of the stream are frames of the stream. -/
theorem frames_window {size shift count start n : Nat} {stream : List β}
    (h : ∀ k < count, k * shift + size ≤ n) :
    frames size shift count ((stream.drop start).take n) =
      frames size shift count (stream.drop start) := by
  refine List.map_congr_left fun k hk => ?_
  rw [window_window (h k (List.mem_range.mp hk)), List.drop_drop]

theorem frames_map {γ : Type*} (f : β → γ) (size shift count : Nat) (stream : List β) :
    frames size shift count (stream.map f) =
      (frames size shift count stream).map (List.map f) := by
  rw [frames, frames, List.map_map]
  refine List.map_congr_left fun k _ => ?_
  rw [Function.comp_apply, List.map_take, List.map_drop]

/-- A stream that is long enough is cut into whole frames. -/
theorem length_of_mem_frames {size shift count : Nat} {stream frame : List β}
    (h : ∀ k < count, k * shift + size ≤ stream.length)
    (hframe : frame ∈ frames size shift count stream) : frame.length = size := by
  obtain ⟨k, hk, rfl⟩ := List.mem_map.mp hframe
  have hfits := h k (List.mem_range.mp hk)
  rw [List.length_take_of_le]
  rw [List.length_drop]
  omega

/-! ## Framing piece by piece -/

/-- The whole frames in `n` cells. -/
def frameCount (size shift n : Nat) : Nat := if n < size then 0 else (n - size) / shift + 1

/-- The whole frames of a stream, and the cells from where the next one begins. -/
def cut (size shift : Nat) (stream : List β) : List (List β) × List β :=
  (frames size shift (frameCount size shift stream.length) stream,
    stream.drop (frameCount size shift stream.length * shift))

section Cut

variable {size shift : Nat}

theorem length_frames (count : Nat) (stream : List β) :
    (frames size shift count stream).length = count := by
  simp [frames]

@[simp] theorem length_cut (stream : List β) :
    (cut size shift stream).1.length = frameCount size shift stream.length :=
  length_frames _ _

/-- The last of the frames ends within the cells, and the next one does not. -/
theorem frameCount_spec (size : Nat) (hshift : 0 < shift) (n : Nat) :
    (∀ k < frameCount size shift n, k * shift + size ≤ n) ∧
      n < frameCount size shift n * shift + size := by
  unfold frameCount
  split
  · exact ⟨by simp, by omega⟩
  · have hdiv := Nat.div_add_mod' (n - size) shift
    have hmod := Nat.mod_lt (n - size) hshift
    refine ⟨?_, ?_⟩
    · intro k hk
      have hle : k * shift ≤ (n - size) / shift * shift := Nat.mul_le_mul_right _ (by omega)
      omega
    · rw [Nat.add_mul, Nat.one_mul]
      omega

/-- This is how many they are. -/
theorem frameCount_unique (hshift : 0 < shift) {n count : Nat}
    (hfits : ∀ k < count, k * shift + size ≤ n) (hnext : n < count * shift + size) :
    frameCount size shift n = count := by
  obtain ⟨hfits', hnext'⟩ := frameCount_spec size hshift n
  rcases Nat.lt_trichotomy (frameCount size shift n) count with hlt | heq | hgt
  · have := hfits _ hlt
    omega
  · exact heq
  · have := hfits' _ hgt
    omega

theorem frameCount_mul_le (hle : shift ≤ size) (hshift : 0 < shift) (n : Nat) :
    frameCount size shift n * shift ≤ n := by
  cases hcount : frameCount size shift n with
  | zero => simp
  | succ k =>
      have := (frameCount_spec size hshift n).1 k (by omega)
      rw [Nat.succ_mul]
      omega

/-- What is left over goes before the next cells. -/
theorem frameCount_add (hle : shift ≤ size) (hshift : 0 < shift) (n m : Nat) :
    frameCount size shift (n + m) = frameCount size shift n +
      frameCount size shift (n - frameCount size shift n * shift + m) := by
  have hwhole := frameCount_mul_le hle hshift n
  obtain ⟨hfits, hnext⟩ := frameCount_spec size hshift n
  obtain ⟨hfits', hnext'⟩ := frameCount_spec size hshift
    (n - frameCount size shift n * shift + m)
  refine frameCount_unique hshift ?_ ?_
  · intro k hk
    by_cases hfirst : k < frameCount size shift n
    · have := hfits k hfirst
      omega
    · obtain ⟨j, rfl⟩ := Nat.exists_eq_add_of_le (Nat.not_lt.mp hfirst)
      have := hfits' j (by omega)
      rw [Nat.add_mul]
      omega
  · rw [Nat.add_mul]
    omega

/-- **Framing piece by piece.**  The frames of a stream are those of its beginning, and those
of what they leave over with the rest behind it. -/
theorem cut_append (hle : shift ≤ size) (hshift : 0 < shift) (stream more : List β) :
    cut size shift (stream ++ more) =
      ((cut size shift stream).1 ++ (cut size shift ((cut size shift stream).2 ++ more)).1,
        (cut size shift ((cut size shift stream).2 ++ more)).2) := by
  have hwhole := frameCount_mul_le hle hshift stream.length
  have hrest : stream.drop (frameCount size shift stream.length * shift) ++ more =
      (stream ++ more).drop (frameCount size shift stream.length * shift) :=
    (List.drop_append_of_le_length hwhole).symm
  have hcount := frameCount_add hle hshift stream.length more.length
  have hbegin : frames size shift (frameCount size shift stream.length) (stream ++ more) =
      frames size shift (frameCount size shift stream.length) stream := by
    refine List.map_congr_left fun k hk => ?_
    have hfits := (frameCount_spec size hshift stream.length).1 k (List.mem_range.mp hk)
    rw [List.drop_append_of_le_length (by omega), List.take_append_of_le_length]
    rw [List.length_drop]
    omega
  simp only [cut, List.length_append, hcount, List.length_drop]
  refine Prod.ext ?_ ?_
  · show frames size shift _ (stream ++ more) = _
    rw [frames_add, hbegin, hrest]
  · show (stream ++ more).drop _ = _
    rw [hrest, List.drop_drop, Nat.add_mul]

end Cut

end DelayLine
