import ThreadedServer.Delivery

/-!
# Frames across batch boundaries

A batch of features is computed from the front of the buffer, from `frame_size_`
samples for the first row and `frame_shift_` more for every further row; but the
buffer is shifted by the rows times `frame_shift_` only, so that the overlap of
the last frame with the next one stays in front.

As long as every `Read` is full the buffer is a window of the audio, and the
frames of successive windows are the frames of the audio itself: where the
detector lets the iterations through one after the other, the extractor is given
what it would be given by framing the audio as a whole, however the rows are
spread over batches and calls.
-/

namespace ThreadedServer

namespace VadSession

open OnlineVadFeInput

variable {α : Type*}

/-- The source is this audio and has all the samples that are requested. -/
def FullRead (o : VadOptions) (audio : List α) (s : VadSession α) (l : VadLabel α) :
    Prop :=
  Sourced o audio s l ∧
    match l with
    | .call c first => s.feInput.bufferInit = false →
        first.length = (s.feInput.initBuffer o c.nvec first).bufferLength
    | .batch _ block => ∀ c ∈ s.call, block.length = o.samplesReq c.nvec

instance [DecidableEq α] (o : VadOptions) (audio : List α) (s : VadSession α)
    (l : VadLabel α) : Decidable (FullRead o audio s l) :=
  match l with
  | .call _ _ => inferInstanceAs (Decidable (_ ∧ (_ → _)))
  | .batch _ _ => inferInstanceAs (Decidable (_ ∧ ∀ c ∈ s.call, _))

/-- The frames that the extractor makes of the window it is given in an iteration:
one for each row of `output`. -/
def extracted (o : VadOptions) (b : Batch α) : List (List (Option α)) :=
  match b.features with
  | some window => DelayLine.frames o.frameSize o.frameShift b.nvec window
  | none => []

/-- The audio reaches to the end of the buffer, now and in all iterations so far. -/
structure Covered (o : VadOptions) (audio : List α) (s : VadSession α) : Prop where
  queued : Queued o audio s
  covered : s.feInput.bufferInit = true →
    shifted o s.log + s.feInput.bufferLength ≤ audio.length

theorem Covered.step {o : VadOptions} {audio : List α} {s s' : VadSession α}
    {l : VadLabel α} (hc : Calls o s) (h : Covered o audio s)
    (hok : FullRead o audio s l) (hs : (system o α).step s l = some s') :
    Covered o audio s' := by
  obtain ⟨hsource, hfull⟩ := hok
  refine ⟨h.queued.step hc hsource hs, fun hinit' => ?_⟩
  cases l with
  | call c first =>
      obtain ⟨-, ⟨-, rfl⟩ | ⟨-, -, -, hfe, -, hlog, hfirst⟩⟩ := enter_cases hs
      · exact h.covered hinit'
      · rcases hfirst with ⟨hinit, -, -⟩ | ⟨hinit, -, -⟩
        · rw [initBuffer_of_init hinit] at hfe
          rw [hfe, hlog]
          exact h.covered hinit
        · have hlen := hfull hinit
          have htake := congrArg List.length (hsource hinit)
          obtain ⟨hnil, -⟩ := hc.fresh hinit
          rw [List.length_take, hlen] at htake
          rw [hfe, hlog, hnil]
          simp only [shifted, List.map_nil, List.sum_nil]
          omega
  | batch speech block =>
      obtain ⟨c, b, hit, rfl, rfl⟩ := batch_iterated hs
      have hinit := hc.init hit.call
      have hcovered := h.covered hinit
      have hlen := hfull c hit.call
      have htake := congrArg List.length (hsource c hit.call)
      rw [h.queued.received hinit, drop_received, hlen, List.length_take,
        List.length_drop] at htake
      rw [hit.log, hit.bufferLength, shifted_cons, hit.nvec]
      omega

theorem covered_of_reachable {o : VadOptions} {audio : List α} {s : VadSession α}
    (h : (system o α).ReachableVia (FullRead o audio) s) : Covered o audio s := by
  refine h.invariant (Covered o audio) ⟨queued_create o audio, ?_⟩
    fun _ _ _ hr hok hi hs => hi.step (calls_of_reachable hr) hok hs
  simp [system, create, OnlineVadFeInput.create]

theorem shifted_append (o : VadOptions) (newer older : List (Batch α)) :
    shifted o (newer ++ older) = shifted o newer + shifted o older := by
  simp [shifted]

/-- At the beginning of every iteration the buffer was a window of the audio. -/
theorem Covered.tape {o : VadOptions} {audio : List α} {s : VadSession α}
    (h : Covered o audio s) (hinit : s.feInput.bufferInit = true)
    {newer older : List (Batch α)} (hlog : s.log = newer ++ older) :
    shifted o older + s.feInput.bufferLength ≤ audio.length ∧
      VadSession.tape o s.feInput.bufferLength s.first older =
        (audio.take (shifted o older + s.feInput.bufferLength)).map some := by
  have hcovered := h.covered hinit
  rw [hlog, shifted_append] at hcovered
  have hle : shifted o older + s.feInput.bufferLength ≤ audio.length := by omega
  refine ⟨hle, ?_⟩
  rw [h.queued.tape newer older hlog hinit, cells_full (List.length_take_of_le hle)]

/-- Each frame of a batch lies within its window. -/
theorem frame_le_batchSize (o : VadOptions) {nvec k : Nat} (h : k < nvec) :
    k * o.frameShift + o.frameSize ≤ o.batchSize nvec := by
  have hle : k * o.frameShift ≤ (nvec - 1) * o.frameShift :=
    Nat.mul_le_mul_right _ (by omega)
  rw [VadOptions.batchSize]
  omega

/-- The window of an iteration is a window of the audio. -/
theorem window_eq {o : VadOptions} {audio : List α} {s : VadSession α}
    (hs : (system o α).ReachableVia (FullRead o audio) s)
    {newer older : List (Batch α)} {b : Batch α} (hlog : s.log = newer ++ b :: older)
    (hfeatures : b.features.isSome) :
    b.features = some (((audio.drop (shifted o older)).take (o.batchSize b.nvec)).map some) ∧
      shifted o older + o.batchSize b.nvec ≤ audio.length := by
  have hc := calls_of_reachable hs.reachable
  have hmem : b ∈ s.log := by simp [hlog]
  have hinit : s.feInput.bufferInit = true := hc.init_of_mem hmem
  obtain ⟨hstart, -, hwindow⟩ := (taped_of_reachable hs.reachable).windows newer b older hlog
  have hsplit : s.log = (newer ++ [b]) ++ older := by simp [hlog]
  obtain ⟨hle, htape⟩ := (covered_of_reachable hs).tape hinit hsplit
  have hfits := hc.fits b hmem
  refine ⟨?_, by omega⟩
  split at hwindow
  · rw [hwindow, hstart, htape, ← List.map_drop, ← List.map_take, List.drop_take,
      List.take_take, Nat.add_sub_cancel_left, Nat.min_eq_left hfits]
  · rw [hwindow] at hfeatures
    simp at hfeatures

/-- One iteration hands over the frames of the audio from its start on. -/
theorem extracted_eq {o : VadOptions} {audio : List α} {s : VadSession α}
    (hs : (system o α).ReachableVia (FullRead o audio) s)
    {newer older : List (Batch α)} {b : Batch α} (hlog : s.log = newer ++ b :: older)
    (hfeatures : b.features.isSome) :
    extracted o b =
      (DelayLine.frames o.frameSize o.frameShift b.nvec
        (audio.drop (shifted o older))).map (List.map some) := by
  obtain ⟨hwindow, -⟩ := window_eq hs hlog hfeatures
  rw [extracted, hwindow]
  show DelayLine.frames _ _ _ _ = _
  rw [DelayLine.frames_map, DelayLine.frames_window fun k hk => frame_le_batchSize o hk]

/-- Iterations that follow each other and all extract features hand over the
frames of the audio from the start of the first one on. -/
theorem stretch_extracted {o : VadOptions} {audio : List α} {s : VadSession α}
    (hs : (system o α).ReachableVia (FullRead o audio) s)
    {newer stretch older : List (Batch α)} (hlog : s.log = newer ++ stretch ++ older)
    (hfeatures : ∀ b ∈ stretch, b.features.isSome) :
    stretch.reverse.flatMap (extracted o) =
      (DelayLine.frames o.frameSize o.frameShift (stretch.map fun b => b.nvec).sum
        (audio.drop (shifted o older))).map (List.map some) := by
  induction stretch generalizing newer with
  | nil => rfl
  | cons b stretch ih =>
      have hlog' : s.log = (newer ++ [b]) ++ stretch ++ older := by simp [hlog]
      have hb : s.log = newer ++ b :: (stretch ++ older) := by simp [hlog]
      have hpos : ∀ e ∈ stretch, 0 < e.nvec := fun e he =>
        ((calls_of_reachable hs.reachable).log e (by simp [hlog, he])).1
      -- the batches before it end where it begins
      rw [List.reverse_cons, List.flatMap_append, List.flatMap_singleton,
        ih hlog' fun e he => hfeatures e (List.mem_cons_of_mem b he),
        extracted_eq hs hb (hfeatures b List.mem_cons_self), List.map_cons, List.sum_cons,
        Nat.add_comm b.nvec, DelayLine.frames_add, shifted_append,
        shifted_rows hpos,
        List.map_append, List.drop_drop, Nat.add_comm (shifted o older)]

/-- **Continuous framing.**  While all reads are full, the buffer holds at the
beginning of every iteration the samples of the audio from the sum of all earlier
requests on.  Over iterations that follow each other and all extract features,
each is given the window of its rows, and the frames of these windows are those of
the audio, one every `frame_shift_` samples and each `frame_size_` long. -/
theorem frames_continuous {o : VadOptions} {audio : List α} {s : VadSession α}
    (hs : (system o α).ReachableVia (FullRead o audio) s) :
    (∀ c, s.call = some c →
      s.feInput.buffer =
        ((audio.drop (shifted o s.log)).take s.feInput.bufferLength).map some ∧
      s.feInput.buffer.length = s.feInput.bufferLength) ∧
    ∀ newer stretch older, s.log = newer ++ stretch ++ older →
      (∀ b ∈ stretch, b.features.isSome) →
      (∀ b ∈ stretch, ∃ window, b.features = some window ∧
        window.length = o.batchSize b.nvec) ∧
      stretch.reverse.flatMap (extracted o) =
        (DelayLine.frames o.frameSize o.frameShift (stretch.map fun b => b.nvec).sum
          (audio.drop (shifted o older))).map (List.map some) ∧
      ∀ frame ∈ stretch.reverse.flatMap (extracted o), frame.length = o.frameSize := by
  constructor
  · intro c hcall
    have hinit := (calls_of_reachable hs.reachable).init hcall
    have hline := (taped_of_reachable hs.reachable).line hinit
    have hlog : s.log = [] ++ s.log := rfl
    obtain ⟨-, htape⟩ := (covered_of_reachable hs).tape hinit hlog
    refine ⟨?_, hline.line_length⟩
    rw [hline.line, htape, ← List.map_drop, List.drop_take, Nat.add_sub_cancel_left]
  · intro newer stretch older hlog hfeatures
    have hwindows : ∀ b ∈ stretch, ∃ window, b.features = some window ∧
        window.length = o.batchSize b.nvec := by
      intro b hb
      obtain ⟨before, after, rfl⟩ := List.append_of_mem hb
      have hsplit : s.log = (newer ++ before) ++ b :: (after ++ older) := by simp [hlog]
      obtain ⟨hwindow, hle⟩ := window_eq hs hsplit (hfeatures b hb)
      refine ⟨_, hwindow, ?_⟩
      rw [List.length_map, List.length_take_of_le]
      rw [List.length_drop]
      omega
    refine ⟨hwindows, stretch_extracted hs hlog hfeatures, fun frame hframe => ?_⟩
    obtain ⟨b, hb, hframe⟩ := List.mem_flatMap.mp hframe
    obtain ⟨window, hwindow, hlen⟩ := hwindows b (List.mem_reverse.mp hb)
    rw [extracted, hwindow] at hframe
    refine DelayLine.length_of_mem_frames (fun k hk => ?_) hframe
    rw [hlen]
    exact frame_le_batchSize o hk

/-- Two calls of one and two rows over a stream of numbers: the windows overlap by
one sample, and the three frames are those of the stream. -/
theorem frames_continuous_two_calls :
    ∃ (s : VadSession Nat) (late early : Batch Nat), s.log = [late, early] ∧
      [early, late].flatMap (extracted twoSamples) =
        [[some 0, some 1], [some 1, some 2], [some 2, some 3]] := by
  have hrun : ∃ s late early, (system twoSamples Nat).runVia
      (FullRead twoSamples (List.range 9)) (create twoSamples)
      [.call ⟨1, none⟩ [0, 1, 2, 3], .batch true [4], .call ⟨2, none⟩ [],
        .batch true [5, 6]] = some s ∧ s.log = [late, early] ∧
      late.features.isSome ∧ early.features.isSome ∧ late.nvec = 2 ∧ early.nvec = 1 :=
    ⟨_, _, _, rfl, rfl, rfl, rfl, rfl, rfl⟩
  obtain ⟨s, late, early, hs, hlog, hlate, hearly, hrows, hrow⟩ := hrun
  have hreach := Transition.System.ReachableVia.init.run hs
  obtain ⟨-, hframes⟩ := frames_continuous hreach
  obtain ⟨-, hall, -⟩ := hframes [] [late, early] [] (by simp [hlog]) (by simp [hlate, hearly])
  refine ⟨s, late, early, hlog, hall.trans ?_⟩
  simp only [List.map_cons, List.map_nil, hrows, hrow]
  rfl

end VadSession

end ThreadedServer
