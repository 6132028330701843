import ThreadedServer.DelayLine
import ThreadedServer.Hangover

/-!
# What the extractor is given

The buffer of `OnlineVadFeInput` is a delay line.  Its tape is the initial fill
followed by the blocks of all later reads, with an empty cell wherever a `Read`
fell short.  Every window that the extractor is given is a window of the tape;
this file says which of these windows consist of delivered samples only, and
which frames of the audio get into one of them before the source ends.
-/

namespace ThreadedServer

namespace VadSession

open OnlineVadFeInput

variable {α : Type*}

/-- Everything that was ever written to the buffer. -/
def tape (o : VadOptions) (bufferLength : Nat) (first : List α) :
    List (Batch α) → List (Option α)
  | [] => cells bufferLength first
  | b :: older => tape o bufferLength first older ++ cells (o.samplesReq b.nvec) b.block

theorem cells_length {n : Nat} {block : List α} (h : block.length ≤ n) :
    (cells n block).length = n := by
  simp [cells, h]

theorem shiftBuffer_length (buffer : List (Option α)) (n : Nat) :
    (shiftBuffer buffer n).length = buffer.length := by
  simp [shiftBuffer]

/-- `ShiftBuffer` and the `Read` after it are one write to the delay line. -/
theorem readBack_shiftBuffer {buffer : List (Option α)} {n : Nat} {block : List α}
    (hb : block.length ≤ n) :
    readBack (shiftBuffer buffer n) n block = DelayLine.push buffer (cells n block) := by
  have hfront : (buffer.drop n).length = buffer.length - n := List.length_drop
  rw [readBack, shiftBuffer_length, shiftBuffer, DelayLine.push, cells_length hb,
    List.take_append_of_le_length (by omega), List.take_of_length_le (by omega)]

/-- The buffer holds its tape, and the windows were windows of it. -/
structure Taped (o : VadOptions) (s : VadSession α) : Prop where
  line : s.feInput.bufferInit = true →
    DelayLine.Holds s.feInput.buffer (tape o s.feInput.bufferLength s.first s.log)
      (shifted o s.log) s.feInput.bufferLength
  first : s.feInput.bufferInit = true → s.first.length ≤ s.feInput.bufferLength
  windows : ∀ newer b older, s.log = newer ++ b :: older →
    b.start = shifted o older ∧
    (b.returned = some false → b.block.length < o.samplesReq b.nvec) ∧
    b.features = if b.lastBatchVad || b.speech then
      some (((tape o s.feInput.bufferLength s.first older).drop b.start).take
        (o.batchSize b.nvec))
    else none

theorem taped_create (o : VadOptions) : Taped o (create o : VadSession α) := by
  constructor <;> simp [create, OnlineVadFeInput.create]

/-- A batch is extracted if there was speech before it or there is speech in it. -/
theorem notify_active {o : VadOptions} {samplesReq bufferLength hangoverCount : Nat}
    {last speech : Bool} :
    (last || (notify o samplesReq bufferLength last speech hangoverCount).batchVad) =
      (last || speech) := by
  cases last with
  | true => rfl
  | false =>
      cases speech with
      | false => rfl
      | true => simp [notify, foldl_start]

theorem Taped.step {o : VadOptions} {s s' : VadSession α} {l : VadLabel α}
    (hc : Calls o s) (h : Taped o s) (hs : (system o α).step s l = some s') :
    Taped o s' := by
  cases l with
  | call c first =>
      obtain ⟨-, ⟨-, rfl⟩ | ⟨-, -, -, hfe, -, hlog, hfirst⟩⟩ := enter_cases hs
      · exact h
      · rcases hfirst with ⟨hinit, -, hsame⟩ | ⟨hinit, hsame, hlen⟩
        · rw [initBuffer_of_init hinit] at hfe
          refine ⟨?_, ?_, ?_⟩
          · rw [hfe, hlog, hsame]
            exact h.line
          · rw [hfe, hsame]
            exact h.first
          · rw [hfe, hlog, hsame]
            exact h.windows
        · obtain ⟨hnil, -⟩ := hc.fresh hinit
          refine ⟨fun _ => ?_, fun _ => ?_, ?_⟩
          · have hbuf : s'.feInput.buffer = cells s'.feInput.bufferLength first := by
              simp [hfe, initBuffer, hinit]
            rw [hlog, hnil, hsame, hbuf]
            exact ⟨rfl, by simp [tape, shifted, cells_length hlen]⟩
          · rw [hsame]
            exact hlen
          · intro newer b older hold
            rw [hlog, hnil] at hold
            simp at hold
  | batch speech block =>
      obtain ⟨c, b, hit, -, -⟩ := batch_iterated hs
      obtain ⟨hpos, hbatch, hreq⟩ := hc.call c hit.call
      have hinit := hc.init hit.call
      have hline := h.line hinit
      refine ⟨fun _ => ?_, fun _ => ?_, ?_⟩
      · have hlen : (cells (o.samplesReq c.nvec) b.block).length ≤
            s.feInput.bufferLength := by
          rw [cells_length hit.block]
          exact hreq
        have hpush := hline.push hlen
        rw [cells_length hit.block] at hpush
        rw [hit.buffer, hit.log, hit.bufferLength, hit.first, shifted_cons, tape, hit.nvec,
          readBack_shiftBuffer hit.block,
          Nat.add_comm (o.samplesReq c.nvec)]
        exact hpush
      · rw [hit.first, hit.bufferLength]
        exact h.first hinit
      · rw [hit.log, hit.bufferLength, hit.first]
        refine Transition.forall_split_cons.mpr ⟨⟨hit.start, ?_, ?_⟩, h.windows⟩
        · intro hret
          have hle := hit.block
          rw [hit.returned] at hret
          rw [hit.nvec]
          by_contra hge
          have hfull : b.block.length = o.samplesReq c.nvec := by omega
          simp [hfull] at hret
        · have hactive := @notify_active o (o.samplesReq c.nvec) s.feInput.bufferLength
            s.feInput.hangoverCount s.feInput.batchVad b.speech
          rw [hit.notice] at hactive
          rw [hit.features, hit.last, hit.vad, hactive, hit.nvec, hit.start, hline.line]

theorem taped_of_reachable {o : VadOptions} {s : VadSession α}
    (h : (system o α).Reachable s) : Taped o s :=
  Transition.System.ReachableVia.invariant (Taped o) (taped_create o)
    (fun _ _ _ hr _ ht hs => ht.step (calls_of_reachable hr) hs) h

/-! ## Rows made of delivered samples -/

/-- A call passes no timeout, or one that has not expired. -/
def Patient : VadLabel α → Prop
  | .call c _ => c.timeout ≠ some 0
  | .batch _ _ => True

instance : DecidablePred (Patient : VadLabel α → Prop)
  | .call c _ => inferInstanceAs (Decidable (c.timeout ≠ some 0))
  | .batch _ _ => inferInstanceAs (Decidable True)

/-- Every row of `output` was written in this call, from delivered samples. -/
def RowsDelivered (b : Batch α) : Prop :=
  ∃ window, b.features = some window ∧ ∀ x ∈ window, x.isSome

/-- The place `p` of the initial buffer was left unfilled by the first `Read`. -/
def Unfilled (bufferLength : Nat) (first : List α) (p : Nat) : Prop :=
  first.length ≤ p ∧ p < bufferLength

/-- The iteration has speech, in its own batch or held over, and its front window
keeps clear of what the first `Read` left unfilled. -/
def WindowFilled (o : VadOptions) (bufferLength : Nat) (first : List α) (b : Batch α) :
    Prop :=
  (b.lastBatchVad = true ∨ b.speech = true) ∧
    ∀ p, b.start ≤ p → p < b.start + o.batchSize b.nvec →
      ¬ Unfilled bufferLength first p

/-- While no call has returned false, every `Read` after the first was full. -/
def FullReads (o : VadOptions) (s : VadSession α) : Prop :=
  (∀ c, s.call = some c → c.timeout ≠ some 0) ∧
    ∀ b ∈ s.log, b.returned ≠ some false → b.block.length = o.samplesReq b.nvec

theorem fullReads_of_patient {o : VadOptions} {s : VadSession α}
    (h : (system o α).ReachableVia (fun _ l => Patient l) s) : FullReads o s := by
  refine h.invariant (FullReads o) ⟨by simp [create, system], by simp [create, system]⟩ ?_
  intro s l s' _ hpatient hfull hs
  obtain ⟨hcall, hlog⟩ := hfull
  cases l with
  | call c first =>
      obtain ⟨-, ⟨-, rfl⟩ | ⟨-, -, -, -, hcall', hlog', -⟩⟩ := enter_cases hs
      · exact ⟨hcall, hlog⟩
      · refine ⟨fun c' hc' => ?_, by rw [hlog']; exact hlog⟩
        obtain rfl : c = c' := Option.some.inj (hcall'.symm.trans hc')
        exact hpatient
  | batch speech block =>
      obtain ⟨c, b, hit, -, -⟩ := batch_iterated hs
      have htimeout := hcall c hit.call
      refine ⟨fun c' hc' => ?_, fun e he hret => ?_⟩
      · rw [hit.next] at hc'
        split at hc'
        · cases hc'
        · obtain rfl := Option.some.inj hc'
          exact htimeout
      · rw [hit.log] at he
        rcases List.mem_cons.mp he with rfl | he
        · rw [hit.returned] at hret
          rw [hit.nvec]
          by_contra hshort
          simp [hshort, htimeout] at hret
        · exact hlog e he hret

theorem cells_full {n : Nat} {block : List α} (h : block.length = n) :
    cells n block = block.map some := by
  simp [cells, h]

theorem le_tape_length {o : VadOptions} {bufferLength : Nat} {first : List α}
    (hfirst : first.length ≤ bufferLength) (log : List (Batch α)) :
    bufferLength ≤ (tape o bufferLength first log).length := by
  induction log with
  | nil => exact Nat.le_of_eq (cells_length hfirst).symm
  | cons b older ih =>
      rw [tape, List.length_append]
      omega

/-- After full reads the tape is filled except where the first `Read` left it. -/
theorem tape_filled {o : VadOptions} {bufferLength : Nat} {first : List α}
    (hfirst : first.length ≤ bufferLength) {log : List (Batch α)}
    (hfull : ∀ b ∈ log, b.block.length = o.samplesReq b.nvec) {p : Nat} {x : Option α}
    (hx : (tape o bufferLength first log)[p]? = some x) :
    x.isSome ↔ ¬ Unfilled bufferLength first p := by
  induction log with
  | nil =>
      rw [tape, cells] at hx
      by_cases hp : p < first.length
      · rw [List.getElem?_append_left (by simpa using hp), List.getElem?_map,
          List.getElem?_eq_getElem hp] at hx
        obtain rfl : some first[p] = x := by simpa using hx
        simp [Unfilled, hp]
      · rw [List.getElem?_append_right (by simpa using hp),
          List.getElem?_replicate] at hx
        obtain ⟨hlt, rfl⟩ : p - first.length < bufferLength - first.length ∧ none = x := by
          simpa using hx
        simp only [Option.isSome_none, Bool.false_eq_true, Unfilled, false_iff, not_not]
        omega
  | cons b older ih =>
      have hlen := le_tape_length (o := o) hfirst older
      rw [tape, cells_full (hfull b List.mem_cons_self)] at hx
      by_cases hp : p < (tape o bufferLength first older).length
      · rw [List.getElem?_append_left hp] at hx
        exact ih (fun e he => hfull e (List.mem_cons_of_mem b he)) hx
      · rw [List.getElem?_append_right (by omega), List.getElem?_map] at hx
        obtain ⟨a, -, rfl⟩ := Option.map_eq_some_iff.mp hx
        simp only [Option.isSome_some, Unfilled, true_iff]
        omega

/-- **Delivered rows.**  Up to the first call that returns false, the rows of a
call were all written in it from delivered samples exactly when its last
iteration has speech and a front window clear of the unfilled part of the initial
buffer. -/
theorem rows_delivered_iff {o : VadOptions} {s : VadSession α}
    (hs : (system o α).ReachableVia (fun _ l => Patient l) s)
    {newer older : List (Batch α)} {b : Batch α} (hlog : s.log = newer ++ b :: older)
    (hbefore : ∀ e ∈ older, e.returned ≠ some false) :
    RowsDelivered b ↔ WindowFilled o s.feInput.bufferLength s.first b := by
  have hc := calls_of_reachable hs.reachable
  have ht := taped_of_reachable hs.reachable
  have hmem : b ∈ s.log := by simp [hlog]
  have hinit : s.feInput.bufferInit = true := hc.init_of_mem hmem
  have hfull : ∀ e ∈ older, e.block.length = o.samplesReq e.nvec := by
    intro e he
    exact (fullReads_of_patient hs).2 e (by simp [hlog, he]) (hbefore e he)
  obtain ⟨hstart, -, hfeatures⟩ := ht.windows newer b older hlog
  have hwindow : (∀ x ∈ ((tape o s.feInput.bufferLength s.first older).drop b.start).take
      (o.batchSize b.nvec), x.isSome) ↔
      ∀ p, b.start ≤ p → p < b.start + o.batchSize b.nvec →
        ¬ Unfilled s.feInput.bufferLength s.first p := by
    rw [DelayLine.forall_mem_window]
    refine forall_congr' fun p => forall_congr' fun hlo => forall_congr' fun hhi => ?_
    constructor
    · intro h hun
      have hlen := le_tape_length (o := o) (ht.first hinit) older
      have hp : p < (tape o s.feInput.bufferLength s.first older).length := by
        have := hun.2
        omega
      have hx := List.getElem?_eq_getElem hp
      exact (tape_filled (ht.first hinit) hfull hx).mp (h _ hx) hun
    · intro h x hx
      exact (tape_filled (ht.first hinit) hfull hx).mpr h
  rw [RowsDelivered, WindowFilled, ← hwindow, hfeatures]
  by_cases hactive : b.lastBatchVad = true ∨ b.speech = true
  · have hor : (b.lastBatchVad || b.speech) = true := by simpa using hactive
    simp [hor, hactive]
  · have hor : (b.lastBatchVad || b.speech) = false := by simpa using hactive
    simp [hor, hactive]

/-- A frame of two samples and a shift of one, with room for two more samples. -/
def twoSamples : VadOptions := ⟨2, 1, 2, 1⟩

/-- The source fills the buffer and the first batch has speech. -/
theorem rows_delivered_full_buffer :
    ∃ (s : VadSession Nat) (b : Batch Nat) (older : List (Batch Nat)),
      s.log = b :: older ∧ b.returned = some true ∧ RowsDelivered b := by
  have hrun : ∃ s b older, (system twoSamples Nat).runVia (fun _ l => Patient l)
      (create twoSamples) [.call ⟨1, none⟩ [5, 6, 7, 8], .batch true [9]] = some s ∧
      s.log = b :: older ∧ b.returned = some true ∧ older = [] ∧
        s.first.length = s.feInput.bufferLength ∧ b.speech = true :=
    ⟨_, _, _, rfl, rfl, rfl, rfl, rfl, rfl⟩
  obtain ⟨s, b, older, hs, hlog, hret, rfl, hfirst, hspeech⟩ := hrun
  refine ⟨s, b, [], hlog, hret, ?_⟩
  have hreach := Transition.System.ReachableVia.init.run hs
  have hsplit : s.log = [] ++ b :: [] := hlog
  refine (rows_delivered_iff hreach hsplit (by simp)).mpr ⟨Or.inr hspeech, ?_⟩
  rintro p - - ⟨hlo, hhi⟩
  omega

/-- The source fills the buffer and then ends, all in silence: the call that
finds this out returns rows that nobody has written. -/
theorem rows_undelivered_at_end_of_silence :
    ∃ (s : VadSession Nat) (b : Batch Nat),
      (system twoSamples Nat).ReachableVia (fun _ l => Patient l) s ∧ s.log = [b] ∧
        b.returned = some false ∧ ¬ RowsDelivered b := by
  have hrun : ∃ s b, (system twoSamples Nat).runVia (fun _ l => Patient l)
      (create twoSamples) [.call ⟨1, none⟩ [5, 6, 7, 8], .batch false []] = some s ∧
      s.log = [b] ∧ b.returned = some false ∧ b.features = none :=
    ⟨_, _, rfl, rfl, rfl, rfl⟩
  obtain ⟨s, b, hs, hlog, hret, hnone⟩ := hrun
  refine ⟨s, b, Transition.System.ReachableVia.init.run hs, hlog, hret, ?_⟩
  rintro ⟨window, hwindow, -⟩
  rw [hnone] at hwindow
  cases hwindow

/-! ## A source without speech pauses -/

/-- The samples received so far. -/
def received (s : VadSession α) : List α :=
  s.first ++ (s.log.reverse.map fun b => b.block).flatten

/-- The source is this audio: a `Read` returns what is requested or what is left,
whichever is less; and every batch is judged speech. -/
def AllSpeech (o : VadOptions) (audio : List α) (s : VadSession α) : VadLabel α → Prop
  | .call c first => s.feInput.bufferInit = false →
      first = audio.take (s.feInput.initBuffer o c.nvec first).bufferLength
  | .batch speech block => speech = true ∧ ∀ c ∈ s.call,
      block = (audio.drop (received s).length).take (o.samplesReq c.nvec)

instance [DecidableEq α] (o : VadOptions) (audio : List α) (s : VadSession α)
    (l : VadLabel α) : Decidable (AllSpeech o audio s l) :=
  match l with
  | .call _ _ => inferInstanceAs (Decidable (_ → _))
  | .batch _ _ => inferInstanceAs (Decidable (_ ∧ ∀ c ∈ s.call, _))

/-- The source is this audio, whatever the detector says. -/
def Sourced (o : VadOptions) (audio : List α) (s : VadSession α) : VadLabel α → Prop
  | .call c first => s.feInput.bufferInit = false →
      first = audio.take (s.feInput.initBuffer o c.nvec first).bufferLength
  | .batch _ block => ∀ c ∈ s.call,
      block = (audio.drop (received s).length).take (o.samplesReq c.nvec)

instance [DecidableEq α] (o : VadOptions) (audio : List α) (s : VadSession α)
    (l : VadLabel α) : Decidable (Sourced o audio s l) :=
  match l with
  | .call _ _ => inferInstanceAs (Decidable (_ → _))
  | .batch _ _ => inferInstanceAs (Decidable (∀ c ∈ s.call, _))

theorem AllSpeech.sourced {o : VadOptions} {audio : List α} {s : VadSession α}
    {l : VadLabel α} (h : AllSpeech o audio s l) : Sourced o audio s l := by
  cases l with
  | call c first => exact h
  | batch speech block => exact h.2

/-- The frame with number `f` lies within the audio. -/
def Complete (o : VadOptions) (audio : List α) (f : Nat) : Prop :=
  f * o.frameShift + o.frameSize ≤ audio.length

/-- The frame with number `f` was one of the frames of a window that the extractor
was given. -/
def Handed (o : VadOptions) (audio : List α) (log : List (Batch α)) (f : Nat) : Prop :=
  ∃ b ∈ log, ∃ window k, b.features = some window ∧ k < b.nvec ∧
    b.start + k * o.frameShift = f * o.frameShift ∧
    (window.drop (k * o.frameShift)).take o.frameSize =
      ((audio.drop (f * o.frameShift)).take o.frameSize).map some

/-- With such a source the tape is the audio, filled up with empty cells. -/
structure Queued (o : VadOptions) (audio : List α) (s : VadSession α) : Prop where
  received : s.feInput.bufferInit = true →
    received s = audio.take (shifted o s.log + s.feInput.bufferLength)
  blocks : ∀ newer b older, s.log = newer ++ b :: older →
    b.block = (audio.drop (shifted o older + s.feInput.bufferLength)).take
      (o.samplesReq b.nvec)
  tape : ∀ newer older, s.log = newer ++ older → s.feInput.bufferInit = true →
    tape o s.feInput.bufferLength s.first older =
      cells (shifted o older + s.feInput.bufferLength)
        (audio.take (shifted o older + s.feInput.bufferLength))

/-- The same where every batch is judged speech. -/
structure Streamed (o : VadOptions) (audio : List α) (s : VadSession α) : Prop where
  received : s.feInput.bufferInit = true →
    received s = audio.take (shifted o s.log + s.feInput.bufferLength)
  speech : ∀ b ∈ s.log, b.speech = true
  blocks : ∀ newer b older, s.log = newer ++ b :: older →
    b.block = (audio.drop (shifted o older + s.feInput.bufferLength)).take
      (o.samplesReq b.nvec)
  tape : ∀ newer older, s.log = newer ++ older → s.feInput.bufferInit = true →
    tape o s.feInput.bufferLength s.first older =
      cells (shifted o older + s.feInput.bufferLength)
        (audio.take (shifted o older + s.feInput.bufferLength))

/-- Reading `m` more samples after `n`. -/
theorem cells_append (audio : List α) (n m : Nat) :
    cells n (audio.take n) ++ cells m ((audio.drop n).take m) =
      cells (n + m) (audio.take (n + m)) := by
  by_cases hn : n ≤ audio.length
  · have hrest : m - ((audio.drop n).take m).length =
        n + m - (audio.take (n + m)).length := by
      simp only [List.length_take, List.length_drop]
      omega
    rw [cells_full (List.length_take_of_le hn), cells, cells, hrest, List.take_add, List.map_append,
      List.append_assoc]
  · have hdrop : audio.drop n = [] := List.drop_of_length_le (by omega)
    have hfirst : audio.take n = audio := List.take_of_length_le (by omega)
    have hboth : audio.take (n + m) = audio := List.take_of_length_le (by omega)
    have hsum : n + m - audio.length = n - audio.length + m := by omega
    rw [hdrop, hfirst, hboth]
    simp [cells, hsum]

/-- What is left after the samples received is what is left after those requested. -/
theorem drop_received (audio : List α) (n : Nat) :
    audio.drop (audio.take n).length = audio.drop n := by
  by_cases hn : n ≤ audio.length
  · rw [List.length_take, Nat.min_eq_left hn]
  · rw [List.take_of_length_le (by omega), List.drop_length,
      List.drop_of_length_le (by omega)]

theorem received_batch {s s' : VadSession α} {b : Batch α} (hlog : s'.log = b :: s.log)
    (hfirst : s'.first = s.first) : received s' = received s ++ b.block := by
  simp [received, hlog, hfirst]

theorem Queued.step {o : VadOptions} {audio : List α} {s s' : VadSession α}
    {l : VadLabel α} (hc : Calls o s) (h : Queued o audio s)
    (hok : Sourced o audio s l) (hs : (system o α).step s l = some s') :
    Queued o audio s' := by
  cases l with
  | call c first =>
      obtain ⟨-, ⟨-, rfl⟩ | ⟨-, -, -, hfe, -, hlog, hfirst⟩⟩ := enter_cases hs
      · exact h
      · rcases hfirst with ⟨hinit, -, hsame⟩ | ⟨hinit, hsame, -⟩
        · rw [initBuffer_of_init hinit] at hfe
          have hreceived : VadSession.received s' = VadSession.received s := by
            simp [VadSession.received, hlog, hsame]
          refine ⟨?_, ?_, ?_⟩
          · rw [hfe, hlog, hreceived]
            exact h.received
          · rw [hfe, hlog]
            exact h.blocks
          · rw [hfe, hlog, hsame]
            exact h.tape
        · obtain ⟨hnil, -⟩ := hc.fresh hinit
          have hfill : s'.first = audio.take s'.feInput.bufferLength := by
            rw [hsame, hfe]
            exact hok hinit
          refine ⟨fun _ => ?_, by simp [hlog, hnil], fun newer older hsplit _ => ?_⟩
          · simp [VadSession.received, hlog, hnil, shifted, hfill]
          · obtain ⟨-, rfl⟩ : newer = [] ∧ older = [] := by
              simpa [hlog, hnil] using hsplit
            simp [VadSession.tape, shifted, hfill]
  | batch speech block =>
      obtain ⟨c, b, hit, rfl, rfl⟩ := batch_iterated hs
      have hinit := hc.init hit.call
      have hrec := h.received hinit
      have hnext := hok c hit.call
      rw [hrec, drop_received] at hnext
      refine ⟨fun _ => ?_, ?_, fun newer older hsplit hinit' => ?_⟩
      · rw [received_batch hit.log hit.first, hrec, hnext, hit.log, hit.bufferLength,
          shifted_cons, hit.nvec, ← List.take_add]
        congr 1
        omega
      · rw [hit.log, hit.bufferLength]
        refine Transition.forall_split_cons.mpr ⟨?_, h.blocks⟩
        rw [hit.nvec, hnext]
      · rw [hit.log] at hsplit
        rw [hit.bufferLength, hit.first]
        cases newer with
        | nil =>
            obtain rfl : b :: s.log = older := hsplit
            have hlen : shifted o s.log + s.feInput.bufferLength + o.samplesReq c.nvec =
                shifted o (b :: s.log) + s.feInput.bufferLength := by
              rw [shifted_cons, hit.nvec]
              omega
            rw [VadSession.tape, h.tape [] s.log rfl hinit, hit.nvec, hnext, cells_append,
              hlen]
        | cons _ newer =>
            obtain ⟨-, hsplit⟩ := List.cons.inj hsplit
            exact h.tape newer older hsplit hinit

theorem queued_create (o : VadOptions) (audio : List α) :
    Queued o audio (create o : VadSession α) := by
  constructor <;> simp [create, OnlineVadFeInput.create]

theorem Streamed.queued {o : VadOptions} {audio : List α} {s : VadSession α}
    (h : Streamed o audio s) : Queued o audio s :=
  ⟨h.received, h.blocks, h.tape⟩

theorem Streamed.step {o : VadOptions} {audio : List α} {s s' : VadSession α}
    {l : VadLabel α} (hc : Calls o s) (h : Streamed o audio s)
    (hok : AllSpeech o audio s l) (hs : (system o α).step s l = some s') :
    Streamed o audio s' := by
  have hq := h.queued.step hc hok.sourced hs
  refine ⟨hq.received, ?_, hq.blocks, hq.tape⟩
  cases l with
  | call c first =>
      obtain ⟨-, ⟨-, rfl⟩ | ⟨-, -, -, -, -, hlog, -⟩⟩ := enter_cases hs
      · exact h.speech
      · rw [hlog]
        exact h.speech
  | batch speech block =>
      obtain ⟨c, b, hit, rfl, rfl⟩ := batch_iterated hs
      rw [hit.log]
      intro e he
      rcases List.mem_cons.mp he with rfl | he
      · exact hok.1
      · exact h.speech e he

theorem streamed_of_reachable {o : VadOptions} {audio : List α} {s : VadSession α}
    (h : (system o α).ReachableVia (AllSpeech o audio) s) : Streamed o audio s := by
  refine h.invariant (Streamed o audio) ?_ fun _ _ _ hr hok hi hs =>
    hi.step (calls_of_reachable hr) hok hs
  constructor <;> simp [system, create, OnlineVadFeInput.create]

/-- The requests of a log add up to a frame shift for each row. -/
theorem shifted_rows {o : VadOptions} {log : List (Batch α)} (hpos : ∀ b ∈ log, 0 < b.nvec) :
    shifted o log = (log.map fun b => b.nvec).sum * o.frameShift := by
  induction log with
  | nil => simp [shifted]
  | cons b older ih =>
      rw [shifted_cons, ih fun e he => hpos e (List.mem_cons_of_mem b he),
        o.samplesReq_eq (hpos b List.mem_cons_self), List.map_cons, List.sum_cons, Nat.add_mul]

theorem shifted_frames {o : VadOptions} {log : List (Batch α)}
    (hpos : ∀ b ∈ log, 0 < b.nvec) : ∃ m, shifted o log = m * o.frameShift :=
  ⟨_, shifted_rows hpos⟩

/-- Every place that has left the buffer did so in one of the iterations. -/
theorem exists_batch {o : VadOptions} {log : List (Batch α)} {p : Nat}
    (hp : p < shifted o log) :
    ∃ newer b older, log = newer ++ b :: older ∧ shifted o older ≤ p ∧
      p < shifted o older + o.samplesReq b.nvec := by
  induction log with
  | nil => simp [shifted] at hp
  | cons b older ih =>
      rw [shifted_cons] at hp
      by_cases hold : p < shifted o older
      · obtain ⟨newer, e, rest, rfl, hrest⟩ := ih hold
        exact ⟨b :: newer, e, rest, rfl, hrest⟩
      · exact ⟨[], b, older, rfl, by omega, by omega⟩

theorem shifted_same {o : VadOptions} {log : List (Batch α)} {nvec : Nat}
    (hsame : ∀ b ∈ log, b.nvec = nvec) :
    shifted o log = log.length * o.samplesReq nvec := by
  induction log with
  | nil => simp [shifted]
  | cons b older ih =>
      rw [shifted_cons, ih fun e he => hsame e (List.mem_cons_of_mem b he),
        hsame b List.mem_cons_self, List.length_cons, Nat.succ_mul]
      omega

/-- A window of the tape that lies within the audio is a window of the audio. -/
theorem window_cells {audio : List α} {n p m : Nat} (hn : p + m ≤ n)
    (haudio : p + m ≤ audio.length) :
    ((cells n (audio.take n)).drop p).take m = ((audio.drop p).take m).map some := by
  have hlen : p + m ≤ ((audio.take n).map some).length := by
    simp only [List.length_map, List.length_take]
    omega
  rw [cells, List.drop_append_of_le_length (by omega),
    List.take_append_of_le_length (by rw [List.length_drop]; omega), ← List.map_drop,
    ← List.map_take, List.drop_take, List.take_take, Nat.min_eq_left (by omega)]

section Handing

variable {o : VadOptions} {audio : List α} {s : VadSession α}

/-- A complete frame that begins before the end of what has left the buffer was
handed to the extractor. -/
theorem handed_of_lt (h : (system o α).ReachableVia (AllSpeech o audio) s)
    (hshift : 0 < o.frameShift) {f : Nat} (hf : Complete o audio f)
    (hlt : f * o.frameShift < shifted o s.log) : Handed o audio s.log f := by
  have hc := calls_of_reachable h.reachable
  have ht := taped_of_reachable h.reachable
  have hstream := streamed_of_reachable h
  obtain ⟨newer, b, older, hlog, hlo, hhi⟩ := exists_batch hlt
  have hmem : b ∈ s.log := by simp [hlog]
  have hinit : s.feInput.bufferInit = true := hc.init_of_mem hmem
  obtain ⟨hstart, -, hfeatures⟩ := ht.windows newer b older hlog
  obtain ⟨hpos, -, -⟩ := hc.log b hmem
  have hfits := hc.fits b hmem
  obtain ⟨m, hm⟩ : ∃ m, shifted o older = m * o.frameShift :=
    shifted_frames fun e he => (hc.log e (by simp [hlog, he])).1
  obtain ⟨k, rfl⟩ : ∃ k, f = m + k :=
    Nat.exists_eq_add_of_le (Nat.le_of_mul_le_mul_right (hm ▸ hlo) hshift)
  rw [o.samplesReq_eq hpos, hm, Nat.add_mul] at hhi
  have hk : k < b.nvec := Nat.lt_of_mul_lt_mul_right (Nat.lt_of_add_lt_add_left hhi)
  -- the frame ends within the front window
  have hend : k * o.frameShift + o.frameSize ≤ o.batchSize b.nvec := by
    have hsize := o.batchSize_add_shift hpos
    have hnext := Nat.mul_le_mul_right o.frameShift hk
    rw [Nat.succ_mul] at hnext
    rw [o.samplesReq_eq hpos] at hsize
    omega
  have hplace : b.start + k * o.frameShift = (m + k) * o.frameShift := by
    rw [hstart, hm, Nat.add_mul]
  have hwindow : b.features = some
      (((tape o s.feInput.bufferLength s.first older).drop b.start).take
        (o.batchSize b.nvec)) := by
    rw [hfeatures, hstream.speech b hmem]
    simp
  have hsplit : s.log = (newer ++ [b]) ++ older := by simp [hlog]
  refine ⟨b, hmem, _, k, hwindow, hk, hplace, ?_⟩
  rw [DelayLine.window_window hend, hplace, hstream.tape (newer ++ [b]) older hsplit hinit]
  refine window_cells ?_ hf
  rw [Nat.add_mul, ← hm]
  omega

/-- The frame that begins where the buffer now begins was not. -/
theorem not_handed (h : (system o α).Reachable s) (hshift : 0 < o.frameShift) {m : Nat}
    (hm : shifted o s.log = m * o.frameShift) : ¬ Handed o audio s.log m := by
  rintro ⟨b, hb, window, k, -, hk, hplace, -⟩
  obtain ⟨hpos, -, hlast⟩ := (calls_of_reachable h).log b hb
  have hnext := Nat.mul_lt_mul_of_pos_right hk hshift
  rw [o.samplesReq_eq hpos] at hlast
  omega

/-- **The last frames.**  With a source of `T` samples and speech throughout,
when a call returns false every complete frame has been handed to the extractor
exactly when `T` is less than one frame beyond the samples requested by all the
iterations; and when all calls ask for the same number of rows, these are so many
iterations as the source can fill after the buffer, and one more. -/
theorem handed_iff (h : (system o α).ReachableVia (AllSpeech o audio) s)
    {b : Batch α} {older : List (Batch α)} (hlog : s.log = b :: older)
    (hret : b.returned = some false) :
    ((∀ f, Complete o audio f → Handed o audio s.log f) ↔
      audio.length < shifted o s.log + o.frameSize) ∧
    ∀ nvec, (∀ e ∈ s.log, e.nvec = nvec) →
      (∀ e ∈ older, e.block.length = o.samplesReq e.nvec) →
      shifted o s.log = ((audio.length - s.feInput.bufferLength) / o.samplesReq nvec + 1) *
        o.samplesReq nvec := by
  have hc := calls_of_reachable h.reachable
  have hstream := streamed_of_reachable h
  obtain ⟨-, hshort, -⟩ := (taped_of_reachable h.reachable).windows [] b older hlog
  have hblock := hstream.blocks [] b older hlog
  replace hshort := hshort hret
  have hshift : 0 < o.frameShift := by
    have hzero := @samplesReq_eq_zero o b.nvec
    omega
  obtain ⟨m, hm⟩ := shifted_frames fun e he => (hc.log e he).1
  refine ⟨⟨fun hall => ?_, fun hlt f hf => ?_⟩, fun nvec hsame hfull => ?_⟩
  · by_contra hge
    refine not_handed h.reachable hshift hm (hall m ?_)
    rw [Complete, ← hm]
    omega
  · refine handed_of_lt h hshift hf ?_
    unfold Complete at hf
    omega
  · have hb : b.nvec = nvec := hsame b (by simp [hlog])
    have hcount : shifted o older = older.length * o.samplesReq nvec :=
      shifted_same fun e he => hsame e (by simp [hlog, he])
    have hlow : shifted o older ≤ audio.length - s.feInput.bufferLength := by
      cases older with
      | nil => exact Nat.zero_le _
      | cons e rest =>
          have hread := hfull e List.mem_cons_self
          have hpos := shift_le_samplesReq o (hc.log e (by simp [hlog])).1
          rw [hstream.blocks [b] e rest hlog, List.length_take, List.length_drop] at hread
          rw [shifted_cons]
          omega
    rw [hblock, List.length_take, List.length_drop, hb] at hshort
    have hdiv : (audio.length - s.feInput.bufferLength) / o.samplesReq nvec =
        older.length := by
      refine Nat.div_eq_of_lt_le (by omega) ?_
      rw [Nat.succ_mul]
      omega
    rw [hdiv, hlog, shifted_cons, hb, hcount, Nat.succ_mul]
    omega

end Handing

/-- A source of two samples fits into the first window. -/
theorem handed_two_samples :
    ∃ (s : VadSession Nat) (b : Batch Nat), s.log = [b] ∧ b.returned = some false ∧
      ∀ f, Complete twoSamples [5, 6] f → Handed twoSamples [5, 6] s.log f := by
  have hrun : ∃ s b, (system twoSamples Nat).runVia (AllSpeech twoSamples [5, 6])
      (create twoSamples) [.call ⟨1, none⟩ [5, 6], .batch true []] = some s ∧
      s.log = [b] ∧ b.returned = some false ∧ shifted twoSamples s.log = 1 :=
    ⟨_, _, rfl, rfl, rfl, rfl⟩
  obtain ⟨s, b, hs, hlog, hret, hshifted⟩ := hrun
  have hreach := Transition.System.ReachableVia.init.run hs
  refine ⟨s, b, hlog, hret, (handed_iff hreach hlog hret).1.mpr ?_⟩
  rw [hshifted]
  decide

/-- A source of five samples with a buffer of four: when the call returns false
the last frames are still in the buffer, and they are dropped. -/
theorem handed_not_all :
    ∃ (s : VadSession Nat) (b : Batch Nat),
      (system twoSamples Nat).ReachableVia (AllSpeech twoSamples [5, 6, 7, 8, 9]) s ∧
        s.log.head? = some b ∧ b.returned = some false ∧
        Complete twoSamples [5, 6, 7, 8, 9] 2 ∧
        ¬ Handed twoSamples [5, 6, 7, 8, 9] s.log 2 := by
  have hrun : ∃ s b, (system twoSamples Nat).runVia
      (AllSpeech twoSamples [5, 6, 7, 8, 9]) (create twoSamples)
      [.call ⟨1, none⟩ [5, 6, 7, 8], .batch true [9], .call ⟨1, none⟩ [], .batch true []] =
        some s ∧
      s.log.head? = some b ∧ b.returned = some false ∧
        shifted twoSamples s.log = 2 * twoSamples.frameShift :=
    ⟨_, _, rfl, rfl, rfl, rfl⟩
  obtain ⟨s, b, hs, hlog, hret, hshifted⟩ := hrun
  have hreach := Transition.System.ReachableVia.init.run hs
  exact ⟨s, b, hreach, hlog, hret, by unfold Complete; decide,
    not_handed hreach.reachable (by decide) hshifted⟩

end VadSession

end ThreadedServer
