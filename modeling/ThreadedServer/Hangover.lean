import ThreadedServer.OnlineVad

/-!
# When OnSpeechEnd fires

`hangoverCount_` is meant to measure the pause since the last speech: the end of
speech is held back until the pause is longer than the whole buffer, so that by
then everything that was judged to be speech has moved from the back of the
buffer to its front and has been extracted.

The counter is set back only by `OnSpeechStart`.  Speech that resumes while an
end is held back does not set it back, so that separate pauses add up.  In runs
in which that does not happen the counter is the pause, and this file shows what
the pause guarantees.
-/

namespace ThreadedServer

namespace VadSession

open OnlineVadFeInput

variable {α : Type*}

/-- `OnSpeechEnd` was fired in this iteration. -/
def Ends (b : Batch α) : Prop := ∃ i, (i, VadEvent.speechEnd) ∈ b.events

/-- The samples of the batches judged non-speech since the last one judged
speech, the newest batch included. -/
def pause (o : VadOptions) (log : List (Batch α)) : Nat :=
  shifted o (log.takeWhile fun b => !b.speech)

/-- The request of the last batch judged speech. -/
def lastSpeechReq (o : VadOptions) (log : List (Batch α)) : Nat :=
  match log.find? fun b => b.speech with
  | some b => o.samplesReq b.nvec
  | none => 0

/-- `DoVad` judged the sample at place `p` of the stream in this iteration. -/
def Judged (o : VadOptions) (bufferLength : Nat) (b : Batch α) (p : Nat) : Prop :=
  b.start + bufferLength ≤ p + o.samplesReq b.nvec ∧ p < b.start + bufferLength

/-- The sample at place `p` of the stream was in a window that the extractor was
given. -/
def Extracted (o : VadOptions) (log : List (Batch α)) (p : Nat) : Prop :=
  ∃ b ∈ log, b.features.isSome ∧ b.start ≤ p ∧ p < b.start + o.batchSize b.nvec

/-- What an end of speech has to find: a pause longer than the buffer, and every
sample of every batch judged speech extracted before. -/
structure EndFits (o : VadOptions) (bufferLength : Nat) (b : Batch α)
    (older : List (Batch α)) : Prop where
  pause : bufferLength < pause o (b :: older)
  kept : ∀ c ∈ older, c.speech → ∀ p, Judged o bufferLength c p → Extracted o older p

/-- Every end of speech in the log was right. -/
def EndsFit (o : VadOptions) (bufferLength : Nat) (log : List (Batch α)) : Prop :=
  ∀ newer b older, log = newer ++ b :: older → Ends b → EndFits o bufferLength b older

/-- Speech resumes while an end of speech is held back. -/
def Resumes (s : VadSession α) : VadLabel α → Prop
  | .batch speech _ =>
      speech = true ∧ s.feInput.batchVad = true ∧ 0 < s.feInput.hangoverCount
  | _ => False

/-- The end of speech comes with a request so large that it leaves the last
speech behind it in the buffer. -/
def Outruns (o : VadOptions) (s : VadSession α) : VadLabel α → Prop
  | .batch speech _ =>
      speech = false ∧ s.feInput.batchVad = true ∧
      (∃ c ∈ s.call,
        s.feInput.bufferLength < s.feInput.hangoverCount + o.samplesReq c.nvec) ∧
      s.feInput.hangoverCount + lastSpeechReq o s.log + o.frameSize <
        s.feInput.bufferLength + o.frameShift
  | _ => False

instance (s : VadSession α) (l : VadLabel α) : Decidable (Resumes s l) :=
  match l with
  | .call _ _ => inferInstanceAs (Decidable False)
  | .batch _ _ => inferInstanceAs (Decidable (_ ∧ _ ∧ _))

instance (o : VadOptions) (s : VadSession α) (l : VadLabel α) :
    Decidable (Outruns o s l) :=
  match l with
  | .call _ _ => inferInstanceAs (Decidable False)
  | .batch _ _ => inferInstanceAs (Decidable (_ ∧ _ ∧ (∃ c ∈ s.call, _) ∧ _))

/-- The steps the condition allows: speech does not resume while an end is held
back, and the end of speech does not outrun it. -/
def Steady (o : VadOptions) (s : VadSession α) (l : VadLabel α) : Prop :=
  ¬ Resumes s l ∧ ¬ Outruns o s l

instance (o : VadOptions) (s : VadSession α) (l : VadLabel α) :
    Decidable (Steady o s l) :=
  inferInstanceAs (Decidable (_ ∧ _))

/-! ## The log -/

section Log

variable {o : VadOptions} {b : Batch α} {log : List (Batch α)} {p : Nat}

theorem shifted_cons : shifted o (b :: log) = o.samplesReq b.nvec + shifted o log := by
  simp [shifted]

theorem pause_cons_speech (h : b.speech = true) : pause o (b :: log) = 0 := by
  simp [pause, h, shifted]

theorem pause_cons_silence (h : b.speech = false) :
    pause o (b :: log) = o.samplesReq b.nvec + pause o log := by
  simp [pause, h, shifted]

theorem lastSpeechReq_cons_speech (h : b.speech = true) :
    lastSpeechReq o (b :: log) = o.samplesReq b.nvec := by
  simp [lastSpeechReq, h]

theorem lastSpeechReq_cons_silence (h : b.speech = false) :
    lastSpeechReq o (b :: log) = lastSpeechReq o log := by
  simp [lastSpeechReq, h]

theorem Extracted.older (h : Extracted o log p) : Extracted o (b :: log) p := by
  obtain ⟨e, he, hrest⟩ := h
  exact ⟨e, List.mem_cons_of_mem b he, hrest⟩

theorem Extracted.newest (hf : b.features.isSome) (hlo : b.start ≤ p)
    (hhi : p < b.start + o.batchSize b.nvec) : Extracted o (b :: log) p :=
  ⟨b, List.mem_cons_self, hf, hlo, hhi⟩

theorem endsFit_nil {bufferLength : Nat} :
    EndsFit o bufferLength ([] : List (Batch α)) := by
  intro newer b older h
  simp at h

theorem EndsFit.cons {bufferLength : Nat} (h : EndsFit o bufferLength log)
    (hb : Ends b → EndFits o bufferLength b log) :
    EndsFit o bufferLength (b :: log) := by
  exact Transition.forall_split_cons.mpr ⟨hb, h⟩

end Log

/-! ## The calls -/

/-- What holds of the calls and the log in every run. -/
structure Calls (o : VadOptions) (s : VadSession α) : Prop where
  fresh : s.feInput.bufferInit = false → s.log = [] ∧ s.call = none ∧
    s.feInput.batchVad = false ∧ s.feInput.hangoverCount = 0
  call : ∀ c, s.call = some c → 0 < c.nvec ∧
    o.batchSize c.nvec ≤ s.feInput.bufferLength ∧
    o.samplesReq c.nvec ≤ s.feInput.bufferLength
  log : ∀ b ∈ s.log, 0 < b.nvec ∧ o.samplesReq b.nvec ≤ s.feInput.bufferLength ∧
    b.start + o.samplesReq b.nvec ≤ shifted o s.log
  fits : ∀ b ∈ s.log, o.batchSize b.nvec ≤ s.feInput.bufferLength
  last : ∀ b ∈ s.log, b.speech →
    b.start + lastSpeechReq o s.log + pause o s.log ≤ shifted o s.log
  latest : (∃ b ∈ s.log, b.speech) → ∃ b ∈ s.log, b.speech ∧
    o.samplesReq b.nvec = lastSpeechReq o s.log ∧
    b.start + o.samplesReq b.nvec + pause o s.log = shifted o s.log
  frame : s.feInput.bufferInit = true → o.frameSize ≤ s.feInput.bufferLength
  shift : s.log ≠ [] → o.frameShift ≤ s.feInput.bufferLength

/-- A call in progress has its buffer. -/
theorem Calls.init {o : VadOptions} {s : VadSession α} {c : ComputeCall}
    (h : Calls o s) (hcall : s.call = some c) : s.feInput.bufferInit = true := by
  by_contra hno
  have hnone := (h.fresh (by simpa using hno)).2.1
  rw [hcall] at hnone
  cases hnone

/-- A batch in the log had its buffer. -/
theorem Calls.init_of_mem {o : VadOptions} {s : VadSession α} {b : Batch α}
    (h : Calls o s) (hmem : b ∈ s.log) : s.feInput.bufferInit = true := by
  by_contra hno
  have hnil := (h.fresh (by simpa using hno)).1
  rw [hnil] at hmem
  cases hmem

theorem calls_create (o : VadOptions) : Calls o (create o : VadSession α) := by
  constructor <;> simp [create, OnlineVadFeInput.create]

theorem shift_le_samplesReq (o : VadOptions) {nvec : Nat} (h : 0 < nvec) :
    o.frameShift ≤ o.samplesReq nvec := by
  rw [o.samplesReq_eq h]
  exact Nat.le_mul_of_pos_left _ h

theorem samplesReq_eq_zero {o : VadOptions} {nvec : Nat} (h : o.frameShift = 0) :
    o.samplesReq nvec = 0 := by
  simp [VadOptions.samplesReq, VadOptions.batchSize, h]

theorem initBuffer_of_init {o : VadOptions} {fe : OnlineVadFeInput α} {nvec : Nat}
    {block : List α} (h : fe.bufferInit = true) : fe.initBuffer o nvec block = fe := by
  simp [initBuffer, h]

/-- Entering a call changes nothing that the log or the detector has to do
with. -/
theorem initBuffer_same {o : VadOptions} {fe : OnlineVadFeInput α} {nvec : Nat}
    {block : List α} :
    (fe.initBuffer o nvec block).batchVad = fe.batchVad ∧
      (fe.initBuffer o nvec block).hangoverCount = fe.hangoverCount ∧
      (fe.initBuffer o nvec block).bufferInit = true := by
  unfold initBuffer
  split
  case isTrue h => exact ⟨rfl, rfl, h⟩
  case isFalse => exact ⟨rfl, rfl, rfl⟩

/-- A call is entered: a new buffer is one before the first iteration. -/
theorem Calls.enter {o : VadOptions} {s s' : VadSession α} {c : ComputeCall} {first : List α}
    (h : Calls o s) (hs : s.enter o c first = some s') : Calls o s' := by
  obtain ⟨hcall, ⟨-, rfl⟩ | ⟨hpos, hbatch, hreq, hfe, hcall', hlog, -⟩⟩ := enter_cases hs
  · exact h
  · obtain ⟨hvad, hhang, hinit⟩ :=
      @initBuffer_same _ o s.feInput c.nvec first
    rw [← hfe] at hvad hhang hinit
    refine ⟨by simp [hinit], ?_, ?_, ?_, by rw [hlog]; exact h.last,
      by rw [hlog]; exact h.latest, fun _ => ?_, fun _ => ?_⟩
    · intro c' hc'
      obtain rfl : c = c' := Option.some.inj (hcall'.symm.trans hc')
      exact ⟨hpos, hbatch, hreq⟩
    · rw [hlog]
      cases hold : s.feInput.bufferInit with
      | false => simp [(h.fresh hold).1]
      | true =>
          rw [hfe, initBuffer_of_init hold]
          exact h.log
    · rw [hlog]
      cases hold : s.feInput.bufferInit with
      | false => simp [(h.fresh hold).1]
      | true =>
          rw [hfe, initBuffer_of_init hold]
          exact h.fits
    · exact Nat.le_trans (Nat.le_add_right _ _) hbatch
    · exact Nat.le_trans (shift_le_samplesReq o hpos) hreq

/-- No speech is later than the last one. -/
theorem Calls.last_cons {o : VadOptions} {s : VadSession α} {b : Batch α} (h : Calls o s)
    (hstart : b.start = shifted o s.log) :
    ∀ e ∈ b :: s.log, e.speech →
      e.start + lastSpeechReq o (b :: s.log) + pause o (b :: s.log) ≤ shifted o (b :: s.log) := by
  intro e he hspeech
  rcases List.mem_cons.mp he with rfl | he
  · rw [lastSpeechReq_cons_speech hspeech, pause_cons_speech hspeech, shifted_cons, hstart]
    omega
  · have hbefore := (h.log e he).2.2
    have hlast := h.last e he hspeech
    cases hb : b.speech with
    | true =>
        rw [lastSpeechReq_cons_speech hb, pause_cons_speech hb, shifted_cons]
        omega
    | false =>
        rw [lastSpeechReq_cons_silence hb, pause_cons_silence hb, shifted_cons]
        omega

/-- The last speech is a batch of the log. -/
theorem Calls.latest_cons {o : VadOptions} {s : VadSession α} {b : Batch α} (h : Calls o s)
    (hstart : b.start = shifted o s.log) (hspoken : ∃ e ∈ b :: s.log, e.speech) :
    ∃ e ∈ b :: s.log, e.speech ∧ o.samplesReq e.nvec = lastSpeechReq o (b :: s.log) ∧
      e.start + o.samplesReq e.nvec + pause o (b :: s.log) = shifted o (b :: s.log) := by
  obtain ⟨e, he, hspeech⟩ := hspoken
  cases hb : b.speech with
  | true =>
      refine ⟨b, List.mem_cons_self, hb, (lastSpeechReq_cons_speech hb).symm, ?_⟩
      rw [pause_cons_speech hb, shifted_cons, hstart]
      omega
  | false =>
      have hmem : e ∈ s.log := by
        rcases List.mem_cons.mp he with rfl | he
        · simp [hb] at hspeech
        · exact he
      obtain ⟨k, hk, hkspeech, hkreq, hkstart⟩ := h.latest ⟨e, hmem, hspeech⟩
      refine ⟨k, List.mem_cons_of_mem b hk, hkspeech, ?_, ?_⟩
      · rw [lastSpeechReq_cons_silence hb, hkreq]
      · rw [pause_cons_silence hb, shifted_cons]
        omega

theorem Calls.iterated {o : VadOptions} {s s' : VadSession α} {c : ComputeCall} {b : Batch α}
    (h : Calls o s) (hit : Iterated o s s' c b) : Calls o s' := by
  obtain ⟨hpos, hbatch, hreq⟩ := h.call c hit.call
  have hinit : s'.feInput.bufferInit = true := hit.bufferInit.trans (h.init hit.call)
  refine ⟨by simp [hinit], ?_, ?_, ?_, ?_, ?_, ?_, ?_⟩
  · intro c' hc'
    rw [hit.next] at hc'
    split at hc'
    · cases hc'
    · obtain rfl := Option.some.inj hc'
      rw [hit.bufferLength]
      exact ⟨hpos, hbatch, hreq⟩
  · intro e he
    rw [hit.log, shifted_cons]
    rw [hit.log] at he
    rw [hit.bufferLength]
    rcases List.mem_cons.mp he with rfl | he
    · rw [hit.nvec, hit.start]
      exact ⟨hpos, hreq, by omega⟩
    · obtain ⟨he₁, he₂, he₃⟩ := h.log e he
      exact ⟨he₁, he₂, by omega⟩
  · intro e he
    rw [hit.log] at he
    rw [hit.bufferLength]
    rcases List.mem_cons.mp he with rfl | he
    · rw [hit.nvec]
      exact hbatch
    · exact h.fits e he
  · rw [hit.log]
    exact h.last_cons hit.start
  · rw [hit.log]
    exact h.latest_cons hit.start
  · rw [hit.bufferLength, hit.bufferInit]
    exact h.frame
  · intro _
    rw [hit.bufferLength]
    exact Nat.le_trans (shift_le_samplesReq o hpos) hreq

theorem Calls.step {o : VadOptions} {s s' : VadSession α} {l : VadLabel α}
    (h : Calls o s) (hs : (system o α).step s l = some s') : Calls o s' := by
  cases l with
  | call c first => exact h.enter hs
  | batch speech block =>
      obtain ⟨c, b, hit, -, -⟩ := batch_iterated hs
      exact h.iterated hit

theorem calls_of_reachable {o : VadOptions} {s : VadSession α}
    (h : (system o α).Reachable s) : Calls o s :=
  h.invariant (Calls o) (calls_create o) fun _ _ _ hi he => hi.step he

/-! ## Runs in which speech does not resume -/

/-- What holds while the counter is the pause: the log so far has been right,
and in an utterance the extractor has been given everything since its start. -/
structure Paused (o : VadOptions) (s : VadSession α) : Prop where
  ends : EndsFit o s.feInput.bufferLength s.log
  idle : s.feInput.batchVad = false → ∀ b ∈ s.log, b.speech → ∀ p,
    Judged o s.feInput.bufferLength b p → Extracted o s.log p
  spoken : s.feInput.batchVad = true → ∃ b ∈ s.log, b.speech
  hangover : s.feInput.batchVad = true → s.feInput.hangoverCount = pause o s.log
  cover : s.feInput.batchVad = true → ∃ first ≤ shifted o s.log,
    (∀ p, first ≤ p → p + o.frameShift < shifted o s.log + o.frameSize →
      Extracted o s.log p) ∧
    ∀ b ∈ s.log, b.speech → ∀ p, Judged o s.feInput.bufferLength b p →
      Extracted o s.log p ∨ first ≤ p

theorem paused_create (o : VadOptions) : Paused o (create o : VadSession α) := by
  constructor <;> simp [create, OnlineVadFeInput.create, endsFit_nil]

/-- The windows of successive iterations leave no gap. -/
theorem cover_next {o : VadOptions} {b : Batch α} {log : List (Batch α)} {first : Nat}
    (hshift : o.frameShift ≤ o.frameSize) (hnvec : 0 < b.nvec)
    (hstart : b.start = shifted o log) (hf : b.features.isSome)
    (hcover : ∀ p, first ≤ p → p + o.frameShift < shifted o log + o.frameSize →
      Extracted o log p) :
    ∀ p, first ≤ p → p + o.frameShift < shifted o (b :: log) + o.frameSize →
      Extracted o (b :: log) p := by
  intro p hlo hhi
  rw [shifted_cons] at hhi
  have hsize := o.batchSize_add_shift hnvec
  by_cases hold : p + o.frameShift < shifted o log + o.frameSize
  · exact (hcover p hlo hold).older
  · exact Extracted.newest hf (by omega) (by omega)

/-- In silence there is nothing more to extract. -/
theorem extracted_of_silence {o : VadOptions} {b : Batch α} {log : List (Batch α)}
    {bufferLength : Nat} (hspeech : b.speech = false)
    (h : ∀ e ∈ log, e.speech → ∀ p, Judged o bufferLength e p → Extracted o log p) :
    ∀ e ∈ b :: log, e.speech → ∀ p, Judged o bufferLength e p → Extracted o (b :: log) p := by
  intro e he hspeech' p hp
  rcases List.mem_cons.mp he with rfl | he
  · simp [hspeech] at hspeech'
  · exact (h e he hspeech' p hp).older

/-- In an utterance the windows go on where they were. -/
theorem Paused.cover_kept {o : VadOptions} (hshift : o.frameShift ≤ o.frameSize)
    {s s' : VadSession α} {c : ComputeCall} {b : Batch α} (h : Paused o s)
    (hit : Iterated o s s' c b) (hnvec : 0 < b.nvec)
    (hreq : o.samplesReq b.nvec ≤ s.feInput.bufferLength)
    (hvad : s.feInput.batchVad = true) (hf : b.features.isSome) :
    ∃ first ≤ shifted o s'.log,
      (∀ p, first ≤ p → p + o.frameShift < shifted o s'.log + o.frameSize →
        Extracted o s'.log p) ∧
      ∀ e ∈ s'.log, e.speech → ∀ p, Judged o s'.feInput.bufferLength e p →
        Extracted o s'.log p ∨ first ≤ p := by
  obtain ⟨first, hfirst, hcover, hjudged⟩ := h.cover hvad
  refine ⟨first, ?_, ?_, ?_⟩
  · rw [hit.log, shifted_cons]
    omega
  · rw [hit.log]
    exact cover_next hshift hnvec hit.start hf hcover
  · rw [hit.log, hit.bufferLength]
    intro e he hspeech p hp
    rcases List.mem_cons.mp he with rfl | he
    · have hlo := hp.1
      rw [hit.start] at hlo
      exact Or.inr (by omega)
    · exact (hjudged e he hspeech p hp).imp_left Extracted.older

/-- Speech starts: from here on the extractor gets everything. -/
theorem Paused.cover_started {o : VadOptions} {s s' : VadSession α} {c : ComputeCall}
    {b : Batch α} (h : Paused o s) (hit : Iterated o s s' c b) (hnvec : 0 < b.nvec)
    (hreq : o.samplesReq b.nvec ≤ s.feInput.bufferLength)
    (hvad : s.feInput.batchVad = false) (hf : b.features.isSome) :
    ∃ first ≤ shifted o s'.log,
      (∀ p, first ≤ p → p + o.frameShift < shifted o s'.log + o.frameSize →
        Extracted o s'.log p) ∧
      ∀ e ∈ s'.log, e.speech → ∀ p, Judged o s'.feInput.bufferLength e p →
        Extracted o s'.log p ∨ first ≤ p := by
  have hstart := hit.start
  refine ⟨shifted o s.log, ?_, ?_, ?_⟩
  · rw [hit.log, shifted_cons]
    omega
  · rw [hit.log]
    intro p hlo hhi
    have hsize := o.batchSize_add_shift hnvec
    rw [shifted_cons] at hhi
    exact Extracted.newest hf (by omega) (by omega)
  · rw [hit.log, hit.bufferLength]
    intro e he hspeech p hp
    rcases List.mem_cons.mp he with rfl | he
    · have hlo := hp.1
      rw [hstart] at hlo
      exact Or.inr (by omega)
    · exact Or.inl (h.idle hvad e he hspeech p hp).older

/-- An iteration without an end of speech has nothing to fit. -/
theorem Paused.ends_kept {o : VadOptions} {s s' : VadSession α} {c : ComputeCall}
    {b : Batch α} (h : Paused o s) (hit : Iterated o s s' c b) (hno : ¬ Ends b) :
    EndsFit o s'.feInput.bufferLength s'.log := by
  rw [hit.log, hit.bufferLength]
  exact h.ends.cons fun hends => absurd hends hno

/-- An end of speech that is not outrun finds everything extracted. -/
theorem Paused.endFits {o : VadOptions} {s : VadSession α} {b : Batch α}
    (hc : Calls o s) (h : Paused o s) (hvad : s.feInput.batchVad = true)
    (hspeech : b.speech = false)
    (hlong : s.feInput.bufferLength < s.feInput.hangoverCount + o.samplesReq b.nvec)
    (hkept : s.feInput.bufferLength + o.frameShift ≤
      s.feInput.hangoverCount + lastSpeechReq o s.log + o.frameSize) :
    EndFits o s.feInput.bufferLength b s.log := by
  have hhang := h.hangover hvad
  refine ⟨?_, fun c hcmem hcspeech p hp => ?_⟩
  · rw [pause_cons_silence hspeech]
    omega
  · obtain ⟨first, -, hcover, hjudged⟩ := h.cover hvad
    rcases hjudged c hcmem hcspeech p hp with hdone | hlo
    · exact hdone
    · have hlast := hc.last c hcmem hcspeech
      exact hcover p hlo (by have := hp.2; omega)

theorem Paused.enter {o : VadOptions} {s s' : VadSession α} {c : ComputeCall}
    {first : List α} (hc : Calls o s) (h : Paused o s)
    (hs : s.enter o c first = some s') : Paused o s' := by
  obtain ⟨-, ⟨-, rfl⟩ | ⟨-, -, -, hfe, -, hlog, -⟩⟩ := enter_cases hs
  · exact h
  · obtain ⟨hvad, hhang, -⟩ :=
      @initBuffer_same _ o s.feInput c.nvec first
    rw [← hfe] at hvad hhang
    cases hinit : s.feInput.bufferInit with
    | true =>
        rw [initBuffer_of_init hinit] at hfe
        exact ⟨by rw [hlog, hfe]; exact h.ends, by rw [hlog, hfe]; exact h.idle,
          by rw [hlog, hfe]; exact h.spoken, by rw [hlog, hfe]; exact h.hangover,
          by rw [hlog, hfe]; exact h.cover⟩
    | false =>
        obtain ⟨hnil, -, hquiet, -⟩ := hc.fresh hinit
        constructor <;> simp [hlog, hnil, hvad, hquiet, endsFit_nil]

/-- **One iteration** in which speech does not resume and which does not outrun
the last speech. -/
theorem Paused.iterated {o : VadOptions} (ho : 0 < o.nVadListeners)
    (hshift : o.frameShift ≤ o.frameSize) {s s' : VadSession α} {c : ComputeCall}
    {b : Batch α} (hc : Calls o s) (h : Paused o s) (hit : Iterated o s s' c b)
    (hresume : ¬ (b.speech = true ∧ s.feInput.batchVad = true ∧ 0 < s.feInput.hangoverCount))
    (hkept : b.speech = false → s.feInput.batchVad = true →
      s.feInput.bufferLength < s.feInput.hangoverCount + o.samplesReq c.nvec →
      s.feInput.bufferLength + o.frameShift ≤
        s.feInput.hangoverCount + lastSpeechReq o s.log + o.frameSize) :
    Paused o s' := by
  obtain ⟨hpos, hbatch, hreq⟩ := hc.call c hit.call
  rw [← hit.nvec] at hpos hbatch hreq hkept
  have hactive : s.feInput.batchVad = true ∨ s'.feInput.batchVad = true →
      b.features.isSome := by
    intro hor
    rw [hit.features, hit.last, hit.vad]
    rcases hor with hv | hv <;> simp [hv]
  have hcase := hit.outcome ho
  rw [← hit.nvec] at hcase
  rcases hcase with ⟨hv, hsp, hv', hh, hev⟩ | ⟨hv, hsp, hv', hh, hev⟩ |
    ⟨hv, hsp, hv', hh, hev⟩ | ⟨hv, hsp, hv', hle, hh, hev⟩ | ⟨hv, hsp, hv', hlong, hev⟩
  · -- silence goes on
    have hends := h.ends_kept hit (by simp [Ends, hev])
    refine ⟨hends, fun _ => ?_, by simp [hv'], by simp [hv'], by simp [hv']⟩
    rw [hit.log, hit.bufferLength]
    exact extracted_of_silence hsp (h.idle hv)
  · -- speech starts
    have hends := h.ends_kept hit (by simp [Ends, hev])
    have hcover := h.cover_started hit hpos hreq hv (hactive (Or.inr hv'))
    refine ⟨hends, by simp [hv'], fun _ => ?_, fun _ => ?_, fun _ => hcover⟩
    · exact ⟨b, by simp [hit.log], hsp⟩
    · rw [hit.log, pause_cons_speech hsp, hh]
  · -- speech goes on; with nothing held back the counter is zero
    have hends := h.ends_kept hit (by simp [Ends, hev])
    have hcover := h.cover_kept hshift hit hpos hreq hv (hactive (Or.inl hv))
    refine ⟨hends, by simp [hv'], fun _ => ?_, fun _ => ?_, fun _ => hcover⟩
    · exact ⟨b, by simp [hit.log], hsp⟩
    · rw [hit.log, pause_cons_speech hsp, hh]
      by_contra hne
      exact hresume ⟨hsp, hv, Nat.pos_of_ne_zero hne⟩
  · -- the end of speech is held back
    have hends := h.ends_kept hit (by simp [Ends, hev])
    have hcover := h.cover_kept hshift hit hpos hreq hv (hactive (Or.inl hv))
    refine ⟨hends, by simp [hv'], fun _ => ?_, fun _ => ?_, fun _ => hcover⟩
    · obtain ⟨e, he, hspeech⟩ := h.spoken hv
      exact ⟨e, by simp [hit.log, he], hspeech⟩
    · rw [hit.log, pause_cons_silence hsp, hh, h.hangover hv]
      omega
  · -- speech ends
    have hfits := h.endFits hc hv hsp hlong (hkept hsp hv hlong)
    refine ⟨?_, fun _ => ?_, by simp [hv'], by simp [hv'], by simp [hv']⟩
    · rw [hit.log, hit.bufferLength]
      exact h.ends.cons fun _ => hfits
    · rw [hit.log, hit.bufferLength]
      exact extracted_of_silence hsp hfits.kept

theorem paused_of_steady {o : VadOptions} (ho : 0 < o.nVadListeners)
    (hshift : o.frameShift ≤ o.frameSize) {s : VadSession α}
    (h : (system o α).ReachableVia (Steady o) s) : Paused o s := by
  refine h.invariant (Paused o) (paused_create o) ?_
  intro s l s' hreach ⟨hresume, houtrun⟩ hp hs
  have hc := calls_of_reachable hreach
  cases l with
  | call c first => exact hp.enter hc hs
  | batch speech block =>
      obtain ⟨c, b, hit, rfl, -⟩ := batch_iterated hs
      refine hp.iterated ho hshift hc hit hresume fun hsp hv hlong => ?_
      by_contra hkept
      exact houtrun ⟨hsp, hv, ⟨c, hit.call, hlong⟩, by omega⟩

/-! ## The condition is needed -/

/-- In an utterance the counter is within the buffer, and one batch at least
unless nothing has been held back. -/
def CounterFits (o : VadOptions) (s : VadSession α) : Prop :=
  s.feInput.batchVad = true → s.feInput.hangoverCount ≤ s.feInput.bufferLength ∧
    (s.feInput.hangoverCount = 0 ∨
      0 < o.frameShift ∧ o.frameShift ≤ s.feInput.hangoverCount)

theorem counterFits_of_reachable {o : VadOptions} (ho : 0 < o.nVadListeners)
    {s : VadSession α} (h : (system o α).Reachable s) : CounterFits o s := by
  refine Transition.System.ReachableVia.invariant (CounterFits o) ?_ ?_ h
  · intro hv
    cases hv
  · intro s l s' hreach _ hfits hs hv'
    have hc := calls_of_reachable hreach
    cases l with
    | call c first =>
        obtain ⟨-, ⟨-, rfl⟩ | ⟨-, -, -, hfe, -, -, -⟩⟩ := enter_cases hs
        · exact hfits hv'
        · cases hinit : s.feInput.bufferInit with
          | true =>
              rw [initBuffer_of_init hinit] at hfe
              rw [hfe] at hv' ⊢
              exact hfits hv'
          | false =>
              rw [hfe, initBuffer_same.1, (hc.fresh hinit).2.2.1] at hv'
              cases hv'
    | batch speech block =>
        obtain ⟨c, b, hit, -, -⟩ := batch_iterated hs
        have hreq := shift_le_samplesReq o (hc.call c hit.call).1
        rw [hit.bufferLength]
        rcases hit.outcome ho with ⟨-, -, hno, -⟩ | ⟨-, -, -, hh, -⟩ | ⟨hv, -, -, hh, -⟩ |
          ⟨hv, -, -, hle, hh, -⟩ | ⟨-, -, hno, -⟩
        · rw [hno] at hv'
          cases hv'
        · omega
        · rw [hh]
          exact hfits hv
        · have hold := (hfits hv).2
          have hzero := @samplesReq_eq_zero o c.nvec
          by_cases hpos : 0 < o.frameShift <;> omega
        · rw [hno] at hv'
          cases hv'

/-- An iteration in an utterance is the last one of its call. -/
theorem Iterated.leaves {o : VadOptions} {s s' : VadSession α} {c : ComputeCall}
    {b : Batch α} (h : Iterated o s s' c b) (hv : s.feInput.batchVad = true) :
    s'.call = none := by
  rw [h.next, h.returned, h.last]
  simp [hv]

/-- One more batch of silence. -/
theorem silent_call [Inhabited α] {o : VadOptions} {s : VadSession α} (hc : Calls o s)
    (hcall : s.call = none) (hinit : s.feInput.bufferInit = true) (hlog : s.log ≠ []) :
    ∃ s' c b, (system o α).Leads s s' ∧ c.nvec = 1 ∧ b.speech = false ∧
      Iterated o { s with call := some c } s' c b := by
  have hreq : o.samplesReq 1 = o.frameShift := by
    rw [o.samplesReq_eq Nat.one_pos, Nat.one_mul]
  have hbatch : o.batchSize 1 = o.frameSize := by
    simp [VadOptions.batchSize]
  have henter : s.enter o ⟨1, none⟩ [] = some { s with call := some ⟨1, none⟩ } := by
    have hframe := hc.frame hinit
    have hshift := hc.shift hlog
    simp [enter, hcall, initBuffer_of_init hinit, hinit, hreq, hbatch, hframe, hshift]
  obtain ⟨s', hs'⟩ : ∃ s', ({ s with call := some ⟨1, none⟩ } : VadSession α).batch o false
      (List.replicate o.frameShift default) = some s' := by
    simp [batch, hreq]
  obtain ⟨c, b, hit, hsp, -⟩ := batch_iterated hs'
  obtain rfl : ⟨1, none⟩ = c := Option.some.inj hit.call
  have hstep : (system o α).step s (.call ⟨1, none⟩ []) =
      some { s with call := some ⟨1, none⟩ } := henter
  have hstep' : (system o α).step { s with call := some ⟨1, none⟩ }
      (.batch false (List.replicate o.frameShift default)) = some s' := hs'
  exact ⟨s', ⟨1, none⟩, b, .head hstep (.head hstep' (.refl _)), rfl, hsp, hit⟩

/-- A counter that is ahead of the pause reaches the end of the buffer first. -/
theorem early_end [Inhabited α] {o : VadOptions} (ho : 0 < o.nVadListeners)
    (hpos : 0 < o.frameShift) (k : Nat) {s : VadSession α}
    (hreach : (system o α).Reachable s)
    (hk : s.feInput.bufferLength < s.feInput.hangoverCount + k)
    (hcall : s.call = none) (hinit : s.feInput.bufferInit = true) (hlog : s.log ≠ [])
    (hv : s.feInput.batchVad = true)
    (hahead : pause o s.log + o.frameShift ≤ s.feInput.hangoverCount) :
    ∃ s', (system o α).Leads s s' ∧ ¬ EndsFit o s'.feInput.bufferLength s'.log := by
  induction k generalizing s with
  | zero =>
      have := (counterFits_of_reachable ho hreach hv).1
      omega
  | succ k ih =>
      obtain ⟨s', c, b, hleads, hnvec, hsp, hit⟩ :=
        silent_call (calls_of_reachable hreach) hcall hinit hlog
      have hreach' := hreach.leads hleads
      have hreq : o.samplesReq c.nvec = o.frameShift := by
        rw [hnvec, o.samplesReq_eq Nat.one_pos, Nat.one_mul]
      have hpause : pause o s'.log = o.frameShift + pause o s.log := by
        rw [hit.log, pause_cons_silence hsp, hit.nvec, hreq]
      have hlen := hit.bufferLength
      simp only at hlen
      rcases hit.outcome ho with ⟨hno, -⟩ | ⟨hno, -⟩ | ⟨-, hno, -⟩ |
        ⟨-, -, hv', hle, hh, -⟩ | ⟨-, -, -, hlong, hev⟩
      · cases hv.symm.trans hno
      · cases hv.symm.trans hno
      · cases hsp.symm.trans hno
      · simp only [hreq] at hle hh
        obtain ⟨s'', hleads', hbad⟩ := ih hreach' (by omega) (hit.leaves hv)
          (by rw [hit.bufferInit]; exact hinit) (by simp [hit.log]) hv' (by omega)
        exact ⟨s'', hleads.trans hleads', hbad⟩
      · refine ⟨s', hleads, fun hfit => ?_⟩
        have hends : Ends b := ⟨0, by simp [hev, ho]⟩
        have hpause' := (hfit [] b s.log (by simp [hit.log]) hends).pause
        have hcount := (counterFits_of_reachable ho hreach hv).1
        rw [← hit.log, hpause] at hpause'
        omega

/-- After speech has resumed, silence ends the utterance too early. -/
theorem resumes_ends_early [Inhabited α] {o : VadOptions} (ho : 0 < o.nVadListeners)
    {s s' : VadSession α} {l : VadLabel α} (hreach : (system o α).Reachable s)
    (hs : (system o α).step s l = some s') (hl : Resumes s l) :
    ∃ s'', (system o α).Leads s' s'' ∧ ¬ EndsFit o s''.feInput.bufferLength s''.log := by
  cases l with
  | call c first => exact absurd hl id
  | batch speech block =>
      have hc := calls_of_reachable hreach
      have hreach' : (system o α).Reachable s' := .step hreach trivial hs
      obtain ⟨c, b, hit, rfl, -⟩ := batch_iterated hs
      obtain ⟨hsp, hv, hheld⟩ := hl
      obtain ⟨hpos, hcount⟩ : 0 < o.frameShift ∧
          o.frameShift ≤ s.feInput.hangoverCount := by
        rcases (counterFits_of_reachable ho hreach hv).2 with hzero | hcount
        · omega
        · exact hcount
      rcases hit.outcome ho with ⟨hno, -⟩ | ⟨hno, -⟩ | ⟨-, -, hv', hh, -⟩ |
        ⟨-, hno, -⟩ | ⟨-, hno, -⟩
      · cases hv.symm.trans hno
      · cases hv.symm.trans hno
      · refine early_end ho hpos (s'.feInput.bufferLength + 1) hreach' (by omega)
          (hit.leaves hv) ?_ (by simp [hit.log]) hv' ?_
        · rw [hit.bufferInit]
          by_contra hno
          have hnone := (hc.fresh (by simpa using hno)).2.2.1
          cases hv.symm.trans hnone
        · rw [hit.log, pause_cons_speech hsp, hh]
          omega
      · cases hsp.symm.trans hno
      · cases hsp.symm.trans hno

/-- An end of speech that outruns the last speech leaves a sample of it in the
buffer. -/
theorem outruns_cuts {o : VadOptions} (ho : 0 < o.nVadListeners)
    (hshift : o.frameShift ≤ o.frameSize) {s s' : VadSession α} {l : VadLabel α}
    (hreach : (system o α).ReachableVia (Steady o) s)
    (hs : (system o α).step s l = some s') (hl : Outruns o s l) :
    ¬ EndsFit o s'.feInput.bufferLength s'.log := by
  cases l with
  | call c first => exact absurd hl id
  | batch speech block =>
      intro hfit
      have hc := calls_of_reachable hreach.reachable
      have hp := paused_of_steady ho hshift hreach
      obtain ⟨c, b, hit, rfl, -⟩ := batch_iterated hs
      obtain ⟨hsp, hv, ⟨c', hcall, hlong⟩, hbehind⟩ := hl
      obtain rfl : c = c' := Option.some.inj (hit.call.symm.trans hcall)
      have hends : Ends b := by
        rcases hit.outcome ho with ⟨hno, -⟩ | ⟨hno, -⟩ | ⟨-, hno, -⟩ |
          ⟨-, -, -, hle, -⟩ | ⟨-, -, -, -, hev⟩
        · cases hv.symm.trans hno
        · cases hv.symm.trans hno
        · cases hsp.symm.trans hno
        · omega
        · exact ⟨0, by simp [hev, ho]⟩
      have hkept := (hfit [] b s.log hit.log hends).kept
      obtain ⟨k, hk, hkspeech, hkreq, hkstart⟩ := hc.latest (hp.spoken hv)
      have hhang := hp.hangover hv
      have hkpos := hc.log k hk
      have hkshift := shift_le_samplesReq o hkpos.1
      have hpos : 0 < o.frameShift := by
        have hzero := @samplesReq_eq_zero o c.nvec
        omega
      -- the last sample of the last speech
      obtain ⟨e, he, -, -, hlast⟩ := hkept k hk hkspeech
        (k.start + s.feInput.bufferLength - 1) (by rw [hit.bufferLength]; constructor <;> omega)
      have hefit := hc.log e he
      have hsize := o.batchSize_add_shift hefit.1
      omega

/-- **The end of speech.**  In every run in which speech does not resume while an
end is held back, and no end outruns the last speech, `OnSpeechEnd` fires only
after a pause longer than the buffer, with all speech extracted.  Both conditions
are needed: once speech has resumed, silence fires the end too early, and an end
that outruns the last speech leaves a sample of it in the buffer. -/
theorem speechEnd_fits [Inhabited α] {o : VadOptions} (ho : 0 < o.nVadListeners)
    (hshift : o.frameShift ≤ o.frameSize) :
    (∀ s, (system o α).ReachableVia (Steady o) s →
      EndsFit o s.feInput.bufferLength s.log) ∧
    (∀ s l s', (system o α).Reachable s → (system o α).step s l = some s' →
      Resumes s l → ∃ s'', (system o α).Leads s' s'' ∧
        ¬ EndsFit o s''.feInput.bufferLength s''.log) ∧
    (∀ s l s', (system o α).ReachableVia (Steady o) s →
      (system o α).step s l = some s' → Outruns o s l →
        ¬ EndsFit o s'.feInput.bufferLength s'.log) :=
  ⟨fun _ h => (paused_of_steady ho hshift h).ends,
    fun _ _ _ h hs hl => resumes_ends_early ho h hs hl,
    fun _ _ _ h hs hl => outruns_cuts ho hshift h hs hl⟩

/-- A frame and a buffer of one sample, and one listener. -/
def oneSample : VadOptions := ⟨1, 1, 0, 1⟩

/-- One batch of speech and two of silence, the second of which is the end. -/
theorem speechEnd_fits_one_utterance :
    ∃ s : VadSession Nat, (s.log.map fun b => b.events) =
      [[(0, .speechEnd)], [], [(0, .speechStart)]] ∧
      EndsFit oneSample s.feInput.bufferLength s.log := by
  have hrun : ∃ s, (system oneSample Nat).runVia (Steady oneSample) (create oneSample)
      [.call ⟨1, none⟩ [5], .batch true [6], .call ⟨1, none⟩ [], .batch false [7],
        .call ⟨1, none⟩ [], .batch false [8]] = some s ∧
      (s.log.map fun b => b.events) = [[(0, .speechEnd)], [], [(0, .speechStart)]] :=
    ⟨_, rfl, by decide⟩
  obtain ⟨s, hs, hevents⟩ := hrun
  exact ⟨s, hevents, (speechEnd_fits (by decide) (by decide)).1 s
    (Transition.System.ReachableVia.init.run hs)⟩

/-- Speech and silence alternate, and the second pause, of one sample, is already
taken for the end. -/
theorem speechEnd_after_short_pauses :
    ∃ s : VadSession Nat, (system oneSample Nat).Reachable s ∧
      ¬ EndsFit oneSample s.feInput.bufferLength s.log := by
  have hrun : ∃ s, (system oneSample Nat).runFrom (create oneSample)
      [.call ⟨1, none⟩ [5], .batch true [6], .call ⟨1, none⟩ [], .batch false [7],
        .call ⟨1, none⟩ [], .batch true [8], .call ⟨1, none⟩ [], .batch false [9]] =
      some s ∧ s.feInput.bufferLength = 1 ∧ ∃ b older, s.log = b :: older ∧ Ends b ∧
        pause oneSample (b :: older) = 1 :=
    ⟨_, rfl, rfl, _, _, rfl, ⟨0, by decide⟩, by decide⟩
  obtain ⟨s, hs, hlen, b, older, hlog, hends, hpause⟩ := hrun
  refine ⟨s, Transition.System.reachable_of_run hs, fun hfit => ?_⟩
  have hlong := (hfit [] b older hlog hends).pause
  omega

end VadSession

end ThreadedServer
