import Mathlib.Algebra.Order.Ring.Nat
import ThreadedServer.Transition

/-!
# Samples from a microphone

PortAudio calls `Callback` on a thread of its own whenever it has recorded a frame, and
`OnlinePaSource` puts what fits into a ring buffer.  `Read` looks every two milliseconds
whether as many samples as it was asked for are there, or whether its time is over.

The ring buffer is PortAudio's, and a parameter here: what is documented of it is that it is
a queue which takes what there is room for and gives what there is, and that one thread may
write while another one reads, so that each of its operations takes effect at one moment.
All else is taken line by line: the callback can come between looking and fetching, and
between any two lines of the report of overflows.  `samples_lost_` has no lock, and adding to
it is a load and a store.  Kaldi is taken to be verbose enough to write the report.  The
time that the loop finds elapsed is left open.

No sample in the ring is lost, repeated or moved.  Samples are lost only when the ring is
full, and each of them is counted once, as far as 32 bits go and as long as the report and
the callback do not get at `samples_lost_` together.  A `Read` for more than the ring can
hold, and without a timeout, does not return.
-/

namespace ThreadedServer

/-- The functions of PortAudio's ring buffer that `OnlinePaSource` calls. -/
structure PaUtilRingBuffer (Ring α : Type*) where
  initializeRingBuffer : Ring
  getRingBufferReadAvailable : Ring → Nat
  getRingBufferWriteAvailable : Ring → Nat
  /-- with the number of elements written -/
  writeRingBuffer : Ring → List α → Ring × Nat
  /-- with the elements read -/
  readRingBuffer : Ring → Nat → Ring × List α

/-- What is documented of a ring for `capacity` elements, where `content` is what there is
to read. -/
structure PaUtilRingBuffer.Documented {Ring α : Type*} (B : PaUtilRingBuffer Ring α)
    (capacity : Nat) (content : Ring → List α) : Prop where
  empty : content B.initializeRingBuffer = []
  readAvailable : ∀ r, B.getRingBufferReadAvailable r = (content r).length
  writeAvailable : ∀ r, B.getRingBufferWriteAvailable r = capacity - (content r).length
  written : ∀ r data,
    (B.writeRingBuffer r data).2 = min data.length (capacity - (content r).length)
  write : ∀ r data,
    content (B.writeRingBuffer r data).1 = content r ++ data.take (B.writeRingBuffer r data).2
  samples : ∀ r n, (B.readRingBuffer r n).2 = (content r).take n
  read : ∀ r n, content (B.readRingBuffer r n).1 = (content r).drop n

/-- The members of `OnlinePaSource` that change. -/
structure OnlinePaSource (Ring : Type*) where
  paRingbuf : Ring
  paStarted : Bool
  nreadCalls : Nat
  noverflows : Nat
  samplesLost : Nat
  deriving DecidableEq, Repr

/-- The stream is started the first time `Read` is called, and calls are counted if overflows
are reported. -/
def OnlinePaSource.start {Ring : Type*} (reportInterval : Nat) (source : OnlinePaSource Ring) :
    OnlinePaSource Ring :=
  { source with
    paStarted := true
    nreadCalls :=
      if reportInterval ≠ 0 then (source.nreadCalls + 1) % 2 ^ 32 else source.nreadCalls }

/-- The lines of the report. -/
inductive PaReport
  /-- `noverflows_ > 0` -/
  | test
  | readOverflows
  /-- `noverflows_` has been read -/
  | readLost (noverflows : Nat)
  /-- `samples_lost_ = noverflows_ = 0`, which begins with the latter -/
  | resetOverflows
  | resetLost
  deriving DecidableEq, Repr

/-- Where a call of `Read` is. -/
inductive PaRead
  | outside
  | report (line : PaReport) (dim : Nat) (timeout : Option Nat)
  /-- in the loop; `dim` is `data->Dim()` -/
  | waiting (dim : Nat) (timeout : Option Nat)
  /-- behind the loop; `left` is what `timeout` points to now -/
  | fetching (dim : Nat) (timeout : Option Nat) (nsamplesReq : Nat) (left : Option Nat)
  deriving DecidableEq, Repr

/-- Where a call of `Callback` is. -/
inductive PaCallback (α : Type*)
  | idle
  | checking (frame : List α)
  /-- `++noverflows_` -/
  | loadOverflows (frame : List α)
  | storeOverflows (frame : List α) (noverflows : Nat)
  | writing (frame : List α)
  /-- `samples_lost_ += frame_count - written` -/
  | loadLost (missing : Nat)
  | storeLost (missing samplesLost : Nat)
  deriving DecidableEq, Repr

/-- What has happened. -/
inductive PaEvent (α : Type*)
  | callback (frame : List α) (written : Nat)
  | report (noverflows samplesLost : Nat)
  | read (dim : Nat) (timeout : Option Nat) (samples : List α) (left : Option Nat)
  deriving DecidableEq, Repr

/-- A source, the calls in progress, and what has happened, the last first. -/
structure PaSession (Ring α : Type*) where
  source : OnlinePaSource Ring
  read : PaRead
  callback : PaCallback α
  log : List (PaEvent α)
  deriving DecidableEq, Repr

/-- The steps of the two threads. -/
inductive PaLabel (α : Type*)
  /-- `Read` is called -/
  | call (dim : Nat) (timeout : Option Nat)
  /-- it takes the next line of the report -/
  | report
  /-- its loop looks at the ring when so many milliseconds have elapsed -/
  | poll (elapsed : Nat)
  /-- it takes the samples and returns -/
  | fetch
  /-- PortAudio delivers a frame -/
  | deliver (frame : List α)
  /-- `Callback` takes its next line -/
  | callback
  deriving DecidableEq, Repr

/-- `Read` has read `samples_lost_` for the report and not set it to zero yet. -/
def PaRead.midReport : PaRead → Bool
  | .report .resetOverflows _ _ => true
  | .report .resetLost _ _ => true
  | _ => false

/-- The next line of `Read` reads `samples_lost_` for the report. -/
def PaRead.readsLost : PaRead → Bool
  | .report (.readLost _) _ _ => true
  | _ => false

/-- The samples that `Callback` has yet to add to `samples_lost_`. -/
def PaCallback.missing {α : Type*} : PaCallback α → Nat
  | .loadLost missing => missing
  | .storeLost missing _ => missing
  | _ => 0

def PaCallback.loadsLost {α : Type*} : PaCallback α → Bool
  | .loadLost _ => true
  | _ => false

def PaCallback.storesLost {α : Type*} : PaCallback α → Bool
  | .storeLost _ _ => true
  | _ => false

namespace PaSession

variable {Ring α : Type*} (B : PaUtilRingBuffer Ring α) (reportInterval : Nat)

def create : PaSession Ring α :=
  ⟨⟨B.initializeRingBuffer, false, 0, 0, 0⟩, .outside, .idle, []⟩

/-- The beginning of `Read`. -/
def call (s : PaSession Ring α) (dim : Nat) (timeout : Option Nat) :
    Option (PaSession Ring α) :=
  match s.read with
  | .outside =>
      let source := s.source.start reportInterval
      some { s with
        source := source
        read :=
          if reportInterval ≠ 0 ∧ source.nreadCalls % reportInterval = 0 then
            .report .test dim timeout
          else .waiting dim timeout }
  | _ => none

/-- One line of the report. -/
def reportLine (s : PaSession Ring α) (dim : Nat) (timeout : Option Nat) :
    PaReport → PaSession Ring α
  | .test =>
      { s with
        read :=
          if 0 < s.source.noverflows then .report .readOverflows dim timeout
          else .waiting dim timeout }
  | .readOverflows => { s with read := .report (.readLost s.source.noverflows) dim timeout }
  | .readLost noverflows =>
      { s with
        read := .report .resetOverflows dim timeout
        log := .report noverflows s.source.samplesLost :: s.log }
  | .resetOverflows =>
      { s with
        source := { s.source with noverflows := 0 }
        read := .report .resetLost dim timeout }
  | .resetLost =>
      { s with
        source := { s.source with samplesLost := 0 }
        read := .waiting dim timeout }

def report (s : PaSession Ring α) : Option (PaSession Ring α) :=
  match s.read with
  | .report line dim timeout => some (s.reportLine dim timeout line)
  | _ => none

/-- One iteration of the loop of `Read`. -/
def poll (s : PaSession Ring α) (elapsed : Nat) : Option (PaSession Ring α) :=
  match s.read with
  | .waiting dim timeout =>
      let nsamples := B.getRingBufferReadAvailable s.source.paRingbuf
      if dim ≤ nsamples then some { s with read := .fetching dim timeout dim timeout }
      else
        match timeout with
        | none => some s
        | some ms =>
            if ms < elapsed then
              some { s with read := .fetching dim timeout nsamples (some 0) }
            else some s
  | _ => none

/-- `PaUtil_ReadRingBuffer`, and the return of `Read`. -/
def fetch (s : PaSession Ring α) : Option (PaSession Ring α) :=
  match s.read with
  | .fetching dim timeout nsamplesReq left =>
      let rcv := B.readRingBuffer s.source.paRingbuf nsamplesReq
      some { s with
        source := { s.source with paRingbuf := rcv.1 }
        read := .outside
        log := .read dim timeout rcv.2 left :: s.log }
  | _ => none

/-- The beginning of `Callback`, once the stream has been started. -/
def deliver (s : PaSession Ring α) (frame : List α) : Option (PaSession Ring α) :=
  match s.callback with
  | .idle =>
      if s.source.paStarted then
        some { s with
          callback := if reportInterval ≠ 0 then .checking frame else .writing frame }
      else none
  | _ => none

/-- One line of `Callback`. -/
def callbackLine (s : PaSession Ring α) : Option (PaSession Ring α) :=
  match s.callback with
  | .idle => none
  | .checking frame =>
      some { s with
        callback :=
          if B.getRingBufferWriteAvailable s.source.paRingbuf < frame.length then
            .loadOverflows frame
          else .writing frame }
  | .loadOverflows frame => some { s with callback := .storeOverflows frame s.source.noverflows }
  | .storeOverflows frame noverflows =>
      some { s with
        source := { s.source with noverflows := (noverflows + 1) % 2 ^ 32 }
        callback := .writing frame }
  | .writing frame =>
      let written := B.writeRingBuffer s.source.paRingbuf frame
      some { s with
        source := { s.source with paRingbuf := written.1 }
        callback := .loadLost (frame.length - written.2)
        log := .callback frame written.2 :: s.log }
  | .loadLost missing => some { s with callback := .storeLost missing s.source.samplesLost }
  | .storeLost missing samplesLost =>
      some { s with
        source := { s.source with samplesLost := (samplesLost + missing) % 2 ^ 32 }
        callback := .idle }

def step (s : PaSession Ring α) : PaLabel α → Option (PaSession Ring α)
  | .call dim timeout => s.call reportInterval dim timeout
  | .report => s.report
  | .poll elapsed => s.poll B elapsed
  | .fetch => s.fetch B
  | .deliver frame => s.deliver reportInterval frame
  | .callback => s.callbackLine B

/-- The two threads in every interleaving. -/
def system : Transition.System (PaSession Ring α) (PaLabel α) where
  init := create B
  step := step B reportInterval

/-- The report and the callback do not get at `samples_lost_` together: the report does not
read it between the callback's load and store, and the callback does not load it before the
report has set it to zero. -/
def Apart (s : PaSession Ring α) : PaLabel α → Prop
  | .report => ¬ (s.read.readsLost ∧ s.callback.storesLost)
  | .callback => ¬ (s.callback.loadsLost ∧ s.read.midReport)
  | _ => True

instance (s : PaSession Ring α) (l : PaLabel α) : Decidable (Apart s l) :=
  match l with
  | .call _ _ => .isTrue trivial
  | .report => inferInstanceAs (Decidable (¬ (s.read.readsLost ∧ s.callback.storesLost)))
  | .poll _ => .isTrue trivial
  | .fetch => .isTrue trivial
  | .deliver _ => .isTrue trivial
  | .callback => inferInstanceAs (Decidable (¬ (s.callback.loadsLost ∧ s.read.midReport)))

/-! ## What has happened -/

/-- The samples that were written to the ring. -/
def accepted : List (PaEvent α) → List α
  | [] => []
  | .callback frame written :: older => accepted older ++ frame.take written
  | .report _ _ :: older => accepted older
  | .read _ _ _ _ :: older => accepted older

/-- The samples that `Read` has delivered. -/
def returned : List (PaEvent α) → List α
  | [] => []
  | .callback _ _ :: older => returned older
  | .report _ _ :: older => returned older
  | .read _ _ samples _ :: older => returned older ++ samples

/-- How many samples PortAudio has delivered. -/
def delivered : List (PaEvent α) → Nat
  | [] => 0
  | .callback frame _ :: older => delivered older + frame.length
  | .report _ _ :: older => delivered older
  | .read _ _ _ _ :: older => delivered older

/-- How many samples there was no room for. -/
def lost : List (PaEvent α) → Nat
  | [] => 0
  | .callback frame written :: older => lost older + (frame.length - written)
  | .report _ _ :: older => lost older
  | .read _ _ _ _ :: older => lost older

/-- How many of these have been reported. -/
def reportedLost : List (PaEvent α) → Nat
  | [] => 0
  | .callback _ _ :: older => reportedLost older
  | .report _ samplesLost :: older => reportedLost older + samplesLost
  | .read _ _ _ _ :: older => reportedLost older

/-- What each event has to do with those before it: a callback writes what fits, and `Read`
delivers what it was asked for, or less when its time was over. -/
def Fits (capacity : Nat) (older : List (PaEvent α)) : PaEvent α → Prop
  | .callback frame written =>
      written = min frame.length
        (capacity - ((accepted older).length - (returned older).length))
  | .report _ _ => True
  | .read dim timeout samples left =>
      samples.length = dim ∧ left = timeout ∨
        samples.length < dim ∧ timeout.isSome ∧ left = some 0

/-- What holds in every interleaving. -/
structure Inv (capacity : Nat) (content : Ring → List α) (s : PaSession Ring α) : Prop where
  stream : accepted s.log = returned s.log ++ content s.source.paRingbuf
  room : (content s.source.paRingbuf).length ≤ capacity
  started : s.read ≠ .outside → s.source.paStarted = true
  fetching : ∀ dim timeout nsamplesReq left, s.read = .fetching dim timeout nsamplesReq left →
    nsamplesReq ≤ (content s.source.paRingbuf).length ∧
      (nsamplesReq = dim ∧ left = timeout ∨
        nsamplesReq < dim ∧ timeout.isSome ∧ left = some 0)
  log : ∀ newer e older, s.log = newer ++ e :: older → Fits capacity older e

/-- Where the lost samples are counted, in the runs in which report and callback stay apart:
what `Read` has reported and not set to zero yet is counted as reported. -/
structure Counted (s : PaSession Ring α) : Prop where
  total : (reportedLost s.log + (if s.read.midReport then 0 else s.source.samplesLost) +
    s.callback.missing) % 2 ^ 32 = lost s.log % 2 ^ 32
  loaded : ∀ missing samplesLost, s.callback = .storeLost missing samplesLost →
    samplesLost = s.source.samplesLost ∧ s.read.midReport = false

section Steps

variable {B : PaUtilRingBuffer Ring α} {reportInterval capacity : Nat}
  {content : Ring → List α} {s s' : PaSession Ring α}

/-- What a call of `Read` changes. -/
theorem call_cases {dim : Nat} {timeout : Option Nat}
    (h : s.call reportInterval dim timeout = some s') :
    s.read = .outside ∧
      s' = { s with source := s.source.start reportInterval, read := s'.read } ∧
      (s'.read = .report .test dim timeout ∨ s'.read = .waiting dim timeout) := by
  unfold call at h
  split at h
  case h_2 => cases h
  case h_1 hread =>
    obtain rfl := Option.some.inj h
    refine ⟨hread, rfl, ?_⟩
    show ite _ _ _ = _ ∨ ite _ _ _ = _
    split
    · exact .inl rfl
    · exact .inr rfl

/-- The report goes line by line. -/
theorem report_cases (h : s.report = some s') :
    ∃ line dim timeout, s.read = .report line dim timeout ∧ s' = s.reportLine dim timeout line := by
  unfold report at h
  split at h
  case h_2 => cases h
  case h_1 line dim timeout hread => exact ⟨line, dim, timeout, hread, (Option.some.inj h).symm⟩

/-- What a look at the ring changes. -/
theorem poll_cases {elapsed : Nat} (h : s.poll B elapsed = some s') :
    ∃ dim timeout, s.read = .waiting dim timeout ∧ s' = { s with read := s'.read } ∧
      (dim ≤ B.getRingBufferReadAvailable s.source.paRingbuf ∧
          s'.read = .fetching dim timeout dim timeout ∨
        B.getRingBufferReadAvailable s.source.paRingbuf < dim ∧ s'.read = .waiting dim timeout ∨
        B.getRingBufferReadAvailable s.source.paRingbuf < dim ∧ timeout.isSome ∧
          s'.read = .fetching dim timeout
            (B.getRingBufferReadAvailable s.source.paRingbuf) (some 0)) := by
  unfold poll at h
  split at h
  case h_2 => cases h
  case h_1 dim timeout hread =>
    refine ⟨dim, timeout, hread, ?_⟩
    by_cases henough : dim ≤ B.getRingBufferReadAvailable s.source.paRingbuf
    · rw [if_pos henough] at h
      obtain rfl := Option.some.inj h
      exact ⟨rfl, .inl ⟨henough, rfl⟩⟩
    · rw [if_neg henough] at h
      have hless := Nat.not_le.mp henough
      cases timeout with
      | none =>
          obtain rfl := Option.some.inj h
          exact ⟨rfl, .inr (.inl ⟨hless, hread⟩)⟩
      | some ms =>
          by_cases hover : ms < elapsed
          · obtain rfl := Option.some.inj ((if_pos hover).symm.trans h)
            exact ⟨rfl, .inr (.inr ⟨hless, rfl, rfl⟩)⟩
          · obtain rfl := Option.some.inj ((if_neg hover).symm.trans h)
            exact ⟨rfl, .inr (.inl ⟨hless, hread⟩)⟩

/-- What the end of `Read` changes. -/
theorem fetch_cases (h : s.fetch B = some s') :
    ∃ dim timeout nsamplesReq left, s.read = .fetching dim timeout nsamplesReq left ∧
      s' = { s with
        source := { s.source with
          paRingbuf := (B.readRingBuffer s.source.paRingbuf nsamplesReq).1 }
        read := .outside
        log := .read dim timeout (B.readRingBuffer s.source.paRingbuf nsamplesReq).2 left ::
          s.log } := by
  unfold fetch at h
  split at h
  case h_2 => cases h
  case h_1 dim timeout nsamplesReq left hread =>
    exact ⟨dim, timeout, nsamplesReq, left, hread, (Option.some.inj h).symm⟩

/-- What the beginning of `Callback` changes. -/
theorem deliver_cases {frame : List α} (h : s.deliver reportInterval frame = some s') :
    s.callback = .idle ∧ s.source.paStarted = true ∧ s' = { s with callback := s'.callback } ∧
      (s'.callback = .checking frame ∨ s'.callback = .writing frame) := by
  unfold deliver at h
  split at h
  case h_2 => cases h
  case h_1 hidle =>
    obtain ⟨hstarted, hs'⟩ := Option.ite_none_right_eq_some.mp h
    obtain rfl := Option.some.inj hs'
    refine ⟨hidle, hstarted, rfl, ?_⟩
    show ite _ _ _ = _ ∨ ite _ _ _ = _
    split
    · exact .inl rfl
    · exact .inr rfl

/-- What a line of `Callback` changes: the ring and the log only where it writes. -/
theorem callbackLine_cases (h : s.callbackLine B = some s') :
    (∃ frame, s.callback = .writing frame ∧
        s' = { s with
          source := { s.source with
            paRingbuf := (B.writeRingBuffer s.source.paRingbuf frame).1 }
          callback := .loadLost
            (frame.length - (B.writeRingBuffer s.source.paRingbuf frame).2)
          log := .callback frame (B.writeRingBuffer s.source.paRingbuf frame).2 :: s.log }) ∨
      (∃ missing, s.callback = .loadLost missing ∧
        s' = { s with callback := .storeLost missing s.source.samplesLost }) ∨
      (∃ missing samplesLost, s.callback = .storeLost missing samplesLost ∧
        s' = { s with
          source := { s.source with samplesLost := (samplesLost + missing) % 2 ^ 32 }
          callback := .idle }) ∨
      s.callback.missing = 0 ∧ s'.callback.missing = 0 ∧ s'.callback.storesLost = false ∧
        s' = { s with
          source := { s.source with noverflows := s'.source.noverflows }
          callback := s'.callback } := by
  unfold callbackLine at h
  split at h
  case h_1 => cases h
  case h_2 frame hcallback =>
    obtain rfl := Option.some.inj h
    refine .inr (.inr (.inr ⟨by rw [hcallback]; rfl, ?_, ?_, rfl⟩))
    all_goals
      dsimp only
      split <;> rfl
  case h_3 frame hcallback =>
    obtain rfl := Option.some.inj h
    exact .inr (.inr (.inr ⟨by rw [hcallback]; rfl, rfl, rfl, rfl⟩))
  case h_4 frame noverflows hcallback =>
    obtain rfl := Option.some.inj h
    exact .inr (.inr (.inr ⟨by rw [hcallback]; rfl, rfl, rfl, rfl⟩))
  case h_5 frame hcallback => exact .inl ⟨frame, hcallback, (Option.some.inj h).symm⟩
  case h_6 missing hcallback =>
    exact .inr (.inl ⟨missing, hcallback, (Option.some.inj h).symm⟩)
  case h_7 missing samplesLost hcallback =>
    exact .inr (.inr (.inl ⟨missing, samplesLost, hcallback, (Option.some.inj h).symm⟩))

theorem inv_create (hB : B.Documented capacity content) : Inv capacity content (create B) := by
  refine ⟨?_, ?_, fun h => absurd rfl h, fun _ _ _ _ h => ?_, ?_⟩
  · exact hB.empty.symm
  · show (content B.initializeRingBuffer).length ≤ capacity
    rw [hB.empty]
    exact Nat.zero_le _
  · cases h
  · intro newer e older h
    cases newer <;> cases h

/-- A step of `Read` outside the ring. -/
theorem Inv.frame (h : Inv capacity content s)
    (hring : s'.source.paRingbuf = s.source.paRingbuf) (hstarted : s'.source.paStarted = true)
    (hread : ∀ dim timeout nsamplesReq left, s'.read ≠ .fetching dim timeout nsamplesReq left)
    (hlog : s'.log = s.log ∨
      ∃ noverflows samplesLost, s'.log = .report noverflows samplesLost :: s.log) :
    Inv capacity content s' := by
  refine ⟨?_, ?_, fun _ => hstarted, fun d t n l hl => absurd hl (hread d t n l), ?_⟩
  · rw [hring]
    obtain hlog | ⟨noverflows, samplesLost, hlog⟩ := hlog
    · rw [hlog]
      exact h.stream
    · rw [hlog]
      exact h.stream
  · rw [hring]
    exact h.room
  · obtain hlog | ⟨noverflows, samplesLost, hlog⟩ := hlog
    · rw [hlog]
      exact h.log
    · rw [hlog]
      exact Transition.forall_split_cons.mpr ⟨trivial, h.log⟩

theorem Inv.call {dim : Nat} {timeout : Option Nat} (h : Inv capacity content s)
    (hs : s.call reportInterval dim timeout = some s') : Inv capacity content s' := by
  obtain ⟨-, hs', hread⟩ := call_cases hs
  rw [hs']
  refine h.frame rfl rfl ?_ (.inl rfl)
  intro d t n l hl
  obtain hread | hread := hread
  · cases hread.symm.trans hl
  · cases hread.symm.trans hl

theorem Inv.report (h : Inv capacity content s) (hs : s.report = some s') :
    Inv capacity content s' := by
  obtain ⟨line, dim, timeout, hread, rfl⟩ := report_cases hs
  have hstarted : s.source.paStarted = true := by
    apply h.started
    rw [hread]
    exact PaRead.noConfusion
  cases line with
  | test =>
      refine h.frame rfl hstarted ?_ (.inl rfl)
      intro d t n l hl
      obtain ⟨-, hl⟩ | ⟨-, hl⟩ := ite_eq_iff.mp hl
      · cases hl
      · cases hl
  | readOverflows => exact h.frame rfl hstarted (fun _ _ _ _ => PaRead.noConfusion) (.inl rfl)
  | readLost noverflows =>
      exact h.frame rfl hstarted (fun _ _ _ _ => PaRead.noConfusion) (.inr ⟨_, _, rfl⟩)
  | resetOverflows => exact h.frame rfl hstarted (fun _ _ _ _ => PaRead.noConfusion) (.inl rfl)
  | resetLost => exact h.frame rfl hstarted (fun _ _ _ _ => PaRead.noConfusion) (.inl rfl)

theorem Inv.poll (hB : B.Documented capacity content) {elapsed : Nat}
    (h : Inv capacity content s) (hs : s.poll B elapsed = some s') : Inv capacity content s' := by
  obtain ⟨dim, timeout, hread, hs', hcases⟩ := poll_cases hs
  rw [hB.readAvailable] at hcases
  have hstarted : s.source.paStarted = true := by
    apply h.started
    rw [hread]
    exact PaRead.noConfusion
  rw [hs']
  refine ⟨h.stream, h.room, fun _ => hstarted, ?_, h.log⟩
  intro d t n l hl
  rcases hcases with ⟨henough, hread'⟩ | ⟨-, hread'⟩ | ⟨hless, htimeout, hread'⟩
  · cases hread'.symm.trans hl
    exact ⟨henough, .inl ⟨rfl, rfl⟩⟩
  · cases hread'.symm.trans hl
  · cases hread'.symm.trans hl
    exact ⟨Nat.le_refl _, .inr ⟨hless, htimeout, rfl⟩⟩

theorem Inv.fetch (hB : B.Documented capacity content) (h : Inv capacity content s)
    (hs : s.fetch B = some s') : Inv capacity content s' := by
  obtain ⟨dim, timeout, nsamplesReq, left, hread, rfl⟩ := fetch_cases hs
  obtain ⟨hle, hresult⟩ := h.fetching _ _ _ _ hread
  have hlength : ((content s.source.paRingbuf).take nsamplesReq).length = nsamplesReq :=
    List.length_take_of_le hle
  refine ⟨?_, ?_, fun hin => absurd rfl hin, fun _ _ _ _ hl => PaRead.noConfusion hl, ?_⟩
  · show accepted s.log = returned s.log ++ _ ++ content _
    rw [hB.samples, hB.read, List.append_assoc, List.take_append_drop]
    exact h.stream
  · show (content _).length ≤ capacity
    rw [hB.read, List.length_drop]
    exact Nat.le_trans (Nat.sub_le _ _) h.room
  · refine Transition.forall_split_cons.mpr ⟨?_, h.log⟩
    rw [Fits, hB.samples, hlength]
    exact hresult

theorem Inv.deliver {frame : List α} (h : Inv capacity content s)
    (hs : s.deliver reportInterval frame = some s') : Inv capacity content s' := by
  obtain ⟨-, -, hs', -⟩ := deliver_cases hs
  rw [hs']
  exact ⟨h.stream, h.room, h.started, h.fetching, h.log⟩

theorem Inv.callbackLine (hB : B.Documented capacity content) (h : Inv capacity content s)
    (hs : s.callbackLine B = some s') : Inv capacity content s' := by
  obtain ⟨frame, -, rfl⟩ | ⟨missing, -, rfl⟩ | ⟨missing, samplesLost, -, rfl⟩ |
    ⟨-, -, -, hs'⟩ := callbackLine_cases hs
  · have hlength : (accepted s.log).length - (returned s.log).length =
        (content s.source.paRingbuf).length := by
      rw [h.stream, List.length_append]
      omega
    have hroom := h.room
    have hwritten := hB.written s.source.paRingbuf frame
    refine ⟨?_, ?_, h.started, ?_, ?_⟩
    · show accepted s.log ++ _ = returned s.log ++ content _
      rw [h.stream, hB.write, List.append_assoc]
    · show (content _).length ≤ capacity
      rw [hB.write, List.length_append, List.length_take]
      omega
    · intro d t n l hl
      obtain ⟨hle, hresult⟩ := h.fetching d t n l hl
      refine ⟨?_, hresult⟩
      show n ≤ (content _).length
      rw [hB.write, List.length_append]
      omega
    · refine Transition.forall_split_cons.mpr ⟨?_, h.log⟩
      rw [Fits, hlength]
      exact hwritten
  · exact ⟨h.stream, h.room, h.started, h.fetching, h.log⟩
  · exact ⟨h.stream, h.room, h.started, h.fetching, h.log⟩
  · rw [hs']
    exact ⟨h.stream, h.room, h.started, h.fetching, h.log⟩

theorem Inv.step (hB : B.Documented capacity content) {l : PaLabel α}
    (h : Inv capacity content s) (hs : (system B reportInterval).step s l = some s') :
    Inv capacity content s' := by
  cases l with
  | call dim timeout => exact h.call hs
  | report => exact h.report hs
  | poll elapsed => exact h.poll hB hs
  | fetch => exact h.fetch hB hs
  | deliver frame => exact h.deliver hs
  | callback => exact h.callbackLine hB hs

theorem inv_of_reachable (hB : B.Documented capacity content)
    (h : (system B reportInterval).Reachable s) : Inv capacity content s :=
  h.invariant (Inv capacity content) (inv_create hB) fun _ _ _ hinv hs => hinv.step hB hs

/-! ## The samples that were lost -/

/-- Where the callback is not about to store, only the sum matters. -/
theorem Counted.of_not_stores (hstores : s.callback.storesLost = false)
    (htotal : (reportedLost s.log + (if s.read.midReport then 0 else s.source.samplesLost) +
      s.callback.missing) % 2 ^ 32 = lost s.log % 2 ^ 32) : Counted s := by
  refine ⟨htotal, ?_⟩
  intro missing samplesLost hstore
  rw [hstore] at hstores
  cases hstores

theorem counted_create : Counted (create B : PaSession Ring α) :=
  Counted.of_not_stores rfl rfl

/-- Steps of `Read` that leave the count alone. -/
theorem Counted.frame (h : Counted s) (hlost : s'.source.samplesLost = s.source.samplesLost)
    (hread : s'.read.midReport = s.read.midReport) (hcallback : s'.callback = s.callback)
    (hreported : reportedLost s'.log = reportedLost s.log) (hlog : lost s'.log = lost s.log) :
    Counted s' := by
  refine ⟨?_, ?_⟩
  · rw [hlost, hread, hcallback, hreported, hlog]
    exact h.total
  · rw [hcallback, hlost, hread]
    exact h.loaded

theorem Counted.report (h : Counted s) (hok : Apart s .report) (hs : s.report = some s') :
    Counted s' := by
  obtain ⟨line, dim, timeout, hread, rfl⟩ := report_cases hs
  have htotal := h.total
  cases line with
  | test =>
      refine h.frame rfl ?_ rfl rfl rfl
      rw [hread]
      show (ite _ _ _ : PaRead).midReport = false
      split <;> rfl
  | readOverflows =>
      refine h.frame rfl ?_ rfl rfl rfl
      rw [hread]
      rfl
  | readLost noverflows =>
      rw [hread] at htotal
      refine ⟨?_, ?_⟩
      · exact htotal
      · intro missing samplesLost hstore
        refine absurd ⟨?_, ?_⟩ hok
        · rw [hread]
          rfl
        · rw [show s.callback = _ from hstore]
          rfl
  | resetOverflows =>
      refine h.frame rfl ?_ rfl rfl rfl
      rw [hread]
      rfl
  | resetLost =>
      rw [hread] at htotal
      refine ⟨htotal, ?_⟩
      intro missing samplesLost hstore
      have hmid := (h.loaded missing samplesLost hstore).2
      rw [hread] at hmid
      cases hmid

theorem Counted.callbackLine (h : Counted s) (hok : Apart s .callback)
    (hs : s.callbackLine B = some s') : Counted s' := by
  have htotal := h.total
  obtain ⟨frame, hcallback, rfl⟩ | ⟨missing, hcallback, rfl⟩ |
    ⟨missing, samplesLost, hcallback, rfl⟩ | ⟨hmissing, hmissing', hstores, hs'⟩ :=
    callbackLine_cases hs
  · rw [hcallback] at htotal
    refine Counted.of_not_stores rfl ?_
    simp only [reportedLost, lost, PaCallback.missing] at htotal ⊢
    omega
  · rw [hcallback] at htotal
    refine ⟨htotal, ?_⟩
    intro m v hstore
    cases hstore
    refine ⟨rfl, ?_⟩
    rw [← Bool.not_eq_true]
    intro hmid
    refine hok ⟨?_, hmid⟩
    rw [hcallback]
    rfl
  · obtain ⟨hloaded, hmid⟩ := h.loaded missing samplesLost hcallback
    rw [hcallback, hmid] at htotal
    refine Counted.of_not_stores rfl ?_
    simp only [hmid, PaCallback.missing, hloaded] at htotal ⊢
    simp only [Bool.false_eq_true, if_false] at htotal ⊢
    omega
  · rw [hs']
    refine Counted.of_not_stores hstores ?_
    show (_ + _ + s'.callback.missing) % _ = _
    rw [hmissing']
    rw [hmissing] at htotal
    exact htotal

theorem Counted.step {l : PaLabel α} (h : Counted s) (hok : Apart s l)
    (hs : (system B reportInterval).step s l = some s') : Counted s' := by
  cases l with
  | call dim timeout =>
      obtain ⟨hread, hs', hread'⟩ := call_cases hs
      rw [hs']
      refine h.frame rfl ?_ rfl rfl rfl
      rw [hread]
      obtain hread' | hread' := hread'
      · exact (congrArg PaRead.midReport hread').trans rfl
      · exact (congrArg PaRead.midReport hread').trans rfl
  | report => exact h.report hok hs
  | poll elapsed =>
      obtain ⟨dim, timeout, hread, hs', hcases⟩ := poll_cases hs
      rw [hs']
      refine h.frame rfl ?_ rfl rfl rfl
      rw [hread]
      rcases hcases with ⟨-, hread'⟩ | ⟨-, hread'⟩ | ⟨-, -, hread'⟩
      · exact (congrArg PaRead.midReport hread').trans rfl
      · exact (congrArg PaRead.midReport hread').trans rfl
      · exact (congrArg PaRead.midReport hread').trans rfl
  | fetch =>
      obtain ⟨dim, timeout, nsamplesReq, left, hread, rfl⟩ := fetch_cases hs
      refine h.frame rfl ?_ rfl rfl rfl
      rw [hread]
      rfl
  | deliver frame =>
      obtain ⟨hidle, -, hs', hcallback⟩ := deliver_cases hs
      have htotal := h.total
      rw [hidle] at htotal
      rw [hs']
      obtain hcallback | hcallback := hcallback
      · rw [hcallback]
        exact Counted.of_not_stores rfl htotal
      · rw [hcallback]
        exact Counted.of_not_stores rfl htotal
  | callback => exact h.callbackLine hok hs

theorem counted_of_reachable (h : (system B reportInterval).ReachableVia Apart s) : Counted s :=
  h.invariant Counted counted_create fun _ _ _ _ hok hcounted hs => hcounted.step hok hs

/-- **The samples of the microphone.**  In every interleaving of the two threads: what was
written to the ring is what `Read` has delivered, in order, and what is in the ring; each
callback has written as much as there was room for; and each `Read` has delivered what it was
asked for, or less when its time was over, and then it has said so.  In runs in which the
report and the callback do not get at `samples_lost_` together, the samples that there was
no room for are those that have been reported and those that will be, whenever no callback
and no report is under way. -/
theorem samples_in_order (hB : B.Documented capacity content)
    (h : (system B reportInterval).Reachable s) :
    accepted s.log = returned s.log ++ content s.source.paRingbuf ∧
      (∀ newer e older, s.log = newer ++ e :: older → Fits capacity older e) ∧
      ((system B reportInterval).ReachableVia Apart s →
        s.callback = .idle → s.read.midReport = false →
          (reportedLost s.log + s.source.samplesLost) % 2 ^ 32 = lost s.log % 2 ^ 32) := by
  have hinv := inv_of_reachable hB h
  refine ⟨hinv.stream, hinv.log, ?_⟩
  intro hvia hidle hmid
  have htotal := (counted_of_reachable hvia).total
  rw [hidle, hmid] at htotal
  exact htotal

end Steps

/-- A ring for four samples. -/
def fourSamples : PaUtilRingBuffer (List Nat) Nat where
  initializeRingBuffer := []
  getRingBufferReadAvailable := List.length
  getRingBufferWriteAvailable := fun r => 4 - r.length
  writeRingBuffer := fun r data =>
    (r ++ data.take (4 - r.length), min data.length (4 - r.length))
  readRingBuffer := fun r n => (r.drop n, r.take n)

theorem fourSamples_documented : fourSamples.Documented 4 id where
  empty := rfl
  readAvailable := fun _ => rfl
  writeAvailable := fun _ => rfl
  written := fun _ _ => rfl
  write := by
    intro r data
    show r ++ data.take (4 - r.length) = r ++ data.take (min data.length (4 - r.length))
    rw [Nat.min_comm, ← List.take_take, List.take_length]
  samples := fun _ _ => rfl
  read := fun _ _ => rfl

/-- `Callback` from the frame to its end, when it finds too little room. -/
def overflow (frame : List Nat) : List (PaLabel Nat) :=
  .deliver frame :: List.replicate 6 .callback

/-- Six samples are delivered, two of them are lost, and the second call reports them. -/
theorem samples_in_order_six : ∃ s : PaSession (List Nat) Nat,
    s.log = [.report 1 2, .read 2 (some 10) [1, 2] (some 10), .callback [1, 2, 3, 4, 5, 6] 4] ∧
      accepted s.log = returned s.log ++ [3, 4] ∧ (2 + s.source.samplesLost) % 2 ^ 32 = 2 := by
  have hrun : ∃ s, (system fourSamples 2).runVia Apart (create fourSamples)
      (.call 2 (some 10) :: overflow [1, 2, 3, 4, 5, 6] ++
        [.poll 0, .fetch, .call 5 none, .report, .report, .report, .report, .report]) = some s ∧
      s.log = [.report 1 2, .read 2 (some 10) [1, 2] (some 10),
        .callback [1, 2, 3, 4, 5, 6] 4] ∧
      s.source.paRingbuf = [3, 4] ∧ s.callback = .idle ∧ s.read.midReport = false :=
    ⟨_, rfl, rfl, rfl, rfl, rfl⟩
  obtain ⟨s, hs, hlog, hring, hidle, hmid⟩ := hrun
  have hvia : (system fourSamples 2).ReachableVia Apart s :=
    Transition.System.ReachableVia.init.run hs
  obtain ⟨hstream, -, hcounted⟩ := samples_in_order fourSamples_documented hvia.reachable
  have htotal := hcounted hvia hidle hmid
  refine ⟨s, hlog, ?_, ?_⟩
  · rw [← hring]
    exact hstream
  · rw [hlog] at htotal
    exact htotal

/-- The two lost samples are in no count: the callback adds to `samples_lost_` between the
report's reading and its setting to zero. -/
example : ∃ s : PaSession (List Nat) Nat,
    (system fourSamples 2).runFrom (create fourSamples)
      (.call 2 (some 10) :: overflow [1, 2, 3, 4, 5, 6] ++ [.poll 0, .fetch, .call 5 none] ++
        [.report, .report, .report] ++ overflow [7, 8, 9, 10] ++ [.report, .report]) = some s ∧
      s.callback = .idle ∧ s.read = .waiting 5 none ∧
      reportedLost s.log + s.source.samplesLost = 2 ∧ lost s.log = 4 :=
  ⟨_, rfl, rfl, rfl, rfl, rfl⟩

/-! ## Whether `Read` returns -/

section Returns

variable {B : PaUtilRingBuffer Ring α} {reportInterval capacity : Nat}
  {content : Ring → List α} {s s' u : PaSession Ring α} {dim : Nat}

/-- A `Read` without a timeout that has not returned yet. -/
def Awaits (dim : Nat) (s : PaSession Ring α) : Prop :=
  s.read = .waiting dim none ∨ s.read = .fetching dim none dim none

theorem deliver_read {frame : List α} (h : s.deliver reportInterval frame = some s') :
    s'.read = s.read := by
  obtain ⟨-, -, hs', -⟩ := deliver_cases h
  rw [hs']

theorem callbackLine_read (h : s.callbackLine B = some s') : s'.read = s.read := by
  obtain ⟨frame, -, rfl⟩ | ⟨missing, -, rfl⟩ | ⟨missing, samplesLost, -, rfl⟩ |
    ⟨-, -, -, hs'⟩ := callbackLine_cases h
  · rfl
  · rfl
  · rfl
  · rw [hs']

/-- In its loop, `Read` waits on or finds enough samples. -/
theorem waiting_step {l : PaLabel α} (hread : s.read = .waiting dim none)
    (hs : (system B reportInterval).step s l = some s') :
    s'.read = .waiting dim none ∨
      dim ≤ B.getRingBufferReadAvailable s.source.paRingbuf ∧
        s'.read = .fetching dim none dim none := by
  cases l with
  | call d t =>
      obtain ⟨houtside, -⟩ := call_cases hs
      cases houtside.symm.trans hread
  | report =>
      obtain ⟨line, d, t, hreport, -⟩ := report_cases hs
      cases hreport.symm.trans hread
  | poll elapsed =>
      obtain ⟨d, t, hwaiting, -, hcases⟩ := poll_cases hs
      cases hread.symm.trans hwaiting
      rcases hcases with ⟨henough, hread'⟩ | ⟨-, hread'⟩ | ⟨-, htimeout, -⟩
      · exact .inr ⟨henough, hread'⟩
      · exact .inl hread'
      · cases htimeout
  | fetch =>
      obtain ⟨d, t, n, l, hfetching, -⟩ := fetch_cases hs
      cases hfetching.symm.trans hread
  | deliver frame => exact .inl ((deliver_read hs).trans hread)
  | callback => exact .inl ((callbackLine_read hs).trans hread)

/-- Behind its loop, `Read` fetches the samples next. -/
theorem fetching_step {l : PaLabel α} (hread : s.read = .fetching dim none dim none)
    (hl : l ≠ .fetch) (hs : (system B reportInterval).step s l = some s') :
    s'.read = .fetching dim none dim none := by
  cases l with
  | call d t =>
      obtain ⟨houtside, -⟩ := call_cases hs
      cases houtside.symm.trans hread
  | report =>
      obtain ⟨line, d, t, hreport, -⟩ := report_cases hs
      cases hreport.symm.trans hread
  | poll elapsed =>
      obtain ⟨d, t, hwaiting, -⟩ := poll_cases hs
      cases hwaiting.symm.trans hread
  | fetch => exact absurd rfl hl
  | deliver frame => exact (deliver_read hs).trans hread
  | callback => exact (callbackLine_read hs).trans hread

theorem awaits_step {l : PaLabel α} (h : Awaits dim s) (hl : l ≠ .fetch)
    (hs : (system B reportInterval).step s l = some s') : Awaits dim s' := by
  obtain hread | hread := h
  · exact (waiting_step hread hs).imp id And.right
  · exact .inr (fetching_step hread hl hs)

/-- As long as nothing is fetched, the ring fills up with what is delivered. -/
theorem fills_step (hB : B.Documented capacity content) {l : PaLabel α} {base : Nat}
    (hinv : Inv capacity content s)
    (hfill : min capacity (delivered s.log - base) ≤ (content s.source.paRingbuf).length)
    (hl : l ≠ .fetch) (hs : (system B reportInterval).step s l = some s') :
    min capacity (delivered s'.log - base) ≤ (content s'.source.paRingbuf).length := by
  cases l with
  | call d t =>
      obtain ⟨-, hs', -⟩ := call_cases hs
      rw [hs']
      exact hfill
  | report =>
      obtain ⟨line, d, t, -, rfl⟩ := report_cases hs
      cases line with
      | test | readOverflows | readLost n | resetOverflows | resetLost => exact hfill
  | poll elapsed =>
      obtain ⟨d, t, -, hs', -⟩ := poll_cases hs
      rw [hs']
      exact hfill
  | fetch => exact absurd rfl hl
  | deliver frame =>
      obtain ⟨-, -, hs', -⟩ := deliver_cases hs
      rw [hs']
      exact hfill
  | callback =>
      obtain ⟨frame, -, rfl⟩ | ⟨missing, -, rfl⟩ | ⟨missing, samplesLost, -, rfl⟩ |
        ⟨-, -, -, hs'⟩ := callbackLine_cases hs
      · have hroom := hinv.room
        have hwritten := hB.written s.source.paRingbuf frame
        show min capacity (delivered s.log + frame.length - base) ≤ (content _).length
        rw [hB.write, List.length_append, List.length_take]
        omega
      · exact hfill
      · exact hfill
      · rw [hs']
        exact hfill

theorem fills_run (hB : B.Documented capacity content) {base : Nat} {ls : List (PaLabel α)}
    (hinv : Inv capacity content s) (hawaits : Awaits dim s)
    (hfill : min capacity (delivered s.log - base) ≤ (content s.source.paRingbuf).length)
    (hls : .fetch ∉ ls) (h : (system B reportInterval).runFrom s ls = some u) :
    Inv capacity content u ∧ Awaits dim u ∧
      min capacity (delivered u.log - base) ≤ (content u.source.paRingbuf).length := by
  induction ls generalizing s with
  | nil =>
      obtain rfl : s = u := Option.some.inj h
      exact ⟨hinv, hawaits, hfill⟩
  | cons l ls ih =>
      obtain ⟨t, ht, hrest⟩ := Option.bind_eq_some_iff.mp h
      obtain ⟨hl, hls⟩ := not_or.mp (mt List.mem_cons.mpr hls)
      exact ih (hinv.step hB ht) (awaits_step hawaits (Ne.symm hl) ht)
        (fills_step hB hinv hfill (Ne.symm hl) ht) hls hrest

variable (reportInterval) in
/-- Behind the loop, all samples asked for are taken. -/
theorem fetch_returns (hB : B.Documented capacity content) (hinv : Inv capacity content s)
    (hread : s.read = .fetching dim none dim none) :
    ∃ s', (system B reportInterval).runFrom s [.fetch] = some s' ∧ s'.read = .outside ∧
      ∃ samples, samples.length = dim ∧ s'.log = .read dim none samples none :: s.log := by
  have hfetch : ∃ s', s.fetch B = some s' ∧ s'.read = .outside ∧
      s'.log = .read dim none (B.readRingBuffer s.source.paRingbuf dim).2 none :: s.log := by
    rw [fetch, hread]
    exact ⟨_, rfl, rfl, rfl⟩
  obtain ⟨s', hs', houtside, hlog⟩ := hfetch
  refine ⟨s', Option.bind_eq_some_iff.mpr ⟨s', hs', rfl⟩, houtside, _, ?_, hlog⟩
  rw [hB.samples]
  exact List.length_take_of_le (hinv.fetching _ _ _ _ hread).1

variable (reportInterval) in
/-- With enough samples in the ring, the next look is the last. -/
theorem poll_returns (hB : B.Documented capacity content) (hinv : Inv capacity content s)
    (hread : s.read = .waiting dim none) (henough : dim ≤ (content s.source.paRingbuf).length)
    (elapsed : Nat) :
    ∃ s', (system B reportInterval).runFrom s [.poll elapsed, .fetch] = some s' ∧
      s'.read = .outside ∧
      ∃ samples, samples.length = dim ∧ s'.log = .read dim none samples none :: s.log := by
  have hpoll : s.poll B elapsed = some { s with read := .fetching dim none dim none } := by
    rw [poll, hread]
    exact if_pos (by rw [hB.readAvailable]; exact henough)
  obtain ⟨s', hs', hresult⟩ := fetch_returns reportInterval hB (hinv.poll hB hpoll) rfl
  exact ⟨s', Option.bind_eq_some_iff.mpr ⟨_, hpoll, hs'⟩, hresult⟩

/-- A `Read` for more than the ring can hold waits for ever. -/
theorem waits_for_ever (hB : B.Documented capacity content) (hread : s.read = .waiting dim none)
    (hinv : Inv capacity content s) (hdim : capacity < dim) {ls : List (PaLabel α)}
    (h : (system B reportInterval).runFrom s ls = some s') : s'.read = .waiting dim none := by
  refine (Transition.System.runFrom_invariant (fun s : PaSession Ring α =>
    s.read = .waiting dim none ∧ Inv capacity content s) ?_ ⟨hread, hinv⟩ h).1
  intro u l u' hu hs
  obtain ⟨hread, hinv⟩ := hu
  refine ⟨(waiting_step hread hs).resolve_right ?_, hinv.step hB hs⟩
  intro hfound
  have henough := hfound.1
  rw [hB.readAvailable] at henough
  have hroom := hinv.room
  omega

/-- **Whether `Read` returns.**  From every reachable state in which a `Read` without a
timeout waits: if what it was asked for fits into the ring, then in every run in which as
many samples have been delivered since, whatever the frames and whenever the loop has looked,
`Read` returns that many samples at its next look, unless it has found them already; and if
it does not fit, it never returns. -/
theorem read_returns (hB : B.Documented capacity content)
    (h : (system B reportInterval).Reachable s) (hread : s.read = .waiting dim none) :
    (dim ≤ capacity → ∀ (ls : List (PaLabel α)) (u : PaSession Ring α) (elapsed : Nat),
      .fetch ∉ ls → (system B reportInterval).runFrom s ls = some u →
        delivered s.log + dim ≤ delivered u.log →
          ∃ es s', (es = [.fetch] ∨ es = [.poll elapsed, .fetch]) ∧
            (system B reportInterval).runFrom u es = some s' ∧ s'.read = .outside ∧
              ∃ samples, samples.length = dim ∧
                s'.log = .read dim none samples none :: u.log) ∧
      (capacity < dim → ∀ (ls : List (PaLabel α)) (s' : PaSession Ring α),
        (system B reportInterval).runFrom s ls = some s' → s'.read = .waiting dim none) := by
  have hinv := inv_of_reachable hB h
  refine ⟨?_, fun hdim ls s' hrun => waits_for_ever hB hread hinv hdim hrun⟩
  intro hdim ls u elapsed hls hrun hdelivered
  have hempty : min capacity (delivered s.log - delivered s.log) ≤
      (content s.source.paRingbuf).length := by
    omega
  obtain ⟨hinv', hawaits, hfill⟩ := fills_run hB hinv (.inl hread) hempty hls hrun
  obtain hwaiting | hfetching := hawaits
  · obtain ⟨s', hs', hresult⟩ := poll_returns reportInterval hB hinv' hwaiting (by omega) elapsed
    exact ⟨_, s', .inr rfl, hs', hresult⟩
  · obtain ⟨s', hs', hresult⟩ := fetch_returns reportInterval hB hinv' hfetching
    exact ⟨_, s', .inl rfl, hs', hresult⟩

/-- Three samples come out of a ring for four once they are there, and five never do. -/
theorem read_returns_four :
    (∃ u s' : PaSession (List Nat) Nat,
      (system fourSamples 0).runFrom u [.poll 2, .fetch] = some s' ∧
        ∃ samples, samples.length = 3 ∧ s'.log = .read 3 none samples none :: u.log) ∧
      ∃ s : PaSession (List Nat) Nat, s.read = .waiting 5 none ∧
        ∀ (ls : List (PaLabel Nat)) (s' : PaSession (List Nat) Nat),
          (system fourSamples 0).runFrom s ls = some s' → s'.read = .waiting 5 none := by
  have hthree : ∃ s u,
      (system fourSamples 0).runFrom (create fourSamples) [.call 3 none] = some s ∧
      (system fourSamples 0).runFrom s
        [.deliver [1, 2], .callback, .callback, .callback, .poll 0, .deliver [3, 4], .callback] =
          some u ∧ s.read = .waiting 3 none ∧ u.read = .waiting 3 none ∧ s.log = [] ∧
        delivered u.log = 4 :=
    ⟨_, _, rfl, rfl, rfl, rfl, rfl, rfl⟩
  have hfive : ∃ s, (system fourSamples 0).runFrom (create fourSamples) [.call 5 none] = some s ∧
      s.read = .waiting 5 none :=
    ⟨_, rfl, rfl⟩
  obtain ⟨s, u, hs, hu, hread, hwaiting, hlog, hdelivered⟩ := hthree
  obtain ⟨t, ht, hread'⟩ := hfive
  refine ⟨?_, t, hread', ?_⟩
  · obtain ⟨es, s', hes, hrun, -, hresult⟩ :=
      (read_returns fourSamples_documented (Transition.System.reachable_of_run hs) hread).1
        (by decide) _ u 2 (by decide) hu (by rw [hlog, hdelivered]; decide)
    obtain rfl | rfl := hes
    · obtain ⟨v, hv, -⟩ := Option.bind_eq_some_iff.mp hrun
      obtain ⟨d, t, n, l, hfetching, -⟩ := fetch_cases hv
      cases hfetching.symm.trans hwaiting
    · exact ⟨u, s', hrun, hresult⟩
  · exact (read_returns fourSamples_documented (Transition.System.reachable_of_run ht) hread').2
      (by decide)

end Returns

end PaSession

end ThreadedServer
