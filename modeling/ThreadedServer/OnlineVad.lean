import Mathlib.Algebra.GroupWithZero.Nat
import Mathlib.Data.List.Basic
import ThreadedServer.Transition

/-!
# Feature input with voice activity detection

`OnlineVadFeInput` queues audio in a buffer that is half a second longer than a
batch of features.  Each iteration of `Compute` judges the newest samples, at
the back of the buffer, and extracts features from the oldest, at the front;
then the buffer is shifted and the back is read anew.  While there is no speech
the loop goes on without extracting anything.

The voice detector and the audio source are the environment: an iteration is
given the answer of `DoVad` and the samples that `Read` delivers.  A cell of
the buffer that no sample was delivered to is `none`: the buffer is allocated
`kUndefined`, and the contents of a vector beyond the samples that a `Read`
reports are undefined.
-/

namespace ThreadedServer

/-- The two notifications of a `VadEventListener`. -/
inductive VadEvent
  | speechStart
  | speechEnd
  deriving DecidableEq, Repr

/-- What the constructor of `OnlineVadFeInput` and the calls of `AddVadListener`
set up.  `nVadListeners` counts the listeners in `vadListener_`, and `addVadListener` says
how far it can get. -/
structure VadOptions where
  frameSize : Nat
  frameShift : Nat
  bufferLength : Nat
  nVadListeners : Nat
  deriving DecidableEq, Repr

namespace VadOptions

/-- The cells of `vadListener_`. -/
def maxVadListeners : Nat := 128

/-- `AddVadListener`, which does not look at the end of `vadListener_`; `none` is a write
behind it. -/
def addVadListener (o : VadOptions) : Option VadOptions :=
  if o.nVadListeners < maxVadListeners then
    some { o with nVadListeners := o.nVadListeners + 1 }
  else none

/-- So many calls of `AddVadListener`. -/
def addVadListeners : Nat → VadOptions → Option VadOptions
  | 0, o => some o
  | k + 1, o => o.addVadListener.bind (addVadListeners k)

/-- The listeners are added up to the end of the array. -/
theorem addVadListeners_eq (k : Nat) (o : VadOptions) :
    o.addVadListeners k =
      if k = 0 ∨ o.nVadListeners + k ≤ maxVadListeners then
        some { o with nVadListeners := o.nVadListeners + k }
      else none := by
  induction k generalizing o with
  | zero => rfl
  | succ k ih =>
      rw [addVadListeners, addVadListener]
      by_cases hroom : o.nVadListeners < maxVadListeners
      · have hiff : (k = 0 ∨ o.nVadListeners + 1 + k ≤ maxVadListeners) ↔
            (k + 1 = 0 ∨ o.nVadListeners + (k + 1) ≤ maxVadListeners) := by omega
        rw [if_pos hroom, Option.bind_some, ih, if_congr hiff rfl rfl, Nat.add_assoc,
          Nat.add_comm 1 k]
      · rw [if_neg hroom, if_neg (by omega)]
        rfl

/-- `batch_size`: the samples under `nvec` frames. -/
def batchSize (o : VadOptions) (nvec : Nat) : Nat :=
  o.frameSize + (nvec - 1) * o.frameShift

/-- `samples_req = batch_size - frame_overlap`: the new samples of a batch. -/
def samplesReq (o : VadOptions) (nvec : Nat) : Nat :=
  o.batchSize nvec + o.frameShift - o.frameSize

theorem samplesReq_eq (o : VadOptions) {nvec : Nat} (h : 0 < nvec) :
    o.samplesReq nvec = nvec * o.frameShift := by
  obtain ⟨k, rfl⟩ : ∃ k, nvec = k + 1 := ⟨nvec - 1, by omega⟩
  simp only [samplesReq, batchSize, Nat.add_sub_cancel, Nat.succ_mul]
  omega

/-- The overlap of two successive batches is that of two successive frames. -/
theorem batchSize_add_shift (o : VadOptions) {nvec : Nat} (h : 0 < nvec) :
    o.batchSize nvec + o.frameShift = o.samplesReq nvec + o.frameSize := by
  obtain ⟨k, rfl⟩ : ∃ k, nvec = k + 1 := ⟨nvec - 1, by omega⟩
  simp only [samplesReq, batchSize]
  omega

end VadOptions

/-- The members of `OnlineVadFeInput` that `Compute` changes. -/
structure OnlineVadFeInput (α : Type*) where
  bufferLength : Nat
  bufferInit : Bool
  buffer : List (Option α)
  batchVad : Bool
  hangoverCount : Nat
  deriving DecidableEq, Repr

namespace OnlineVadFeInput

variable {α : Type*}

/-- The constructor. -/
def create (o : VadOptions) : OnlineVadFeInput α where
  bufferLength := o.bufferLength
  bufferInit := false
  buffer := []
  batchVad := false
  hangoverCount := 0

/-- The cells of a vector of `n` samples after a `Read` that delivered `block`. -/
def cells (n : Nat) (block : List α) : List (Option α) :=
  block.map some ++ List.replicate (n - block.length) none

/-- `ShiftBuffer`: the samples move to the front, the back keeps what it had. -/
def shiftBuffer (buffer : List (Option α)) (shiftSize : Nat) : List (Option α) :=
  buffer.drop shiftSize ++ buffer.drop (buffer.length - shiftSize)

/-- `source_->Read(&buffer_back)`. -/
def readBack (buffer : List (Option α)) (samplesReq : Nat) (block : List α) :
    List (Option α) :=
  buffer.take (buffer.length - samplesReq) ++ cells samplesReq block

/-- The initial fill of the buffer, at the first call. -/
def initBuffer (o : VadOptions) (fe : OnlineVadFeInput α) (nvec : Nat) (block : List α) :
    OnlineVadFeInput α :=
  if fe.bufferInit then fe
  else
    { fe with
      bufferLength := fe.bufferLength + o.batchSize nvec
      buffer := cells (fe.bufferLength + o.batchSize nvec) block
      bufferInit := true }

/-- `hangoverCount_`, `batchVad_` and the notifications sent so far. -/
structure Notice where
  hangoverCount : Nat
  batchVad : Bool
  events : List (Nat × VadEvent)
  deriving DecidableEq, Repr

/-- One iteration of the loop over the listeners. -/
def notifyListener (samplesReq bufferLength : Nat) (lastBatchVad : Bool) (n : Notice)
    (i : Nat) : Notice :=
  if !lastBatchVad && n.batchVad then
    { n with events := n.events ++ [(i, .speechStart)], hangoverCount := 0 }
  else if lastBatchVad && !n.batchVad then
    if n.hangoverCount + samplesReq > bufferLength then
      { n with
        hangoverCount := n.hangoverCount + samplesReq
        events := n.events ++ [(i, .speechEnd)] }
    else
      { n with hangoverCount := n.hangoverCount + samplesReq, batchVad := true }
  else n

/-- The notification of state changes, after `batchVad_ = DoVad(buffer_back)`. -/
def notify (o : VadOptions) (samplesReq bufferLength : Nat) (lastBatchVad batchVad : Bool)
    (hangoverCount : Nat) : Notice :=
  if batchVad ≠ lastBatchVad then
    (List.range o.nVadListeners).foldl
      (notifyListener samplesReq bufferLength lastBatchVad) ⟨hangoverCount, batchVad, []⟩
  else ⟨hangoverCount, batchVad, []⟩

end OnlineVadFeInput

/-- What one iteration of the loop of `Compute` was given and did.  `start` is
the place in the stream of the first cell of the buffer. -/
structure Batch (α : Type*) where
  nvec : Nat
  start : Nat
  /-- the answer of `DoVad` -/
  speech : Bool
  lastBatchVad : Bool
  /-- `batchVad_` after the notification -/
  batchVad : Bool
  /-- `hangoverCount_` before the iteration -/
  hangoverCount : Nat
  events : List (Nat × VadEvent)
  /-- the front window, if the extractor was given it -/
  features : Option (List (Option α))
  /-- the samples delivered by `Read` -/
  block : List α
  /-- what `Compute` returns, if it leaves the loop -/
  returned : Option Bool
  deriving DecidableEq, Repr

namespace OnlineVadFeInput

variable {α : Type*}

/-- One iteration of the do-while loop of `Compute`. -/
def iterate (o : VadOptions) (fe : OnlineVadFeInput α) (nvec : Nat) (timeout : Option Nat)
    (start : Nat) (speech : Bool) (block : List α) : OnlineVadFeInput α × Batch α :=
  let samplesReq := o.samplesReq nvec
  let lastBatchVad := fe.batchVad
  let n := notify o samplesReq fe.bufferLength lastBatchVad speech fe.hangoverCount
  let active := lastBatchVad || n.batchVad
  let full := block.length == samplesReq
  ({ fe with
      batchVad := n.batchVad
      hangoverCount := n.hangoverCount
      buffer := readBack (shiftBuffer fe.buffer samplesReq) samplesReq block },
   { nvec
     start
     speech
     lastBatchVad
     batchVad := n.batchVad
     hangoverCount := fe.hangoverCount
     events := n.events
     features := if active then some (fe.buffer.take (o.batchSize nvec)) else none
     block
     returned := if !active && full then none else some (full || timeout == some 0) })

end OnlineVadFeInput

/-- The arguments of a call of `Compute`: the rows of `output` and the value
that `timeout` points to. -/
structure ComputeCall where
  nvec : Nat
  timeout : Option Nat
  deriving DecidableEq, Repr

/-- A feature input, the call of `Compute` in progress if there is one, and what
has happened, the last iteration first. -/
structure VadSession (α : Type*) where
  feInput : OnlineVadFeInput α
  call : Option ComputeCall
  /-- the samples delivered by the initial `Read` -/
  first : List α
  log : List (Batch α)
  deriving DecidableEq, Repr

/-- The steps of a feature input. -/
inductive VadLabel (α : Type*)
  /-- `Compute` is called; `first` is what the initial `Read` delivers -/
  | call (c : ComputeCall) (first : List α)
  /-- one iteration of its loop -/
  | batch (speech : Bool) (block : List α)
  deriving DecidableEq, Repr

namespace VadSession

variable {α : Type*}

def create (o : VadOptions) : VadSession α where
  feInput := .create o
  call := none
  first := []
  log := []

/-- How many samples have left the buffer. -/
def shifted (o : VadOptions) (log : List (Batch α)) : Nat :=
  (log.map fun b => o.samplesReq b.nvec).sum

/-- `Compute` is called.  The subvectors at the front and the back have to fit
into the buffer. -/
def enter (o : VadOptions) (s : VadSession α) (c : ComputeCall) (first : List α) :
    Option (VadSession α) :=
  match s.call with
  | some _ => none
  | none =>
      -- no feature vectors requested
      if c.nvec = 0 then some s
      else
        let fe := s.feInput.initBuffer o c.nvec first
        if o.batchSize c.nvec ≤ fe.bufferLength ∧ o.samplesReq c.nvec ≤ fe.bufferLength ∧
            first.length ≤ (if s.feInput.bufferInit then 0 else fe.bufferLength) then
          some { s with
            feInput := fe
            call := some c
            first := if s.feInput.bufferInit then s.first else first }
        else none

/-- One iteration of the loop. -/
def batch (o : VadOptions) (s : VadSession α) (speech : Bool) (block : List α) :
    Option (VadSession α) :=
  match s.call with
  | none => none
  | some c =>
      if block.length ≤ o.samplesReq c.nvec then
        let (fe, b) :=
          s.feInput.iterate o c.nvec c.timeout (shifted o s.log) speech block
        some { s with
          feInput := fe
          call := if b.returned.isSome then none else some c
          log := b :: s.log }
      else none

/-- One step of the feature input. -/
def step (o : VadOptions) (s : VadSession α) : VadLabel α → Option (VadSession α)
  | .call c first => s.enter o c first
  | .batch speech block => s.batch o speech block

/-- The feature input under all answers of the detector and the source. -/
def system (o : VadOptions) (α : Type*) :
    Transition.System (VadSession α) (VadLabel α) where
  init := create o
  step := step o

end VadSession

/-! ## What an iteration can do -/

namespace OnlineVadFeInput

/-- The five outcomes of the notification. -/
inductive Outcome (n samplesReq bufferLength hangoverCount : Nat) :
    Bool → Bool → Notice → Prop
  | silent : Outcome n samplesReq bufferLength hangoverCount false false
      ⟨hangoverCount, false, []⟩
  | start : Outcome n samplesReq bufferLength hangoverCount false true
      ⟨0, true, (List.range n).map fun i => (i, .speechStart)⟩
  | goOn : Outcome n samplesReq bufferLength hangoverCount true true
      ⟨hangoverCount, true, []⟩
  | hold (h : hangoverCount + samplesReq ≤ bufferLength) :
      Outcome n samplesReq bufferLength hangoverCount true false
        ⟨hangoverCount + samplesReq, true, []⟩
  | stop (h : bufferLength < hangoverCount + samplesReq) :
      Outcome n samplesReq bufferLength hangoverCount true false
        ⟨hangoverCount + n * samplesReq, false,
          (List.range n).map fun i => (i, .speechEnd)⟩

section Listeners

variable {samplesReq bufferLength : Nat}

/-- Every listener is told of the start of speech. -/
theorem foldl_start (l : List Nat) (n : Notice) (hvad : n.batchVad = true) :
    l.foldl (notifyListener samplesReq bufferLength false) n =
      ⟨if l = [] then n.hangoverCount else 0, true,
        n.events ++ l.map fun i => (i, .speechStart)⟩ := by
  induction l generalizing n with
  | nil =>
      obtain ⟨h, v, es⟩ := n
      simp_all
  | cons i l ih =>
      rw [List.foldl_cons, ih _ (by simp [notifyListener, hvad])]
      simp [notifyListener, hvad]

/-- Once a listener has held the end of speech back, the others see no change. -/
theorem foldl_held (l : List Nat) (n : Notice) (hvad : n.batchVad = true) :
    l.foldl (notifyListener samplesReq bufferLength true) n = n := by
  induction l generalizing n with
  | nil => rfl
  | cons i l ih =>
      have hsame : notifyListener samplesReq bufferLength true n i = n := by
        simp [notifyListener, hvad]
      rw [List.foldl_cons, hsame, ih n hvad]

/-- Once the counter has passed the buffer, every listener is told of the end of
speech and counts the batch again. -/
theorem foldl_stop (l : List Nat) (n : Notice) (hvad : n.batchVad = false)
    (hlong : bufferLength < n.hangoverCount + samplesReq) :
    l.foldl (notifyListener samplesReq bufferLength true) n =
      ⟨n.hangoverCount + l.length * samplesReq, false,
        n.events ++ l.map fun i => (i, .speechEnd)⟩ := by
  induction l generalizing n with
  | nil =>
      obtain ⟨h, v, es⟩ := n
      simp_all
  | cons i l ih =>
      have hnext : notifyListener samplesReq bufferLength true n i =
          ⟨n.hangoverCount + samplesReq, false, n.events ++ [(i, .speechEnd)]⟩ := by
        simp [notifyListener, hvad, hlong]
      rw [List.foldl_cons, hnext, ih _ rfl (by simp only; omega)]
      simp only [List.length_cons, Nat.succ_mul, List.append_assoc, List.singleton_append,
        List.map_cons, Notice.mk.injEq, and_true]
      omega

end Listeners

/-- Without a change nobody is notified. -/
theorem notify_same (o : VadOptions) (samplesReq bufferLength : Nat) (vad : Bool)
    (hangoverCount : Nat) :
    notify o samplesReq bufferLength vad vad hangoverCount = ⟨hangoverCount, vad, []⟩ :=
  if_neg fun h => h rfl

/-- With a listener, the notification has one of the five outcomes. -/
theorem notify_outcome {o : VadOptions} (ho : 0 < o.nVadListeners)
    (samplesReq bufferLength : Nat) (lastBatchVad batchVad : Bool) (hangoverCount : Nat) :
    Outcome o.nVadListeners samplesReq bufferLength hangoverCount lastBatchVad batchVad
      (notify o samplesReq bufferLength lastBatchVad batchVad hangoverCount) := by
  have hrange : List.range o.nVadListeners ≠ [] := by
    simpa using Nat.pos_iff_ne_zero.mp ho
  cases lastBatchVad with
  | false =>
      cases batchVad with
      | false => exact .silent
      | true =>
          have hnotify : notify o samplesReq bufferLength false true hangoverCount =
              ⟨0, true, (List.range o.nVadListeners).map fun i => (i, .speechStart)⟩ := by
            simp [notify, foldl_start, hrange]
          rw [hnotify]
          exact .start
  | true =>
      cases batchVad with
      | true => exact .goOn
      | false =>
          by_cases hlong : bufferLength < hangoverCount + samplesReq
          · have hnotify : notify o samplesReq bufferLength true false hangoverCount =
                ⟨hangoverCount + o.nVadListeners * samplesReq, false,
                  (List.range o.nVadListeners).map fun i => (i, .speechEnd)⟩ := by
              simp [notify, foldl_stop, hlong]
            rw [hnotify]
            exact .stop hlong
          · obtain ⟨i, l, hl⟩ := List.exists_cons_of_ne_nil hrange
            have hnotify : notify o samplesReq bufferLength true false hangoverCount =
                ⟨hangoverCount + samplesReq, true, []⟩ := by
              simp [notify, hl, notifyListener, hlong, foldl_held]
            rw [hnotify]
            exact .hold (by omega)

end OnlineVadFeInput

namespace VadSession

open OnlineVadFeInput

variable {α : Type*} {o : VadOptions} {s s' : VadSession α}

/-- What an iteration has to do with the states around it. -/
structure Iterated (o : VadOptions) (s s' : VadSession α) (c : ComputeCall)
    (b : Batch α) : Prop where
  call : s.call = some c
  log : s'.log = b :: s.log
  first : s'.first = s.first
  bufferLength : s'.feInput.bufferLength = s.feInput.bufferLength
  bufferInit : s'.feInput.bufferInit = s.feInput.bufferInit
  buffer : s'.feInput.buffer =
    readBack (shiftBuffer s.feInput.buffer (o.samplesReq c.nvec)) (o.samplesReq c.nvec)
      b.block
  nvec : b.nvec = c.nvec
  start : b.start = shifted o s.log
  last : b.lastBatchVad = s.feInput.batchVad
  vad : b.batchVad = s'.feInput.batchVad
  hangover : b.hangoverCount = s.feInput.hangoverCount
  features : b.features =
    if b.lastBatchVad || b.batchVad then some (s.feInput.buffer.take (o.batchSize c.nvec))
    else none
  block : b.block.length ≤ o.samplesReq c.nvec
  returned : b.returned =
    if !(b.lastBatchVad || b.batchVad) && b.block.length == o.samplesReq c.nvec then none
    else some (b.block.length == o.samplesReq c.nvec || c.timeout == some 0)
  next : s'.call = if b.returned.isSome then none else some c
  notice : notify o (o.samplesReq c.nvec) s.feInput.bufferLength s.feInput.batchVad b.speech
      s.feInput.hangoverCount =
    ⟨s'.feInput.hangoverCount, s'.feInput.batchVad, b.events⟩

theorem batch_iterated {speech : Bool} {block : List α}
    (h : s.batch o speech block = some s') :
    ∃ c b, Iterated o s s' c b ∧ b.speech = speech ∧ b.block = block := by
  unfold batch at h
  split at h
  case h_1 => cases h
  case h_2 c hc =>
    split at h
    case isFalse => cases h
    case isTrue hblock =>
      obtain rfl := Option.some.inj h
      exact ⟨c, _, ⟨hc, rfl, rfl, rfl, rfl, rfl, rfl, rfl, rfl, rfl, rfl, rfl, hblock, rfl,
        rfl, rfl⟩, rfl, rfl⟩

/-- With a listener, an iteration has one of the five outcomes. -/
theorem Iterated.outcome {c : ComputeCall} {b : Batch α} (h : Iterated o s s' c b)
    (ho : 0 < o.nVadListeners) :
    (s.feInput.batchVad = false ∧ b.speech = false ∧ s'.feInput.batchVad = false ∧
      s'.feInput.hangoverCount = s.feInput.hangoverCount ∧ b.events = []) ∨
    (s.feInput.batchVad = false ∧ b.speech = true ∧ s'.feInput.batchVad = true ∧
      s'.feInput.hangoverCount = 0 ∧
      b.events = (List.range o.nVadListeners).map fun i => (i, .speechStart)) ∨
    (s.feInput.batchVad = true ∧ b.speech = true ∧ s'.feInput.batchVad = true ∧
      s'.feInput.hangoverCount = s.feInput.hangoverCount ∧ b.events = []) ∨
    (s.feInput.batchVad = true ∧ b.speech = false ∧ s'.feInput.batchVad = true ∧
      s.feInput.hangoverCount + o.samplesReq c.nvec ≤ s.feInput.bufferLength ∧
      s'.feInput.hangoverCount = s.feInput.hangoverCount + o.samplesReq c.nvec ∧
      b.events = []) ∨
    (s.feInput.batchVad = true ∧ b.speech = false ∧ s'.feInput.batchVad = false ∧
      s.feInput.bufferLength < s.feInput.hangoverCount + o.samplesReq c.nvec ∧
      b.events = (List.range o.nVadListeners).map fun i => (i, .speechEnd)) := by
  have hout := notify_outcome ho (o.samplesReq c.nvec) s.feInput.bufferLength
    s.feInput.batchVad b.speech s.feInput.hangoverCount
  rw [h.notice] at hout
  generalize s.feInput.batchVad = v, b.speech = sp at hout ⊢
  generalize hn : (⟨s'.feInput.hangoverCount, s'.feInput.batchVad, b.events⟩ : Notice) = n
    at hout
  cases hout <;> simp_all

/-- A call of `Compute` allocates the buffer if there is none and starts the
loop. -/
theorem enter_cases {c : ComputeCall} {first : List α} (h : s.enter o c first = some s') :
    s.call = none ∧ (c.nvec = 0 ∧ s' = s ∨
      0 < c.nvec ∧
      o.batchSize c.nvec ≤ s'.feInput.bufferLength ∧
      o.samplesReq c.nvec ≤ s'.feInput.bufferLength ∧
      s'.feInput = s.feInput.initBuffer o c.nvec first ∧
      s'.call = some c ∧
      s'.log = s.log ∧
      (s.feInput.bufferInit = true ∧ first = [] ∧ s'.first = s.first ∨
        s.feInput.bufferInit = false ∧ s'.first = first ∧
          first.length ≤ s'.feInput.bufferLength)) := by
  unfold enter at h
  split at h
  case h_1 => cases h
  case h_2 hcall =>
    refine ⟨hcall, ?_⟩
    split at h
    case isTrue hzero => exact Or.inl ⟨hzero, (Option.some.inj h).symm⟩
    case isFalse hpos =>
      simp only at h
      obtain ⟨⟨hbatch, hreq, hfirst⟩, hs'⟩ := Option.ite_none_right_eq_some.mp h
      obtain rfl := Option.some.inj hs'
      refine Or.inr ⟨Nat.pos_of_ne_zero hpos, hbatch, hreq, rfl, rfl, rfl, ?_⟩
      cases hinit : s.feInput.bufferInit with
      | true => exact Or.inl ⟨rfl, by simpa [hinit] using hfirst, rfl⟩
      | false => exact Or.inr ⟨rfl, rfl, by simpa [hinit] using hfirst⟩

end VadSession

end ThreadedServer
