import ThreadedServer.OnlineDecoder
import ThreadedServer.OnlineVad

/-!
# An online session between the client and the server

`speechclient` answers requests for audio until its position has reached the end
of the wave, and leaves.  On the server, `OnlineDecode` runs the decoder; when a
frame needs new features, `OnlineVadFeInput::Compute` reads audio, the whole
buffer at first and then a block in each iteration, until there is speech or a
block is short, and `RemoteAudioSource::Read` asks the client for it and waits.

The two programs take steps in any order, and what they send to each other
arrives in order.  Audio is counted, not kept: a packet is the number of its
samples.  What the voice detector answers, whether a frame asks for scores and
whether a partial traceback succeeds is up to the run.  A partial traceback
cannot succeed without active tokens, unless one has succeeded before in the
utterance.
-/

namespace ThreadedServer

/-- The packets from the server to the client. -/
inductive ServerPacket
  | dataWaveRequest (numSamples : Nat)
  | decodeOutput (endUtterance : Bool)
  deriving DecidableEq, Repr

/-- Control points of the server. -/
inductive ServerPc
  /-- in `Decode`, or about to call it -/
  | decoding
  /-- `Decode` has returned -/
  | returned
  /-- in the `Read` of the whole buffer -/
  | fillingBuffer
  /-- in the loop of `Compute`, about to call `DoVad` -/
  | iterating
  /-- in the `Read` at the end of the loop's body; `active` is
  `lastBatchVad || batchVad_` -/
  | readingBack (active : Bool)
  /-- `OnlineDecode` has left its loop -/
  | ended
  /-- an assertion has failed or an exception was thrown -/
  | died
  deriving DecidableEq, Repr

/-- A session: the client's `pos`, the packets on their way and the server.
`toServer` are the lengths of `DATA_WAVE` packets; `forcing` is `forcingEndUtt_` while
`Compute` runs, and `sentPiece` says that a partial traceback has succeeded in the
utterance. -/
structure Exchange where
  pos : Nat
  toClient : List ServerPacket
  toServer : List Nat
  pc : ServerPc
  session : DecodeSession
  bufferInit : Bool
  batchVad : Bool
  hangoverCount : Nat
  forcing : Bool
  sentPiece : Bool
  deriving DecidableEq, Repr

/-- The steps of a session. -/
inductive ExchangeLabel
  /-- an iteration of the client's loop -/
  | client
  /-- `Decode` is called -/
  | call
  /-- a frame that needs no new features, and whether it asks for scores -/
  | score (asked : Bool)
  /-- `LogLikelihood` calls `Compute` -/
  | compute
  /-- an iteration of `Compute`, up to its `Read`; the answer of `DoVad` -/
  | vad (speech : Bool)
  /-- `Read` receives a packet -/
  | receive
  /-- the loop of `Decode` ends -/
  | finish
  /-- what `OnlineDecode` does then, and whether a partial traceback succeeds -/
  | output (success : Bool)
  deriving DecidableEq, Repr

namespace Exchange

/-- What `OnlineDecode` passes to the constructor of `OnlineVadFeInput`. -/
def vadOptions : VadOptions where
  frameSize := 400
  frameShift := 160
  bufferLength := 8000
  nVadListeners := 1

/-- `batch_size` in `OnlineDecode`: frames of a batch, and rows of a `Compute`. -/
def batchSize : Nat := 27

/-- `buffer_length_` after its increment. -/
def bufferLength : Nat := vadOptions.bufferLength + vadOptions.batchSize batchSize

/-- `samples_req` -/
def samplesReq : Nat := vadOptions.samplesReq batchSize

theorem samplesReq_eq : samplesReq = 4320 := rfl

def create : Exchange where
  pos := 0
  toClient := []
  toServer := []
  pc := .decoding
  session := .create
  bufferInit := false
  batchVad := false
  hangoverCount := 0
  forcing := false
  sentPiece := false

/-- The client is in its loop. -/
def Inside (length : Nat) (s : Exchange) : Prop := s.pos < length

instance (length : Nat) (s : Exchange) : Decidable (s.Inside length) := by
  unfold Inside; infer_instance

/-- An iteration of the client's loop. -/
def client (length : Nat) (s : Exchange) : Option Exchange :=
  if s.Inside length then
    match s.toClient with
    | [] => none
    | .dataWaveRequest n :: rest =>
        some { s with
          toClient := rest
          toServer := s.toServer ++ [min (length - s.pos) n]
          pos := s.pos + n }
    | .decodeOutput _ :: rest => some { s with toClient := rest }
  else none

/-- `SendPacket`, from the server. -/
def send (s : Exchange) (p : ServerPacket) : Exchange := { s with toClient := s.toClient ++ [p] }

/-- `Decode` is called. -/
def call (s : Exchange) : Option Exchange :=
  if s.pc = .decoding then
    (s.session.step batchSize .call).map fun session =>
      { s with
        session
        sentPiece := s.sentPiece && !s.session.decoder.newUtterance }
  else none

/-- A frame that needs no new features. -/
def score (s : Exchange) (asked : Bool) : Option Exchange :=
  if s.pc = .decoding then
    (s.session.step batchSize (.score ⟨asked, none, false⟩)).map fun session =>
      { s with session }
  else none

/-- A frame asks for scores and needs new features for them. -/
def NeedsCompute (s : Exchange) : Prop :=
  s.pc = .decoding ∧ s.session.alive = true ∧
    match s.session.pc with
    | .loop batchFrame =>
        s.session.decoder.goesOn s.session.decodable batchSize batchFrame = true ∧
          s.session.decodable.needsBatch s.session.decoder.frame = true
    | _ => False

instance (s : Exchange) : Decidable s.NeedsCompute := by
  unfold NeedsCompute
  cases s.session.pc <;> infer_instance

/-- `LogLikelihood` calls `Compute`. -/
def compute (s : Exchange) : Option Exchange :=
  if s.NeedsCompute then
    if s.session.decodable.finished then some { s with pc := .died }
    else if s.bufferInit then some { s with pc := .iterating }
    else some ({ s with pc := .fillingBuffer }.send (.dataWaveRequest bufferLength))
  else none

/-- An iteration of `Compute`, up to its `Read`. -/
def vad (s : Exchange) (speech : Bool) : Option Exchange :=
  if s.pc = .iterating then
    let n := OnlineVadFeInput.notify vadOptions samplesReq bufferLength s.batchVad speech
      s.hangoverCount
    some ({ s with
      batchVad := n.batchVad
      hangoverCount := n.hangoverCount
      forcing := s.forcing || n.events.any fun e => e.2 == VadEvent.speechEnd
      pc := .readingBack (s.batchVad || n.batchVad) }.send (.dataWaveRequest samplesReq))
  else none

/-- The rows that `OnlineLdaInput::Compute` makes of a batch: the first rows only fill
its window. -/
def ldaRows (rightContext : Nat) (d : OnlineDecodable) : Nat :=
  batchSize - if d.rows = 0 then rightContext else 0

/-- `Compute` returns, and the frame is scored. -/
def computed (rightContext : Nat) (s : Exchange) (moreData : Bool) : Exchange :=
  match s.session.step batchSize
      (.score ⟨true, some (ldaRows rightContext s.session.decodable, moreData), s.forcing⟩) with
  | none => { s with pc := .died }
  | some session =>
      { s with
        session
        forcing := false
        pc := if session.pc == .outside then .returned else .decoding }

/-- `Read` receives a packet. -/
def receive (rightContext : Nat) (s : Exchange) : Option Exchange :=
  match s.pc, s.toServer with
  | .fillingBuffer, _ :: rest =>
      some { s with toServer := rest, bufferInit := true, pc := .iterating }
  | .readingBack active, n :: rest =>
      let s := { s with toServer := rest }
      if !active && n == samplesReq then some { s with pc := .iterating }
      else some (s.computed rightContext (n == samplesReq))
  | _, _ => none

/-- The loop of `Decode` ends. -/
def finish (s : Exchange) : Option Exchange :=
  if s.pc = .decoding then
    (s.session.step batchSize .finish).map fun session => { s with session, pc := .returned }
  else none

/-- What `OnlineDecode` does after `Decode`. -/
def output (s : Exchange) (success : Bool) : Option Exchange :=
  if s.pc = .returned then
    match s.session.decoder.state with
    | .endFeats => some ({ s with pc := .ended }.send (.decodeOutput true))
    | .endUtt => some ({ s with pc := .decoding }.send (.decodeOutput true))
    | .endBatch =>
        if success then
          if s.session.alive || s.sentPiece then
            some ({ s with pc := .decoding, sentPiece := true }.send (.decodeOutput false))
          else none
        else some { s with pc := .decoding }
  else none

/-- One step of a session. -/
def step (length rightContext : Nat) (s : Exchange) : ExchangeLabel → Option Exchange
  | .client => s.client length
  | .call => s.call
  | .score asked => s.score asked
  | .compute => s.compute
  | .vad speech => s.vad speech
  | .receive => s.receive rightContext
  | .finish => s.finish
  | .output success => s.output success

/-- The sessions for a wave of this length. -/
def system (length rightContext : Nat) : Transition.System Exchange ExchangeLabel where
  init := create
  step := step length rightContext

/-! ## What a step does -/

section Steps

variable {length rightContext : Nat} {s t : Exchange}

theorem client_cases (h : s.client length = some t) :
    s.Inside length ∧
      ((∃ n rest, s.toClient = .dataWaveRequest n :: rest ∧ t = { s with
          toClient := rest
          toServer := s.toServer ++ [min (length - s.pos) n]
          pos := s.pos + n }) ∨
        ∃ e rest, s.toClient = .decodeOutput e :: rest ∧ t = { s with toClient := rest }) := by
  obtain ⟨hin, h⟩ := Option.ite_none_right_eq_some.mp h
  refine ⟨hin, ?_⟩
  split at h
  case h_1 => cases h
  case h_2 n rest hpackets => exact Or.inl ⟨n, rest, hpackets, (Option.some.inj h).symm⟩
  case h_3 e rest hpackets => exact Or.inr ⟨e, rest, hpackets, (Option.some.inj h).symm⟩

theorem call_cases (h : s.call = some t) :
    s.pc = .decoding ∧ ∃ session, s.session.step batchSize .call = some session ∧
      t = { s with
        session
        sentPiece := s.sentPiece && !s.session.decoder.newUtterance } := by
  obtain ⟨hpc, h⟩ := Option.ite_none_right_eq_some.mp h
  obtain ⟨session, hsession, rfl⟩ := Option.map_eq_some_iff.mp h
  exact ⟨hpc, session, hsession, rfl⟩

theorem score_cases {asked : Bool} (h : s.score asked = some t) :
    s.pc = .decoding ∧ ∃ session,
      s.session.step batchSize (.score ⟨asked, none, false⟩) = some session ∧
      t = { s with session } := by
  obtain ⟨hpc, h⟩ := Option.ite_none_right_eq_some.mp h
  obtain ⟨session, hsession, rfl⟩ := Option.map_eq_some_iff.mp h
  exact ⟨hpc, session, hsession, rfl⟩

theorem compute_cases (h : s.compute = some t) :
    s.NeedsCompute ∧
      (t = { s with pc := .died } ∨
        s.bufferInit = true ∧ s.session.decodable.finished = false ∧
          t = { s with pc := .iterating } ∨
        s.bufferInit = false ∧
          t = { s with pc := .fillingBuffer }.send (.dataWaveRequest bufferLength)) := by
  obtain ⟨hneeds, h⟩ := Option.ite_none_right_eq_some.mp h
  refine ⟨hneeds, ?_⟩
  split at h
  case isTrue => exact Or.inl (Option.some.inj h).symm
  case isFalse hfinished =>
    rw [Bool.not_eq_true] at hfinished
    split at h
    case isTrue hinit => exact Or.inr (Or.inl ⟨hinit, hfinished, (Option.some.inj h).symm⟩)
    case isFalse hinit =>
      rw [Bool.not_eq_true] at hinit
      exact Or.inr (Or.inr ⟨hinit, (Option.some.inj h).symm⟩)

theorem vad_cases {speech : Bool} (h : s.vad speech = some t) :
    s.pc = .iterating ∧
      ∃ n, n = OnlineVadFeInput.notify vadOptions samplesReq bufferLength s.batchVad speech
          s.hangoverCount ∧
        t = { s with
          batchVad := n.batchVad
          hangoverCount := n.hangoverCount
          forcing := s.forcing || n.events.any fun e => e.2 == VadEvent.speechEnd
          pc := .readingBack (s.batchVad || n.batchVad) }.send (.dataWaveRequest samplesReq) := by
  obtain ⟨hpc, h⟩ := Option.ite_none_right_eq_some.mp h
  exact ⟨hpc, _, rfl, (Option.some.inj h).symm⟩

theorem receive_cases (h : s.receive rightContext = some t) :
    ∃ n rest, s.toServer = n :: rest ∧
      (s.pc = .fillingBuffer ∧
          t = { s with toServer := rest, bufferInit := true, pc := .iterating } ∨
        (∃ active, s.pc = .readingBack active) ∧ n = samplesReq ∧
          t = { s with toServer := rest, pc := .iterating } ∨
        (∃ active, s.pc = .readingBack active) ∧
          t = { s with toServer := rest }.computed rightContext (n == samplesReq)) := by
  unfold receive at h
  split at h
  case h_1 n rest hpc hpackets =>
    exact ⟨n, rest, hpackets, Or.inl ⟨hpc, (Option.some.inj h).symm⟩⟩
  case h_2 active n rest hpc hpackets =>
    refine ⟨n, rest, hpackets, Or.inr ?_⟩
    dsimp only at h
    split at h
    case isTrue hsilent =>
      rw [Bool.and_eq_true, beq_iff_eq] at hsilent
      exact Or.inl ⟨⟨active, hpc⟩, hsilent.2, (Option.some.inj h).symm⟩
    case isFalse => exact Or.inr ⟨⟨active, hpc⟩, (Option.some.inj h).symm⟩
  case h_3 => cases h

theorem computed_cases (moreData : Bool) :
    s.computed rightContext moreData = { s with pc := .died } ∨
      ∃ session, s.session.step batchSize (.score
          ⟨true, some (ldaRows rightContext s.session.decodable, moreData), s.forcing⟩) =
            some session ∧
        s.computed rightContext moreData = { s with
          session
          forcing := false
          pc := if session.pc == .outside then .returned else .decoding } := by
  unfold computed
  split
  case h_1 => exact Or.inl rfl
  case h_2 session hsession => exact Or.inr ⟨session, hsession, rfl⟩

theorem finish_cases (h : s.finish = some t) :
    s.pc = .decoding ∧ ∃ session, s.session.step batchSize .finish = some session ∧
      t = { s with session, pc := .returned } := by
  obtain ⟨hpc, h⟩ := Option.ite_none_right_eq_some.mp h
  obtain ⟨session, hsession, rfl⟩ := Option.map_eq_some_iff.mp h
  exact ⟨hpc, session, hsession, rfl⟩

/-- After `Decode` an output may be sent; after a batch only if there are active tokens or
a piece has been sent before. -/
theorem output_cases {success : Bool} (h : s.output success = some t) :
    s.pc = .returned ∧
      (s.session.decoder.state = .endBatch ∧ t = { s with pc := .decoding } ∨
        (s.session.decoder.state = .endBatch →
            s.session.alive = true ∨ s.sentPiece = true) ∧
          ∃ pc piece e, (pc = .decoding ∨ pc = .ended) ∧
            t = { s with pc, sentPiece := piece }.send (.decodeOutput e)) := by
  obtain ⟨hpc, h⟩ := Option.ite_none_right_eq_some.mp h
  refine ⟨hpc, ?_⟩
  split at h
  case h_1 hstate =>
    refine Or.inr ⟨fun hbatch => ?_, _, _, _, Or.inr rfl, (Option.some.inj h).symm⟩
    exact absurd (hbatch.symm.trans hstate) (by decide)
  case h_2 hstate =>
    refine Or.inr ⟨fun hbatch => ?_, _, _, _, Or.inl rfl, (Option.some.inj h).symm⟩
    exact absurd (hbatch.symm.trans hstate) (by decide)
  case h_3 hstate =>
    split at h
    case isTrue =>
      obtain ⟨hor, h⟩ := Option.ite_none_right_eq_some.mp h
      rw [Bool.or_eq_true] at hor
      exact Or.inr ⟨fun _ => hor, _, _, _, Or.inl rfl, (Option.some.inj h).symm⟩
    case isFalse => exact Or.inl ⟨hstate, (Option.some.inj h).symm⟩

/-- The decoder's part of a session takes its own steps. -/
theorem step_session {l : ExchangeLabel} (h : step length rightContext s l = some t) :
    t.session = s.session ∨ ∃ m, s.session.step batchSize m = some t.session := by
  cases l with
  | client =>
      obtain ⟨-, ⟨n, rest, -, rfl⟩ | ⟨e, rest, -, rfl⟩⟩ := client_cases h
      · exact Or.inl rfl
      · exact Or.inl rfl
  | call =>
      obtain ⟨-, session, hsession, rfl⟩ := call_cases h
      exact Or.inr ⟨_, hsession⟩
  | score asked =>
      obtain ⟨-, session, hsession, rfl⟩ := score_cases h
      exact Or.inr ⟨_, hsession⟩
  | compute =>
      obtain ⟨-, rfl | ⟨-, -, rfl⟩ | ⟨-, rfl⟩⟩ := compute_cases h
      · exact Or.inl rfl
      · exact Or.inl rfl
      · exact Or.inl rfl
  | vad speech =>
      obtain ⟨-, n, -, rfl⟩ := vad_cases h
      exact Or.inl rfl
  | receive =>
      obtain ⟨n, rest, -, ⟨-, rfl⟩ | ⟨-, -, rfl⟩ | ⟨-, rfl⟩⟩ := receive_cases h
      · exact Or.inl rfl
      · exact Or.inl rfl
      · rcases computed_cases (s := { s with toServer := rest }) (n == samplesReq) with
          ht | ⟨session, hsession, ht⟩
        · exact Or.inl (by rw [ht])
        · exact Or.inr ⟨_, by rw [ht]; exact hsession⟩
  | finish =>
      obtain ⟨-, session, hsession, rfl⟩ := finish_cases h
      exact Or.inr ⟨_, hsession⟩
  | output success =>
      obtain ⟨-, ⟨-, rfl⟩ | ⟨-, pc, piece, e, -, rfl⟩⟩ := output_cases h
      · exact Or.inl rfl
      · exact Or.inl rfl

theorem session_reachable (h : (system length rightContext).Reachable s) :
    (DecodeSession.system batchSize).Reachable s.session := by
  refine h.invariant
    (fun s : Exchange => (DecodeSession.system batchSize).Reachable s.session) ?_ ?_
  · exact Transition.System.ReachableVia.init
  intro s l t hs hstep
  rcases step_session hstep with heq | ⟨m, hm⟩
  · rw [heq]
    exact hs
  · exact Transition.System.ReachableVia.step hs trivial hm

end Steps

/-! ## Silence -/

/-- In the loop of the first `Compute`, after silence up to this position. -/
def listening (pos : Nat) : Exchange :=
  { create with
    pos
    pc := .iterating
    session := { DecodeSession.create with
      decoder := OnlineFasterDecoder.create.start
      pc := .loop 0 }
    bufferInit := true }

variable {length rightContext : Nat}

theorem listening_of_pos (hlength : 0 < length) :
    (system length rightContext).Leads create (listening bufferLength) := by
  refine ⟨[.call, .compute, .client, .receive], ?_⟩
  simp [Transition.System.runFrom, system, step, call, compute, client, receive, send, create,
    listening, Inside, hlength, NeedsCompute, DecodeSession.step, DecodeSession.create,
    OnlineFasterDecoder.start, OnlineFasterDecoder.newUtterance, OnlineFasterDecoder.create,
    OnlineFasterDecoder.resetDecoder, OnlineFasterDecoder.goesOn, OnlineDecodable.create,
    OnlineDecodable.isLastFrame, OnlineDecodable.needsBatch, OnlineDecodable.rows, batchSize]

/-- A full block without speech. -/
theorem listening_silent {pos : Nat} (hpos : pos + samplesReq ≤ length) :
    (system length rightContext).Leads (listening pos) (listening (pos + samplesReq)) := by
  refine ⟨[.vad false, .client, .receive], ?_⟩
  have hin : pos < length := by
    rw [samplesReq_eq] at hpos
    omega
  have hblock : min (length - pos) samplesReq = samplesReq := by omega
  simp [Transition.System.runFrom, system, step, vad, client, receive, send, create,
    listening, Inside, hin, hblock, OnlineVadFeInput.notify]

/-- Full blocks without speech. -/
theorem listening_blocks (pos k : Nat) (hpos : pos + k * samplesReq ≤ length) :
    (system length rightContext).Leads (listening pos) (listening (pos + k * samplesReq)) := by
  induction k with
  | zero =>
      rw [Nat.zero_mul, Nat.add_zero]
      exact .refl _
  | succ k ih =>
      rw [Nat.succ_mul, ← Nat.add_assoc] at hpos ⊢
      exact (ih (by omega)).trans (listening_silent hpos)

end Exchange

end ThreadedServer
