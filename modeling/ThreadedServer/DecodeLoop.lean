import ThreadedServer.Exchange

/-!
# Whether the loop of `OnlineDecode` ends

`OnlineDecode` calls `Decode` until it returns `kEndFeats`, which it does when
`IsLastFrame` holds, and for that the features have to have ended.  This is noticed
in `LogLikelihood` only, when it loads a batch of features, and `LogLikelihood` is
called for the emitting arcs that leave the active tokens.

As long as each frame asks for a score, every batch of frames uses up audio, and the
loop ends after a number of steps that depends on the audio alone.  But at a frame for
which no score is asked all tokens die; from there on no frame asks for one, no audio
is read any more, and `Decode` returns `kEndBatch` for ever.
-/

namespace ThreadedServer

/-- An arc of the decoding graph; `ilabel` is 0 if it is not emitting. -/
structure GraphArc where
  source : Nat
  ilabel : Nat
  nextstate : Nat
  deriving DecidableEq, Repr

/-- What the search uses of the decoding graph. -/
structure SearchGraph where
  start : Nat
  arcs : List GraphArc
  deriving DecidableEq, Repr

namespace SearchGraph

/-- These arcs may be asked for scores: emitting arcs that leave active tokens, given by
their states. -/
def MayAsk (g : SearchGraph) (active : List Nat) (asked : List GraphArc) : Prop :=
  ∀ a ∈ asked, a ∈ g.arcs ∧ a.ilabel ≠ 0 ∧ a.source ∈ active

instance (g : SearchGraph) (active : List Nat) (asked : List GraphArc) :
    Decidable (g.MayAsk active asked) :=
  inferInstanceAs (Decidable (∀ a ∈ asked, _))

/-- `ProcessNonemitting`: new tokens along these arcs, one after the other. -/
def processNonemitting (g : SearchGraph) : List Nat → List GraphArc → Option (List Nat)
  | active, [] => some active
  | active, a :: epsilons =>
      if a ∈ g.arcs ∧ a.ilabel = 0 ∧ a.source ∈ active then
        g.processNonemitting (active ++ [a.nextstate]) epsilons
      else none

/-- Without tokens there are no new ones. -/
theorem processNonemitting_nil {g : SearchGraph} {epsilons : List GraphArc} {active : List Nat}
    (h : g.processNonemitting [] epsilons = some active) : active = [] := by
  cases epsilons with
  | nil => exact (Option.some.inj h).symm
  | cons a epsilons =>
      obtain ⟨⟨-, -, hsource⟩, -⟩ := Option.ite_none_right_eq_some.mp h
      cases hsource

theorem mayAsk_nil {g : SearchGraph} {asked : List GraphArc} (h : g.MayAsk [] asked) :
    asked = [] := by
  cases asked with
  | nil => rfl
  | cons a asked =>
      obtain ⟨-, -, hsource⟩ := h a List.mem_cons_self
      cases hsource

end SearchGraph

/-- Where `Decode` is with its features. -/
inductive LoopPhase
  | decoding
  /-- in `Compute`, called because of this arc -/
  | computing (a : GraphArc)
  /-- `Compute` has returned; whether there is more data, and whether the end of the
  utterance has been forced -/
  | computed (a : GraphArc) (moreData force : Bool)
  /-- an exception or a failed assertion in `LogLikelihood` -/
  | raised
  deriving DecidableEq, Repr

/-- `OnlineDecode` with its audio source, voice detector, features and decoder.
`audio` is what the source still has, and `active` are the states of the active
tokens. -/
structure OnlineDecoding (α : Type*) where
  audio : List α
  phase : LoopPhase
  decode : DecodeSession
  vad : VadSession α
  active : List Nat
  deriving DecidableEq, Repr

inductive LoopLabel
  /-- `Decode` is called, and its `ProcessNonemitting` follows these arcs -/
  | call (epsilons : List GraphArc)
  /-- a frame: the arcs that `ProcessEmitting` asks a score for, those of its new tokens,
  and those that `ProcessNonemitting` follows -/
  | score (asked kept epsilons : List GraphArc)
  /-- the frame asks for the score of an arc and has no features for it -/
  | compute (a : GraphArc)
  /-- an iteration of `OnlineVadFeInput::Compute`; the answer of `DoVad` -/
  | iterate (speech : Bool)
  /-- the loop of `Decode` ends -/
  | finish
  deriving DecidableEq, Repr

namespace OnlineDecoding

open Exchange (vadOptions batchSize samplesReq ldaRows)

variable {α : Type*}

def create (audio : List α) : OnlineDecoding α where
  audio
  phase := .decoding
  decode := .create
  vad := .create vadOptions
  active := []

/-- `Decode` is called. -/
def call (g : SearchGraph) (s : OnlineDecoding α) (epsilons : List GraphArc) :
    Option (OnlineDecoding α) :=
  if s.phase = .decoding then
    (g.processNonemitting (if s.decode.decoder.newUtterance then [g.start] else s.active)
        epsilons).bind fun active =>
      (s.decode.step batchSize .call).map fun decode => { s with decode, active }
  else none

/-- The frame has no features yet. -/
def NeedsBatch (s : OnlineDecoding α) : Prop :=
  match s.decode.pc with
  | .loop batchFrame =>
      s.decode.decoder.goesOn s.decode.decodable batchSize batchFrame = true ∧
        s.decode.decodable.needsBatch s.decode.decoder.frame = true
  | _ => False

instance (s : OnlineDecoding α) : Decidable s.NeedsBatch := by
  unfold NeedsBatch
  cases s.decode.pc <;> infer_instance

/-- The call of `Compute` in `LogLikelihood`; there is no timeout. -/
def computeCall : ComputeCall := ⟨batchSize, none⟩

/-- What the source delivers to the initial `Read` of a call. -/
def firstRead (s : OnlineDecoding α) : List α :=
  if s.vad.feInput.bufferInit then []
  else s.audio.take (s.vad.feInput.initBuffer vadOptions batchSize []).bufferLength

/-- `LogLikelihood` calls `Compute`. -/
def compute (g : SearchGraph) (s : OnlineDecoding α) (a : GraphArc) :
    Option (OnlineDecoding α) :=
  if s.phase = .decoding ∧ g.MayAsk s.active [a] ∧ s.NeedsBatch then
    if s.decode.decodable.finished then some { s with phase := .raised }
    else
      (s.vad.enter vadOptions computeCall s.firstRead).map fun vad =>
        { s with
          vad
          audio := s.audio.drop s.firstRead.length
          phase := .computing a }
  else none

/-- What the call of `Compute` has returned, if it has. -/
def returned (vad : VadSession α) : Option Bool := vad.log.head?.bind Batch.returned

/-- `OnSpeechEnd` calls `ForceEndUtterance`. -/
def forced (vad : VadSession α) : Bool :=
  vad.log.head?.any fun b => b.events.any fun e => e.2 == VadEvent.speechEnd

/-- An iteration of `Compute`; its `Read` gets what is requested, or what is left. -/
def iterate (s : OnlineDecoding α) (speech : Bool) : Option (OnlineDecoding α) :=
  match s.phase with
  | .computing a =>
      (s.vad.batch vadOptions speech (s.audio.take samplesReq)).map fun vad =>
        { s with
          vad
          audio := s.audio.drop samplesReq
          phase :=
            match returned vad with
            | none => .computing a
            | some moreData => .computed a moreData (forced vad) }
  | _ => none

/-- A frame of the loop of `Decode`, with the features that it has or that have just been
computed. -/
def score (g : SearchGraph) (rightContext : Nat) (s : OnlineDecoding α)
    (asked kept epsilons : List GraphArc) : Option (OnlineDecoding α) :=
  if g.MayAsk s.active asked ∧ ∀ a ∈ kept, a ∈ asked then
    (g.processNonemitting (kept.map GraphArc.nextstate) epsilons).bind fun active =>
      match s.phase with
      | .decoding =>
          (s.decode.step batchSize (.score ⟨asked ≠ [], none, false⟩)).map fun decode =>
            { s with decode, active }
      | .computed a moreData force =>
          if a ∈ asked then
            -- "Unexpected end-of-features"
            if ldaRows rightContext s.decode.decodable = 0 then some { s with phase := .raised }
            else
              (s.decode.step batchSize (.score
                  ⟨true, some (ldaRows rightContext s.decode.decodable, moreData), force⟩)).map
                fun decode => { s with phase := .decoding, decode, active }
          else none
      | _ => none
  else none

/-- The loop of `Decode` ends, and `OnlineDecode` leaves its own loop or goes on. -/
def finish (s : OnlineDecoding α) : Option (OnlineDecoding α) :=
  if s.phase = .decoding then
    (s.decode.step batchSize .finish).map fun decode => { s with decode }
  else none

def step (g : SearchGraph) (rightContext : Nat) (s : OnlineDecoding α) :
    LoopLabel → Option (OnlineDecoding α)
  | .call epsilons => s.call g epsilons
  | .score asked kept epsilons => s.score g rightContext asked kept epsilons
  | .compute a => s.compute g a
  | .iterate speech => s.iterate speech
  | .finish => s.finish

/-- The loop for a decoding graph and a source of this audio. -/
def system (g : SearchGraph) (rightContext : Nat) (audio : List α) :
    Transition.System (OnlineDecoding α) LoopLabel where
  init := create audio
  step := step g rightContext

/-- The loop has ended, by `kEndFeats` or by an exception. -/
def Ended (s : OnlineDecoding α) : Prop := s.decode.pc = .left ∨ s.phase = .raised

instance (s : OnlineDecoding α) : Decidable s.Ended := inferInstanceAs (Decidable (_ ∨ _))

/-- While the features have not ended, a frame asks for a score. -/
def Asks (s : OnlineDecoding α) : LoopLabel → Prop
  | .score asked _ _ => s.decode.decodable.finished = true ∨ asked ≠ []
  | _ => True

instance (s : OnlineDecoding α) (l : LoopLabel) : Decidable (s.Asks l) :=
  match l with
  | .score _ _ _ => inferInstanceAs (Decidable (_ ∨ _))
  | .call _ | .compute _ | .iterate _ | .finish => inferInstanceAs (Decidable True)

/-! ## What a step does -/

section Steps

variable {g : SearchGraph} {rightContext : Nat} {s t : OnlineDecoding α}

theorem call_cases {epsilons : List GraphArc} (h : s.call g epsilons = some t) :
    s.phase = .decoding ∧ s.decode.pc = .outside ∧ ∃ active,
      g.processNonemitting (if s.decode.decoder.newUtterance then [g.start] else s.active)
        epsilons = some active ∧
      t = { s with
        decode := { s.decode with
          decoder := s.decode.decoder.start
          alive := s.decode.alive || s.decode.decoder.newUtterance
          pc := .loop 0 }
        active } := by
  obtain ⟨hphase, h⟩ := Option.ite_none_right_eq_some.mp h
  obtain ⟨active, hactive, h⟩ := Option.bind_eq_some_iff.mp h
  obtain ⟨decode, hdecode, rfl⟩ := Option.map_eq_some_iff.mp h
  obtain ⟨hpc, rfl⟩ := DecodeSession.step_call hdecode
  exact ⟨hphase, hpc, active, hactive, rfl⟩

theorem compute_cases {a : GraphArc} (h : s.compute g a = some t) :
    s.phase = .decoding ∧ g.MayAsk s.active [a] ∧ s.NeedsBatch ∧
      (t = { s with phase := .raised } ∨
        s.decode.decodable.finished = false ∧ ∃ vad,
          s.vad.enter vadOptions computeCall s.firstRead = some vad ∧
          t = { s with
            vad
            audio := s.audio.drop s.firstRead.length
            phase := .computing a }) := by
  obtain ⟨⟨hphase, hask, hneeds⟩, h⟩ := Option.ite_none_right_eq_some.mp h
  refine ⟨hphase, hask, hneeds, ?_⟩
  split at h
  case isTrue => exact Or.inl (Option.some.inj h).symm
  case isFalse hfinished =>
    obtain ⟨vad, hvad, rfl⟩ := Option.map_eq_some_iff.mp h
    exact Or.inr ⟨eq_false_of_ne_true hfinished, vad, hvad, rfl⟩

theorem iterate_cases {speech : Bool} (h : s.iterate speech = some t) :
    ∃ a vad, s.phase = .computing a ∧
      s.vad.batch vadOptions speech (s.audio.take samplesReq) = some vad ∧
      t = { s with
        vad
        audio := s.audio.drop samplesReq
        phase :=
          match returned vad with
          | none => .computing a
          | some moreData => .computed a moreData (forced vad) } := by
  unfold iterate at h
  split at h
  case h_1 a hphase =>
    obtain ⟨vad, hvad, rfl⟩ := Option.map_eq_some_iff.mp h
    exact ⟨a, vad, hphase, hvad, rfl⟩
  case h_2 => cases h

theorem score_cases {asked kept epsilons : List GraphArc}
    (h : s.score g rightContext asked kept epsilons = some t) :
    g.MayAsk s.active asked ∧ ∃ active,
      g.processNonemitting (kept.map GraphArc.nextstate) epsilons = some active ∧
      (asked = [] → active = []) ∧
      ((s.phase = .decoding ∧ ∃ decode,
          s.decode.score batchSize ⟨asked ≠ [], none, false⟩ = some decode ∧
          t = { s with decode, active }) ∨
        ∃ a moreData force, s.phase = .computed a moreData force ∧ a ∈ asked ∧
          (t = { s with phase := .raised } ∨ ∃ decode,
            s.decode.score batchSize
              ⟨true, some (ldaRows rightContext s.decode.decodable, moreData), force⟩ =
                some decode ∧
            t = { s with phase := .decoding, decode, active })) := by
  obtain ⟨⟨hask, hkept⟩, h⟩ := Option.ite_none_right_eq_some.mp h
  obtain ⟨active, hactive, h⟩ := Option.bind_eq_some_iff.mp h
  refine ⟨hask, active, hactive, ?_, ?_⟩
  · rintro rfl
    obtain rfl : kept = [] := List.eq_nil_iff_forall_not_mem.mpr fun a ha => by
      simpa using hkept a ha
    exact SearchGraph.processNonemitting_nil hactive
  · split at h
    case h_1 hphase =>
      obtain ⟨decode, hdecode, rfl⟩ := Option.map_eq_some_iff.mp h
      exact Or.inl ⟨hphase, decode, hdecode, rfl⟩
    case h_2 a moreData force hphase =>
      obtain ⟨ha, h⟩ := Option.ite_none_right_eq_some.mp h
      refine Or.inr ⟨a, moreData, force, hphase, ha, ?_⟩
      split at h
      case isTrue => exact Or.inl (Option.some.inj h).symm
      case isFalse =>
        obtain ⟨decode, hdecode, rfl⟩ := Option.map_eq_some_iff.mp h
        exact Or.inr ⟨decode, hdecode, rfl⟩
    case h_3 => cases h

theorem finish_cases (h : s.finish = some t) :
    s.phase = .decoding ∧ ∃ batchFrame, s.decode.pc = .loop batchFrame ∧
      ¬ s.decode.decoder.goesOn s.decode.decodable batchSize batchFrame = true ∧
      t = { s with decode := { s.decode with
        decoder := s.decode.decoder.finish s.decode.decodable batchSize batchFrame
        pc := if (s.decode.decoder.finish s.decode.decodable batchSize batchFrame).state ==
            .endFeats then .left else .outside } } := by
  obtain ⟨hphase, h⟩ := Option.ite_none_right_eq_some.mp h
  obtain ⟨decode, hdecode, rfl⟩ := Option.map_eq_some_iff.mp h
  obtain ⟨batchFrame, hpc, hgoes, rfl⟩ := DecodeSession.step_finish hdecode
  exact ⟨hphase, batchFrame, hpc, hgoes, rfl⟩

end Steps

/-! ## The loop in every run -/

/-- The frame asks for the score of an arc, and its features can be loaded. -/
structure AwaitsBatch (g : SearchGraph) (s : OnlineDecoding α) (a : GraphArc) : Prop where
  mayAsk : g.MayAsk s.active [a]
  needsBatch : s.NeedsBatch
  finished : s.decode.decodable.finished = false

/-- The counters are between two calls of `ForceEndUtterance`, and a call of `Compute` in
progress is the one of a frame that needs it. -/
structure Regular (g : SearchGraph) (s : OnlineDecoding α) : Prop where
  notForcing : s.decode.decoder.forcingEndUtt = false
  batch : ∀ batchFrame, s.decode.pc = .loop batchFrame → batchFrame ≤ batchSize
  outside : s.decode.pc = .outside → s.decode.decoder.state = .endFeats →
    s.decode.decoder.frame = 0
  alive : s.active ≠ [] → s.decode.alive = true
  computing : ∀ a, s.phase = .computing a → AwaitsBatch g s a ∧ s.vad.call = some computeCall
  computed : ∀ a moreData force, s.phase = .computed a moreData force → AwaitsBatch g s a

theorem regular_create (g : SearchGraph) (audio : List α) : Regular g (create audio) := by
  constructor <;> simp [create, DecodeSession.create, OnlineFasterDecoder.create]

/-- The counters after a frame. -/
theorem Regular.scored {g : SearchGraph} {s : OnlineDecoding α} (h : Regular g s) {e : Scoring}
    {decode : DecodeSession} (hs : s.decode.score batchSize e = some decode) {active : List Nat}
    (halive : active ≠ [] → e.asked = true) :
    Regular g { s with phase := .decoding, decode, active } := by
  obtain ⟨batchFrame, decodable, hpc, hgoes, -, -, -, rfl⟩ :=
    DecodeSession.score_cases h.notForcing hs
  have hlt : batchFrame < batchSize := by
    have hand := (Bool.and_eq_true_iff.mp hgoes).2
    exact of_decide_eq_true hand
  refine ⟨?_, ?_, ?_, halive, by simp, by simp⟩
  · show (if e.force then s.decode.decoder.forceEndUtterance.endForced
      else s.decode.decoder.nextFrame).forcingEndUtt = false
    split
    · rfl
    · exact h.notForcing
  · intro next hnext
    simp only at hnext
    split at hnext
    · cases hnext
    · cases hnext
      exact hlt
  · intro hout hstate
    simp only at hout hstate
    split at hout
    case isTrue hforce =>
      rw [if_pos hforce] at hstate
      cases hstate
    case isFalse => cases hout

/-- The iteration is one of the call that `LogLikelihood` has made. -/
theorem Regular.iterated {g : SearchGraph} {s : OnlineDecoding α} {a : GraphArc}
    {speech : Bool} {block : List α} {vad : VadSession α} (h : Regular g s)
    (hphase : s.phase = .computing a)
    (hvad : s.vad.batch vadOptions speech block = some vad) :
    ∃ b, VadSession.Iterated vadOptions s.vad vad computeCall b ∧ b.block = block ∧
      returned vad = b.returned := by
  obtain ⟨-, hcall⟩ := h.computing a hphase
  obtain ⟨c, b, hit, -, hblock⟩ := VadSession.batch_iterated hvad
  obtain rfl : c = computeCall := Option.some.inj (hit.call.symm.trans hcall)
  refine ⟨b, hit, hblock, ?_⟩
  rw [returned, hit.log]
  rfl

theorem Regular.step {g : SearchGraph} {rightContext : Nat} {s t : OnlineDecoding α}
    {l : LoopLabel} (h : Regular g s) (hs : s.step g rightContext l = some t) :
    Regular g t := by
  cases l with
  | call epsilons =>
      obtain ⟨hphase, -, active, hactive, rfl⟩ := call_cases hs
      refine ⟨?_, ?_, by simp, ?_, by simp [hphase], by simp [hphase]⟩
      · exact (DecodeSession.start_forcingEndUtt _).trans h.notForcing
      · intro batchFrame hpc
        cases hpc
        exact Nat.zero_le _
      · intro hne
        show (s.decode.alive || s.decode.decoder.newUtterance) = true
        cases hnew : s.decode.decoder.newUtterance with
        | true => exact Bool.or_true _
        | false =>
            rw [Bool.or_false]
            refine h.alive fun hnone => hne ?_
            rw [hnew, hnone] at hactive
            exact SearchGraph.processNonemitting_nil hactive
  | score asked kept epsilons =>
      obtain ⟨-, active, -, hnone, ⟨hphase, decode, hdecode, rfl⟩ |
        ⟨a, moreData, force, -, -, rfl | ⟨decode, hdecode, rfl⟩⟩⟩ := score_cases hs
      · have hscored := h.scored hdecode fun hne => decide_eq_true (mt hnone hne)
        rw [← hphase] at hscored
        exact hscored
      · exact ⟨h.notForcing, h.batch, h.outside, h.alive, by simp, by simp⟩
      · exact h.scored hdecode fun _ => rfl
  | compute a =>
      obtain ⟨-, hask, hneeds, rfl | ⟨hfinished, vad, hvad, rfl⟩⟩ := compute_cases hs
      · exact ⟨h.notForcing, h.batch, h.outside, h.alive, by simp, by simp⟩
      · refine ⟨h.notForcing, h.batch, h.outside, h.alive, ?_, by simp⟩
        intro a' ha'
        obtain rfl := LoopPhase.computing.inj ha'
        obtain ⟨-, ⟨hzero, -⟩ | ⟨-, -, -, -, hcall, -⟩⟩ := VadSession.enter_cases hvad
        · exact absurd hzero (by decide)
        · exact ⟨⟨hask, hneeds, hfinished⟩, hcall⟩
  | iterate speech =>
      obtain ⟨a, vad, hphase, hvad, rfl⟩ := iterate_cases hs
      obtain ⟨hawaits, -⟩ := h.computing a hphase
      obtain ⟨b, hit, -, hreturned⟩ := h.iterated hphase hvad
      have hnext := hit.next
      simp only [hreturned]
      cases hr : b.returned with
      | none =>
          rw [hr] at hnext
          refine ⟨h.notForcing, h.batch, h.outside, h.alive, ?_, by simp⟩
          intro a' ha'
          obtain rfl := LoopPhase.computing.inj ha'
          exact ⟨⟨hawaits.mayAsk, hawaits.needsBatch, hawaits.finished⟩, hnext⟩
      | some moreData =>
          refine ⟨h.notForcing, h.batch, h.outside, h.alive, by simp, ?_⟩
          intro a' more force ha'
          obtain ⟨rfl, -, -⟩ := LoopPhase.computed.inj ha'
          exact ⟨hawaits.mayAsk, hawaits.needsBatch, hawaits.finished⟩
  | finish =>
      obtain ⟨hphase, batchFrame, hpc, hgoes, rfl⟩ := finish_cases hs
      refine ⟨h.notForcing, ?_, ?_, h.alive, by simp [hphase], by simp [hphase]⟩
      · intro next hnext
        simp only at hnext
        split at hnext <;> cases hnext
      · intro hout hstate
        simp only at hout hstate
        rw [hstate] at hout
        cases hout

theorem regular_of_reachable {g : SearchGraph} {rightContext : Nat} {audio : List α}
    {s : OnlineDecoding α} (h : (system g rightContext audio).Reachable s) : Regular g s :=
  Transition.System.Reachable.invariant (Regular g) (regular_create g audio)
    (fun _ _ _ hi hs => hi.step hs) h

/-- A frame that asks for nothing is always possible. -/
theorem score_nothing {s : DecodeSession} {batchFrame : Nat}
    (hpc : s.pc = .loop batchFrame)
    (hgoes : s.decoder.goesOn s.decodable batchSize batchFrame = true) :
    ∃ decode, s.step batchSize (.score ⟨false, none, false⟩) = some decode := by
  simp [DecodeSession.step, DecodeSession.score, hpc, hgoes, DecodeSession.logLikelihood]

theorem AwaitsBatch.active_ne_nil {g : SearchGraph} {s : OnlineDecoding α} {a : GraphArc}
    (h : AwaitsBatch g s a) : s.active ≠ [] := by
  intro hnone
  have hask := h.mayAsk
  rw [hnone] at hask
  cases SearchGraph.mayAsk_nil hask

/-- The features that a frame awaits can be loaded, if there are any. -/
theorem AwaitsBatch.score {g : SearchGraph} {s : OnlineDecoding α} {a : GraphArc} {rows : Nat}
    (h : AwaitsBatch g s a) (halive : s.decode.alive = true) (hrows : rows ≠ 0)
    (moreData force : Bool) : ∃ decode,
      s.decode.step batchSize (.score ⟨true, some (rows, moreData), force⟩) = some decode := by
  have hneeds := h.needsBatch
  unfold NeedsBatch at hneeds
  split at hneeds
  case h_1 batchFrame hpc =>
    obtain ⟨hgoes, hbeyond⟩ := hneeds
    simp [DecodeSession.step, DecodeSession.score, hpc, hgoes, halive,
      DecodeSession.logLikelihood, hbeyond, OnlineDecodable.load, h.finished, hrows]
  case h_2 => exact hneeds.elim

/-- The loop is nowhere stuck. -/
theorem progress {g : SearchGraph} {rightContext : Nat} {s : OnlineDecoding α}
    (h : Regular g s) (hnot : ¬ s.Ended) : ∃ l t, s.step g rightContext l = some t := by
  cases hphase : s.phase with
  | decoding =>
      cases hpc : s.decode.pc with
      | outside =>
          have hcall : ∃ t, s.call g [] = some t := by
            simp [call, hphase, SearchGraph.processNonemitting, DecodeSession.step, hpc]
          exact ⟨.call [], hcall⟩
      | loop batchFrame =>
          by_cases hgoes :
              s.decode.decoder.goesOn s.decode.decodable batchSize batchFrame = true
          · obtain ⟨decode, hdecode⟩ := score_nothing hpc hgoes
            refine ⟨.score [] [] [], { s with decode, active := [] }, ?_⟩
            simp [step, score, SearchGraph.MayAsk, SearchGraph.processNonemitting, hphase,
              hdecode]
          · have hfinish : ∃ t, s.finish = some t := by
              simp [finish, hphase, DecodeSession.step, hpc, hgoes]
            exact ⟨.finish, hfinish⟩
      | left => exact absurd (Or.inl hpc) hnot
  | computing a =>
      obtain ⟨-, hcall⟩ := h.computing a hphase
      have hblock : (s.audio.take samplesReq).length ≤ vadOptions.samplesReq computeCall.nvec :=
        List.length_take_le _ _
      have hiterate : ∃ t, s.iterate false = some t := by
        simp only [iterate, hphase, VadSession.batch, hcall, hblock, if_true, Option.map_some]
        exact ⟨_, rfl⟩
      exact ⟨.iterate false, hiterate⟩
  | computed a moreData force =>
      have hawaits := h.computed a moreData force hphase
      refine ⟨.score [a] [] [], ?_⟩
      simp only [step, score, hawaits.mayAsk, List.not_mem_nil, false_implies, implies_true,
        and_self, if_true, List.map_nil, SearchGraph.processNonemitting, Option.bind_some, hphase,
        List.mem_singleton]
      split
      case isTrue => exact ⟨_, rfl⟩
      case isFalse hrows =>
        have halive : s.decode.alive = true := h.alive hawaits.active_ne_nil
        obtain ⟨decode, hdecode⟩ := hawaits.score halive hrows moreData force
        exact ⟨_, by rw [hdecode]; rfl⟩
  | raised => exact absurd (Or.inr hphase) hnot

/-! ## Without tokens the loop goes on for ever -/

/-- There are no tokens, no features to come of themselves, and no new utterance to
start. -/
structure Dead (s : OnlineDecoding α) : Prop where
  phase : s.phase = .decoding
  active : s.active = []
  finished : s.decode.decodable.finished = false
  pc : s.decode.pc ≠ .left
  outside : s.decode.pc = .outside → s.decode.decoder.state = .endBatch

/-- A frame that asks for nothing leaves no tokens. -/
theorem dead_of_silent {g : SearchGraph} {rightContext : Nat} {s t : OnlineDecoding α}
    {asked kept epsilons : List GraphArc} (h : Regular g s)
    (hfinished : s.decode.decodable.finished = false) (hasked : asked = [])
    (hs : s.score g rightContext asked kept epsilons = some t) : Dead t := by
  obtain ⟨-, active, -, hnone, ⟨hphase, decode, hdecode, rfl⟩ |
    ⟨a, moreData, force, -, ha, -⟩⟩ := score_cases hs
  · have hll := DecodeSession.score_logLikelihood hdecode
    have hsame := DecodeSession.logLikelihood_none hll
    obtain ⟨batchFrame, decodable, -, -, -, -, -, hd⟩ :=
      DecodeSession.score_cases h.notForcing hdecode
    refine ⟨hphase, hnone hasked, ?_, ?_, ?_⟩
    · show decode.decodable.finished = false
      rw [hsame]
      exact hfinished
    · simp [hd]
    · simp [hd]
  · rw [hasked] at ha
    cases ha

theorem Dead.step {g : SearchGraph} {rightContext : Nat} {s t : OnlineDecoding α}
    {l : LoopLabel} (hr : Regular g s) (h : Dead s) (hs : s.step g rightContext l = some t) :
    Dead t := by
  cases l with
  | call epsilons =>
      obtain ⟨hphase, hpc, active, hactive, rfl⟩ := call_cases hs
      have hstate := h.outside hpc
      have hold : s.decode.decoder.newUtterance = false := by
        rw [OnlineFasterDecoder.newUtterance, hstate]
        rfl
      rw [hold, h.active] at hactive
      exact ⟨hphase, SearchGraph.processNonemitting_nil hactive, h.finished, by simp, by simp⟩
  | score asked kept epsilons =>
      obtain ⟨hask, -⟩ := score_cases hs
      rw [h.active] at hask
      exact dead_of_silent hr h.finished (SearchGraph.mayAsk_nil hask) hs
  | compute a =>
      obtain ⟨-, hask, -⟩ := compute_cases hs
      rw [h.active] at hask
      cases SearchGraph.mayAsk_nil hask
  | iterate speech =>
      obtain ⟨a, vad, hphase, -, -⟩ := iterate_cases hs
      rw [h.phase] at hphase
      cases hphase
  | finish =>
      obtain ⟨hphase, batchFrame, hpc, hgoes, rfl⟩ := finish_cases hs
      have hlast : s.decode.decodable.isLastFrame ((s.decode.decoder.frame : Int) - 1) = false := by
        simp [OnlineDecodable.isLastFrame, h.finished]
      have hstate := DecodeSession.finish_state (hr.batch batchFrame hpc) hgoes
      rw [if_neg (by rw [hlast]; decide)] at hstate
      exact ⟨hphase, h.active, h.finished, by simp [hstate], fun _ => hstate⟩

/-- Once the tokens have died before the features have ended, the loop never ends. -/
theorem dead_forever {g : SearchGraph} {rightContext : Nat} {audio : List α}
    {s t : OnlineDecoding α} {es : List LoopLabel} (hr : Regular g s) (h : Dead s)
    (hs : (system g rightContext audio).runFrom s es = some t) :
    ¬ t.Ended ∧ ∃ l u, (system g rightContext audio).step t l = some u := by
  obtain ⟨hr', hdead⟩ := Transition.System.runFrom_invariant
    (fun s : OnlineDecoding α => Regular g s ∧ Dead s)
    (fun _ _ _ hi hstep => ⟨hi.1.step hstep, hi.2.step hi.1 hstep⟩) ⟨hr, h⟩ hs
  have hnot : ¬ t.Ended := by
    rintro (hleft | hraised)
    · exact hdead.pc hleft
    · rw [hdead.phase] at hraised
      cases hraised
  exact ⟨hnot, progress hr' hnot⟩

/-! ## As long as each frame asks -/

/-- The frame is one whose features have been received, or the next one. -/
structure Timely (g : SearchGraph) (s : OnlineDecoding α) : Prop where
  regular : Regular g s
  within : s.decode.decoder.frame ≤ s.decode.decodable.rows

/-- How many batches of features can still be loaded. -/
def loads (s : OnlineDecoding α) : Nat :=
  match s.phase with
  | .decoding => if s.decode.decodable.finished then 0 else s.audio.length / samplesReq + 1
  | .computing _ => s.audio.length / samplesReq + 1
  | .computed _ moreData _ => if moreData then s.audio.length / samplesReq + 2 else 1
  | .raised => 0

/-- The order of the steps of a frame and of the calls of `Decode`. -/
def rank (s : OnlineDecoding α) : Nat :=
  match s.phase, s.decode.pc with
  | .decoding, .left => 0
  | .decoding, .loop 0 => 5
  | .decoding, .outside => 6
  | .decoding, .loop _ => 7
  | .computing _, _ => 4
  | .computed _ _ _, _ => 3
  | .raised, _ => 0

/-- The frames that are left, those of batches to come included, and these batches. -/
def work (s : OnlineDecoding α) : Nat :=
  s.decode.decodable.rows - s.decode.decoder.frame + (batchSize + 1) * s.loads

def measure (s : OnlineDecoding α) : Nat := 8 * s.work + s.rank

theorem timely_create (g : SearchGraph) (audio : List α) : Timely g (create audio) :=
  ⟨regular_create g audio, Nat.zero_le _⟩

theorem rank_le (s : OnlineDecoding α) : s.rank ≤ 7 := by
  unfold rank
  split <;> decide

theorem rank_loop {s : OnlineDecoding α} {batchFrame : Nat} (hphase : s.phase = .decoding)
    (hpc : s.decode.pc = .loop batchFrame) : s.rank = if batchFrame = 0 then 5 else 7 := by
  cases batchFrame with
  | zero => simp [rank, hphase, hpc]
  | succ n => simp [rank, hphase, hpc]

section Measure

variable {g : SearchGraph} {rightContext : Nat} {s t : OnlineDecoding α}

theorem measure_lt_of_rank (hwork : t.work ≤ s.work) (hrank : t.rank < s.rank) :
    measure t < measure s := by
  rw [measure, measure]
  omega

theorem measure_lt_of_work (hwork : t.work < s.work) : measure t < measure s := by
  have hrank := rank_le t
  rw [measure, measure]
  omega

theorem loads_decoding (hphase : s.phase = .decoding) : s.loads =
    if s.decode.decodable.finished then 0 else s.audio.length / samplesReq + 1 := by
  rw [loads, hphase]

/-- A step of `Decode` that leaves the features and the frame as they are. -/
theorem work_eq (hphase : s.phase = .decoding) (hphase' : t.phase = .decoding)
    (hdecodable : t.decode.decodable = s.decode.decodable)
    (hframe : t.decode.decoder.frame = s.decode.decoder.frame) (haudio : t.audio = s.audio) :
    t.work = s.work := by
  rw [work, work, loads_decoding hphase, loads_decoding hphase', hdecodable, hframe, haudio]

theorem Timely.call {epsilons : List GraphArc} (h : Timely g s)
    (hs : s.call g epsilons = some t) :
    t.decode.decoder.frame ≤ t.decode.decodable.rows ∧ measure t < measure s := by
  obtain ⟨hphase, hpc, active, -, ht⟩ := call_cases hs
  have hphase' : t.phase = .decoding := by rw [ht]; exact hphase
  have hpc' : t.decode.pc = .loop 0 := by rw [ht]
  have hframe : t.decode.decoder.frame = s.decode.decoder.frame := by
    rw [ht]
    show s.decode.decoder.start.frame = s.decode.decoder.frame
    rw [DecodeSession.start_frame]
    split
    case isTrue hstate => exact (h.regular.outside hpc hstate).symm
    case isFalse => rfl
  have hdecodable : t.decode.decodable = s.decode.decodable := by rw [ht]
  have haudio : t.audio = s.audio := by rw [ht]
  refine ⟨?_, measure_lt_of_rank ?_ ?_⟩
  · rw [hframe, hdecodable]
    exact h.within
  · exact Nat.le_of_eq (work_eq hphase hphase' hdecodable hframe haudio)
  · have hrank : s.rank = 6 := by rw [rank, hphase, hpc]
    rw [hrank, rank_loop hphase' hpc']
    decide

theorem Timely.finish (h : Timely g s) (hs : s.finish = some t) :
    t.decode.decoder.frame ≤ t.decode.decodable.rows ∧ measure t < measure s := by
  obtain ⟨hphase, batchFrame, hpc, hgoes, ht⟩ := finish_cases hs
  have hphase' : t.phase = .decoding := by rw [ht]; exact hphase
  have hframe : t.decode.decoder.frame = s.decode.decoder.frame := by
    rw [ht]
    rfl
  have hdecodable : t.decode.decodable = s.decode.decodable := by rw [ht]
  have haudio : t.audio = s.audio := by rw [ht]
  refine ⟨?_, measure_lt_of_rank ?_ ?_⟩
  · rw [hframe, hdecodable]
    exact h.within
  · exact Nat.le_of_eq (work_eq hphase hphase' hdecodable hframe haudio)
  · rw [rank_loop hphase hpc, ht]
    by_cases hleft : (s.decode.decoder.finish s.decode.decodable batchSize batchFrame).state =
        .endFeats
    · simp only [rank, hphase, hleft, beq_self_eq_true, if_true]
      split <;> decide
    · -- a full batch
      have hfull : batchFrame = batchSize := by
        by_contra hne
        simp [OnlineFasterDecoder.finish, hne] at hleft
      have hout : ((s.decode.decoder.finish s.decode.decodable batchSize batchFrame).state ==
          .endFeats) = false := beq_eq_false_iff_ne.mpr hleft
      simp only [rank, hphase, hout, Bool.false_eq_true, if_false]
      rw [hfull]
      decide

theorem Timely.compute {a : GraphArc} (h : Timely g s) (hs : s.compute g a = some t) :
    t.decode.decoder.frame ≤ t.decode.decodable.rows ∧ measure t < measure s := by
  obtain ⟨hphase, -, hneeds, hcases⟩ := compute_cases hs
  obtain ⟨batchFrame, hpc⟩ : ∃ batchFrame, s.decode.pc = .loop batchFrame := by
    unfold NeedsBatch at hneeds
    split at hneeds
    case h_1 batchFrame hpc => exact ⟨batchFrame, hpc⟩
    case h_2 => exact hneeds.elim
  have hrank : 5 ≤ s.rank := by
    rw [rank_loop hphase hpc]
    split <;> decide
  rcases hcases with rfl | ⟨hfinished, vad, -, rfl⟩
  · refine ⟨h.within, measure_lt_of_rank ?_ ?_⟩
    · exact Nat.add_le_add_left (Nat.zero_le _) _
    · exact Nat.lt_of_lt_of_le (by decide : 0 < 5) hrank
  · refine ⟨h.within, measure_lt_of_rank ?_ ?_⟩
    · have hle : (s.audio.drop s.firstRead.length).length ≤ s.audio.length := by
        rw [List.length_drop]
        exact Nat.sub_le _ _
      have hloads := loads_decoding hphase
      rw [hfinished, if_neg (by decide)] at hloads
      rw [work, work, hloads]
      exact Nat.add_le_add_left (Nat.mul_le_mul_left _
        (Nat.succ_le_succ (Nat.div_le_div_right hle))) _
    · exact Nat.lt_of_lt_of_le (by decide : 4 < 5) hrank

/-- What an iteration of `Compute` leaves of the audio, and what it returns. -/
theorem iterate_reads {a : GraphArc} {vad : VadSession α} {speech : Bool}
    (h : Regular g s) (hphase : s.phase = .computing a)
    (hvad : s.vad.batch vadOptions speech (s.audio.take samplesReq) = some vad) :
    samplesReq ≤ s.audio.length ∧ (returned vad = none ∨ returned vad = some true) ∨
      returned vad = some false := by
  obtain ⟨b, hit, hblock, hlog⟩ := h.iterated hphase hvad
  have hret := hit.returned
  have hreq : vadOptions.samplesReq computeCall.nvec = samplesReq := rfl
  have hno : (computeCall.timeout == some 0) = false := rfl
  rw [hreq, hno, Bool.or_false, hblock, List.length_take] at hret
  rw [hlog, hret]
  by_cases hfull : samplesReq ≤ s.audio.length
  · have hmin : (min samplesReq s.audio.length == samplesReq) = true := by
      rw [Nat.min_eq_left hfull, beq_self_eq_true]
    rw [hmin]
    refine Or.inl ⟨hfull, ?_⟩
    split
    · exact Or.inl rfl
    · exact Or.inr rfl
  · have hmin : (min samplesReq s.audio.length == samplesReq) = false := by
      rw [Nat.min_eq_right (by omega), beq_eq_false_iff_ne]
      omega
    rw [hmin, Bool.and_false]
    exact Or.inr rfl

theorem Timely.iterate {speech : Bool} (h : Timely g s) (hs : s.iterate speech = some t) :
    t.decode.decoder.frame ≤ t.decode.decodable.rows ∧ measure t < measure s := by
  obtain ⟨a, vad, hphase, hvad, rfl⟩ := iterate_cases hs
  refine ⟨h.within, ?_⟩
  have hloads : s.loads = s.audio.length / samplesReq + 1 := by rw [loads, hphase]
  have hrank : s.rank = 4 := by rw [rank, hphase]
  have hdrop : samplesReq ≤ s.audio.length → s.audio.length / samplesReq =
      (s.audio.drop samplesReq).length / samplesReq + 1 := by
    intro hfull
    rw [List.length_drop]
    exact Nat.div_eq_sub_div (by decide) hfull
  rcases iterate_reads h.regular hphase hvad with ⟨hfull, hret | hret⟩ | hret
  · -- silence: one block less
    refine measure_lt_of_work ?_
    rw [work, work, hloads, hdrop hfull, hret]
    exact Nat.add_lt_add_left (Nat.mul_lt_mul_of_pos_left (Nat.lt_succ_self _) (by decide)) _
  · refine measure_lt_of_rank ?_ ?_
    · apply Nat.le_of_eq
      rw [work, work, hloads, hdrop hfull, hret]
      rfl
    · rw [hrank, hret]
      exact (by decide : 3 < 4)
  · refine measure_lt_of_rank ?_ ?_
    · rw [work, work, hloads, hret]
      exact Nat.add_le_add_left (Nat.mul_le_mul_left _ (Nat.succ_le_succ (Nat.zero_le _))) _
    · rw [hrank, hret]
      exact (by decide : 3 < 4)

/-- A frame that is processed after the features have ended is one of theirs. -/
theorem lt_rows_of_goesOn {d : OnlineFasterDecoder} {decodable : OnlineDecodable}
    {batchFrame : Nat} (hfinished : decodable.finished = true)
    (hgoes : d.goesOn decodable batchSize batchFrame = true) : d.frame < decodable.rows := by
  have hlast : decodable.isLastFrame ((d.frame : Int) - 1) = false := by
    simpa using (Bool.and_eq_true_iff.mp hgoes).1
  cases hframe : d.frame with
  | zero =>
      rw [hframe, DecodeSession.isLastFrame_zero, hfinished] at hlast
      cases hlast
  | succ n =>
      by_contra hge
      have htrue := (DecodeSession.isLastFrame_pred (d := decodable) (Nat.succ_pos n)).mpr
        ⟨hfinished, by omega⟩
      rw [hframe, htrue] at hlast
      cases hlast

/-- A frame that has its features is done with. -/
theorem Timely.scoreReceived {asked kept epsilons : List GraphArc} {decode : DecodeSession}
    (h : Timely g s) (hok : s.Asks (.score asked kept epsilons))
    (hdecode : s.decode.score batchSize ⟨asked ≠ [], none, false⟩ = some decode) :
    decode.decodable = s.decode.decodable ∧
      decode.decoder.frame = s.decode.decoder.frame + 1 ∧
      s.decode.decoder.frame < s.decode.decodable.rows := by
  have hll := DecodeSession.score_logLikelihood hdecode
  have hsame := DecodeSession.logLikelihood_none hll
  obtain ⟨batchFrame, decodable, -, hgoes, -, -, -, hd⟩ :=
    DecodeSession.score_cases h.regular.notForcing hdecode
  refine ⟨hsame, by rw [hd]; rfl, ?_⟩
  rcases hok with hfinished | hne
  · exact lt_rows_of_goesOn hfinished hgoes
  · rcases DecodeSession.logLikelihood_cases hll with ⟨-, hlt⟩ | ⟨-, -, -, hmore⟩
    · exact hlt (decide_eq_true hne)
    · rw [hsame] at hmore
      exact absurd hmore (Nat.lt_irrefl _)

/-- A frame that has had its features computed. -/
theorem Timely.scoreComputed {moreData force : Bool} {rows : Nat} {decode : DecodeSession}
    (h : Timely g s)
    (hdecode : s.decode.score batchSize ⟨true, some (rows, moreData), force⟩ = some decode) :
    decode.decodable.rows = s.decode.decodable.rows + rows ∧
      decode.decodable.finished = !moreData ∧ s.decode.decoder.frame ≤ decode.decoder.frame ∧
      decode.decoder.frame ≤ decode.decodable.rows := by
  obtain ⟨hpos, hrows, hfinished⟩ := DecodeSession.logLikelihood_some
    (DecodeSession.score_logLikelihood hdecode)
  obtain ⟨batchFrame, decodable, -, -, -, -, -, hd⟩ :=
    DecodeSession.score_cases h.regular.notForcing hdecode
  have hwithin := h.within
  have hframe : decode.decoder.frame = s.decode.decoder.frame + if force then 0 else 1 := by
    rw [hd]
    cases force with
    | true => rfl
    | false => rfl
  refine ⟨hrows, hfinished, by omega, ?_⟩
  rw [hframe, hrows]
  split <;> omega

theorem ldaRows_le (rightContext : Nat) (d : OnlineDecodable) :
    ldaRows rightContext d ≤ batchSize :=
  Nat.sub_le _ _

theorem Timely.score {asked kept epsilons : List GraphArc} (h : Timely g s)
    (hok : s.Asks (.score asked kept epsilons))
    (hs : s.score g rightContext asked kept epsilons = some t) :
    t.decode.decoder.frame ≤ t.decode.decodable.rows ∧ measure t < measure s := by
  have hwithin := h.within
  obtain ⟨-, active, -, -, ⟨hphase, decode, hdecode, ht⟩ |
    ⟨a, moreData, force, hphase, -, ht | ⟨decode, hdecode, ht⟩⟩⟩ := score_cases hs
  · obtain ⟨hsame, hframe, hlt⟩ := h.scoreReceived hok hdecode
    have hphase' : t.phase = .decoding := by rw [ht]; exact hphase
    have hdecode' : t.decode = decode := by rw [ht]
    have haudio : t.audio = s.audio := by rw [ht]
    refine ⟨?_, measure_lt_of_work ?_⟩
    · rw [hdecode', hframe, hsame]
      exact hlt
    · rw [work, work, loads_decoding hphase, loads_decoding hphase', hdecode', haudio, hsame,
        hframe]
      omega
  · have hphase' : t.phase = .raised := by rw [ht]
    have hdecode' : t.decode = s.decode := by rw [ht]
    refine ⟨by rw [hdecode']; exact hwithin, measure_lt_of_rank ?_ ?_⟩
    · have hnone : t.loads = 0 := by rw [loads, hphase']
      rw [work, work, hdecode', hnone]
      omega
    · have hrank : s.rank = 3 := by rw [rank, hphase]
      have hrank' : t.rank = 0 := by rw [rank, hphase']
      omega
  · obtain ⟨hrows, hfinished, hframe, hnext⟩ := h.scoreComputed hdecode
    have hle := ldaRows_le rightContext s.decode.decodable
    have hphase' : t.phase = .decoding := by rw [ht]
    have hdecode' : t.decode = decode := by rw [ht]
    have haudio : t.audio = s.audio := by rw [ht]
    have hloads : s.loads = t.loads + 1 := by
      rw [loads_decoding hphase', loads, hphase, hdecode', haudio, hfinished]
      cases moreData with
      | true => rfl
      | false => rfl
    refine ⟨by rw [hdecode']; exact hnext, measure_lt_of_work ?_⟩
    rw [work, work, hloads, Nat.mul_succ, hdecode', hrows]
    omega

theorem Timely.step {l : LoopLabel} (h : Timely g s) (hok : s.Asks l)
    (hs : s.step g rightContext l = some t) : Timely g t ∧ measure t < measure s := by
  have hmoves : t.decode.decoder.frame ≤ t.decode.decodable.rows ∧ measure t < measure s := by
    cases l with
    | call epsilons => exact h.call hs
    | score asked kept epsilons => exact h.score hok hs
    | compute a => exact h.compute hs
    | iterate speech => exact h.iterate hs
    | finish => exact h.finish hs
  exact ⟨⟨h.regular.step hs, hmoves.1⟩, hmoves.2⟩

end Measure

/-- How many steps the loop can take for so many samples. -/
def stepBound (length : Nat) : Nat := 8 * ((batchSize + 1) * (length / samplesReq + 1)) + 6

theorem measure_create (audio : List α) : measure (create audio) = stepBound audio.length := by
  simp [measure, work, loads, rank, stepBound, create, DecodeSession.create,
    OnlineDecodable.create, OnlineDecodable.rows, OnlineFasterDecoder.create]

/-- **The loop of `OnlineDecode`.**  A run in which each frame asks for a score until the
features have ended takes a bounded number of steps, and as long as the loop has not ended
there is a next one: it ends.  After any other frame it never ends, and never gets stuck. -/
theorem loop_ends (g : SearchGraph) (rightContext : Nat) (audio : List α) :
    (∀ es s, (system g rightContext audio).runVia Asks (create audio) es = some s →
      es.length ≤ stepBound audio.length ∧
        (s.Ended ∨ ∃ l t, (system g rightContext audio).step s l = some t)) ∧
      ∀ s l t, (system g rightContext audio).Reachable s → ¬ s.Asks l →
        (system g rightContext audio).step s l = some t →
        ∀ es u, (system g rightContext audio).runFrom t es = some u →
          ¬ u.Ended ∧ ∃ l' v, (system g rightContext audio).step u l' = some v := by
  constructor
  · intro es s hs
    have hbound := Transition.System.runVia_length_le (Timely g) measure
      (fun _ _ _ hi hok hstep => hi.step hok hstep) (timely_create g audio) hs
    rw [measure_create] at hbound
    refine ⟨hbound, ?_⟩
    by_cases hended : s.Ended
    · exact Or.inl hended
    · have hreach := Transition.System.ReachableVia.init.run hs
      exact Or.inr (progress (regular_of_reachable hreach.reachable) hended)
  · intro s l t hreach hno hs es u hu
    have hregular := regular_of_reachable hreach
    cases l with
    | score asked kept epsilons =>
        rw [Asks, not_or, ne_eq, Decidable.not_not] at hno
        have hscore : s.score g rightContext asked kept epsilons = some t := hs
        have hdead := dead_of_silent hregular (eq_false_of_ne_true hno.1) hno.2 hscore
        have ht : Regular g t := hregular.step (l := .score asked kept epsilons) hscore
        exact dead_forever ht hdead hu
    | call epsilons => exact absurd trivial hno
    | compute a => exact absurd trivial hno
    | iterate speech => exact absurd trivial hno
    | finish => exact absurd trivial hno

/-- A graph without arcs, and some audio: after the first frame the loop never ends. -/
theorem loop_without_arcs :
    ∃ s, (system ⟨0, []⟩ 4 [1, 2, 3]).runFrom (create [1, 2, 3])
        [.call [], .score [] [] []] = some s ∧
      ∀ es t, (system ⟨0, []⟩ 4 [1, 2, 3]).runFrom s es = some t →
        ¬ t.Ended ∧ ∃ l u, (system ⟨0, []⟩ 4 [1, 2, 3]).step t l = some u := by
  obtain ⟨s, hrun, hdead⟩ : ∃ s, (system ⟨0, []⟩ 4 [1, 2, 3]).runFrom (create [1, 2, 3])
      [.call [], .score [] [] []] = some s ∧ Dead s := by
    refine ⟨_, rfl, rfl, rfl, rfl, ?_, ?_⟩
    · exact DecodePc.noConfusion
    · exact DecodePc.noConfusion
  have hregular : Regular ⟨0, []⟩ s :=
    regular_of_reachable (Transition.System.reachable_of_run hrun)
  exact ⟨s, hrun, fun es t ht => dead_forever hregular hdead ht⟩

end OnlineDecoding

end ThreadedServer
