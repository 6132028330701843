import Mathlib.Data.List.Range
import ThreadedServer.Transition

/-!
# The frames of the online decoder

`OnlineFasterDecoder::Decode` scores frames one after another until it has done
a batch of them, or the features have ended, or the end of the utterance has
been forced.  The features come from `OnlineDecodableDiagGmmScaled`, which loads
a new batch of them when a frame beyond the current one is scored.

The search itself is `FasterDecoder`'s.  Here it only says whether
`ProcessEmitting` has asked for a score at all: once it has not, there are no
active tokens, and it does not ask again until the decoder is reset.
-/

namespace ThreadedServer

/-- What `Decode` returns. -/
inductive DecodeState
  | endFeats
  | endUtt
  | endBatch
  deriving DecidableEq, Repr

/-- The counters of `OnlineDecodableDiagGmmScaled`. -/
structure OnlineDecodable where
  featOffset : Nat
  featSize : Nat
  finished : Bool
  deriving DecidableEq, Repr

namespace OnlineDecodable

/-- The constructor. -/
def create : OnlineDecodable where
  featOffset := 0
  featSize := 0
  finished := false

/-- The feature rows received so far. -/
def rows (d : OnlineDecodable) : Nat := d.featOffset + d.featSize

/-- `IsLastFrame`.  The comparison is unsigned, so that frame `-1` is beyond every
row. -/
def isLastFrame (d : OnlineDecodable) (frame : Int) : Bool :=
  d.finished && (decide (frame < 0) || decide ((d.rows : Int) - 1 ≤ frame))

/-- `LogLikelihood` loads a new batch for this frame. -/
def needsBatch (d : OnlineDecodable) (frame : Nat) : Bool := decide (d.rows ≤ frame)

/-- A new batch of features; `none` if the assertion fails or an exception is
thrown. -/
def load (d : OnlineDecodable) (rows : Nat) (moreData : Bool) : Option OnlineDecodable :=
  if d.finished || rows == 0 then none
  else some { featOffset := d.featOffset + d.featSize, featSize := rows, finished := !moreData }

end OnlineDecodable

/-- The members of `OnlineFasterDecoder` that control its loop. -/
structure OnlineFasterDecoder where
  state : DecodeState
  frame : Nat
  uttFrames : Nat
  forcingEndUtt : Bool
  deriving DecidableEq, Repr

namespace OnlineFasterDecoder

/-- The constructor. -/
def create : OnlineFasterDecoder where
  state := .endFeats
  frame := 0
  uttFrames := 0
  forcingEndUtt := false

/-- `ResetDecoder`, its counters. -/
def resetDecoder (d : OnlineFasterDecoder) (full : Bool) : OnlineFasterDecoder :=
  { d with uttFrames := 0, frame := if full then 0 else d.frame }

/-- `Decode` begins a new utterance. -/
def newUtterance (d : OnlineFasterDecoder) : Bool :=
  d.state == .endFeats || d.state == .endUtt

/-- The beginning of `Decode`. -/
def start (d : OnlineFasterDecoder) : OnlineFasterDecoder :=
  if d.newUtterance then d.resetDecoder (d.state == .endFeats) else d

/-- `ForceEndUtterance`. -/
def forceEndUtterance (d : OnlineFasterDecoder) : OnlineFasterDecoder :=
  { d with forcingEndUtt := true }

/-- The condition of the loop of `Decode`. -/
def goesOn (d : OnlineFasterDecoder) (decodable : OnlineDecodable)
    (batchSize batchFrame : Nat) : Bool :=
  !decodable.isLastFrame ((d.frame : Int) - 1) && decide (batchFrame < batchSize)

/-- The end of the loop's body, if the end of the utterance is forced. -/
def endForced (d : OnlineFasterDecoder) : OnlineFasterDecoder :=
  { d with state := .endUtt, forcingEndUtt := false }

/-- The increments in the header of the loop. -/
def nextFrame (d : OnlineFasterDecoder) : OnlineFasterDecoder :=
  { d with frame := d.frame + 1, uttFrames := d.uttFrames + 1 }

/-- The end of `Decode`, after the loop. -/
def finish (d : OnlineFasterDecoder) (decodable : OnlineDecodable)
    (batchSize batchFrame : Nat) : OnlineFasterDecoder :=
  { d with
    state :=
      if batchFrame == batchSize && !decodable.isLastFrame ((d.frame : Int) - 1) then
        .endBatch
      else .endFeats }

end OnlineFasterDecoder

/-- Control points of `OnlineDecode`. -/
inductive DecodePc
  /-- about to call `Decode` -/
  | outside
  /-- in `Decode`, about to test the condition of its loop -/
  | loop (batchFrame : Nat)
  /-- has left its loop, after `kEndFeats` -/
  | left
  deriving DecidableEq, Repr

/-- What `ProcessEmitting` does for one frame: whether it asks for scores, the
batch of features that is loaded then, and whether `ForceEndUtterance` is called
meanwhile. -/
structure Scoring where
  asked : Bool
  batch : Option (Nat × Bool)
  force : Bool
  deriving DecidableEq, Repr

/-- A session of `OnlineDecode`.  `alive` says that there may be active tokens;
`decoded` are the frames that were passed to `ProcessEmitting`, and `forced` says
that `ForceEndUtterance` has been called. -/
structure DecodeSession where
  decoder : OnlineFasterDecoder
  decodable : OnlineDecodable
  pc : DecodePc
  alive : Bool
  decoded : List Nat
  forced : Bool
  deriving DecidableEq, Repr

/-- The steps of a session. -/
inductive DecodeLabel
  /-- `Decode` is called -/
  | call
  /-- its loop processes a frame -/
  | score (e : Scoring)
  /-- its loop ends -/
  | finish
  deriving DecidableEq, Repr

namespace DecodeSession

def create : DecodeSession where
  decoder := .create
  decodable := .create
  pc := .outside
  alive := true
  decoded := []
  forced := false

/-- `LogLikelihood` for a frame: the counters afterwards, if the scoring can be
like this. -/
def logLikelihood (d : OnlineDecodable) (frame : Nat) (e : Scoring) :
    Option OnlineDecodable :=
  match e.batch with
  | some (rows, moreData) =>
      if e.asked && d.needsBatch frame then d.load rows moreData else none
  | none => if e.asked && d.needsBatch frame then none else some d

/-- One frame in the loop of `Decode`. -/
def score (batchSize : Nat) (s : DecodeSession) (e : Scoring) : Option DecodeSession :=
  match s.pc with
  | .loop batchFrame =>
      if s.decoder.goesOn s.decodable batchSize batchFrame ∧ (e.asked → s.alive) ∧
          (e.force → e.asked) then
        (logLikelihood s.decodable s.decoder.frame e).map fun decodable =>
          let decoder := if e.force then s.decoder.forceEndUtterance else s.decoder
          { s with
            decodable
            alive := e.asked
            decoded := s.decoded ++ [s.decoder.frame]
            forced := s.forced || e.force
            decoder := if decoder.forcingEndUtt then decoder.endForced else decoder.nextFrame
            pc := if decoder.forcingEndUtt then .outside else .loop (batchFrame + 1) }
      else none
  | _ => none

/-- One step of a session. -/
def step (batchSize : Nat) (s : DecodeSession) : DecodeLabel → Option DecodeSession
  | .call =>
      match s.pc with
      | .outside =>
          some { s with
            decoder := s.decoder.start
            alive := s.alive || s.decoder.newUtterance
            pc := .loop 0 }
      | _ => none
  | .score e => s.score batchSize e
  | .finish =>
      match s.pc with
      | .loop batchFrame =>
          if s.decoder.goesOn s.decodable batchSize batchFrame then none
          else
            let decoder := s.decoder.finish s.decodable batchSize batchFrame
            some { s with
              decoder
              pc := if decoder.state == .endFeats then .left else .outside }
      | _ => none

/-- The sessions with batches of this size. -/
def system (batchSize : Nat) : Transition.System DecodeSession DecodeLabel where
  init := create
  step := step batchSize

/-! ## What a step does -/

/-- `Decode` is called. -/
theorem step_call {batchSize : Nat} {s s' : DecodeSession}
    (h : s.step batchSize .call = some s') :
    s.pc = .outside ∧ s' = { s with
      decoder := s.decoder.start
      alive := s.alive || s.decoder.newUtterance
      pc := .loop 0 } := by
  simp only [step] at h
  split at h
  case h_1 hpc => exact ⟨hpc, (Option.some.inj h).symm⟩
  case h_2 => cases h

/-- The loop of `Decode` ends. -/
theorem step_finish {batchSize : Nat} {s s' : DecodeSession}
    (h : s.step batchSize .finish = some s') :
    ∃ batchFrame, s.pc = .loop batchFrame ∧
      ¬ s.decoder.goesOn s.decodable batchSize batchFrame = true ∧
      s' = { s with
        decoder := s.decoder.finish s.decodable batchSize batchFrame
        pc := if (s.decoder.finish s.decodable batchSize batchFrame).state == .endFeats then
          .left else .outside } := by
  simp only [step] at h
  split at h
  case h_1 batchFrame hpc =>
    split at h
    case isTrue => cases h
    case isFalse hgoes => exact ⟨batchFrame, hpc, hgoes, (Option.some.inj h).symm⟩
  case h_2 => cases h

/-- The counters after a frame whose scoring asked for it: it is within the rows
received. -/
theorem logLikelihood_cases {d d' : OnlineDecodable} {frame : Nat} {e : Scoring}
    (h : logLikelihood d frame e = some d') :
    d' = d ∧ (e.asked = true → frame < d.rows) ∨
      e.asked = true ∧ d.rows ≤ frame ∧ d.finished = false ∧ d.rows < d'.rows := by
  unfold logLikelihood at h
  split at h
  case h_1 rows moreData _ =>
    split at h
    case isFalse => cases h
    case isTrue hneeds =>
      obtain ⟨hasked, hbeyond⟩ : e.asked = true ∧ d.rows ≤ frame := by
        simpa [OnlineDecodable.needsBatch] using hneeds
      unfold OnlineDecodable.load at h
      split at h
      case isTrue => cases h
      case isFalse hok =>
        obtain rfl := Option.some.inj h
        obtain ⟨hnot, hrows⟩ : d.finished = false ∧ rows ≠ 0 := by simpa using hok
        refine Or.inr ⟨hasked, hbeyond, hnot, ?_⟩
        simp only [OnlineDecodable.rows]
        omega
  case h_2 =>
    split at h
    case isTrue => cases h
    case isFalse hneeds =>
      obtain rfl := Option.some.inj h
      refine Or.inl ⟨rfl, fun hasked => ?_⟩
      simpa [hasked, OnlineDecodable.needsBatch] using hneeds

/-- What is left to say about the counters after a frame. -/
theorem logLikelihood_keeps {d d' : OnlineDecodable} {frame : Nat} {e : Scoring}
    (h : logLikelihood d frame e = some d') (hle : e.asked = true → frame ≤ d.rows) :
    d.rows ≤ d'.rows ∧ (e.asked = true → frame < d'.rows) ∧
      (d'.finished = true → d.finished = true ∧ d' = d ∨ e.asked = true ∧ d.rows < d'.rows) := by
  rcases logLikelihood_cases h with ⟨rfl, hlt⟩ | ⟨hasked, hbeyond, -, hmore⟩
  · exact ⟨Nat.le_refl _, hlt, fun hf => Or.inl ⟨hf, rfl⟩⟩
  · have := hle hasked
    exact ⟨by omega, fun _ => by omega, fun _ => Or.inr ⟨hasked, hmore⟩⟩

/-! ## The phases of a session -/

/-- Nothing has been forced yet: the frames so far are the first ones. -/
structure Calm (s : DecodeSession) : Prop where
  forced : s.forced = false
  decoded : s.decoded = List.range s.decoder.frame
  state : s.pc = .outside → s.decoder.state = .endBatch ∨ s.decoder.frame = 0
  within : s.decodable.finished = true ∨ s.alive = true →
    s.decoder.frame ≤ s.decodable.rows
  started : s.decodable.finished = true → 0 < s.decoder.frame
  left : s.pc = .left → s.decoder.frame = s.decodable.rows

/-- The end was forced at frame zero, when all features had been received. -/
structure ForcedAtEnd (s : DecodeSession) : Prop where
  forced : s.forced = true
  decoded : s.decoded = [0]
  frame : s.decoder.frame = 0
  finished : s.decodable.finished = true
  rows : 0 < s.decodable.rows

/-- The end was forced at a frame that will be scored again. -/
structure ForcedOnce (s : DecodeSession) : Prop where
  forced : s.forced = true
  decoded : s.decoded = List.range (s.decoder.frame + 1)
  pc : s.pc ≠ .left
  state : s.pc = .outside → s.decoder.state ≠ .endFeats
  within : s.decoder.frame < s.decodable.rows
  started : s.decodable.finished = true → 0 < s.decoder.frame

/-- Some frame has been scored twice. -/
structure Repeated (s : DecodeSession) : Prop where
  forced : s.forced = true
  decoded : ¬ s.decoded.Nodup
  rows : 0 < s.decodable.rows
  finished : s.decodable.finished = true → 2 ≤ s.decodable.rows

/-- What holds in every state of a session. -/
structure Phase (batchSize : Nat) (s : DecodeSession) : Prop where
  notForcing : s.decoder.forcingEndUtt = false
  batch : ∀ batchFrame, s.pc = .loop batchFrame → batchFrame ≤ batchSize
  left : s.pc = .left → s.decodable.finished = true
  phase : Calm s ∨ ForcedAtEnd s ∨ ForcedOnce s ∨ Repeated s

theorem phase_create (batchSize : Nat) : Phase batchSize create := by
  refine ⟨rfl, by simp [create], by simp [create], Or.inl ?_⟩
  constructor <;> simp [create, OnlineFasterDecoder.create, OnlineDecodable.create]

/-- `Decode` goes back to frame zero only after `kEndFeats`. -/
theorem start_frame (d : OnlineFasterDecoder) :
    d.start.frame = if d.state = .endFeats then 0 else d.frame := by
  unfold OnlineFasterDecoder.start OnlineFasterDecoder.newUtterance
  cases d.state <;> simp [OnlineFasterDecoder.resetDecoder]

theorem start_state (d : OnlineFasterDecoder) : d.start.state = d.state := by
  unfold OnlineFasterDecoder.start
  split <;> rfl

theorem start_forcingEndUtt (d : OnlineFasterDecoder) :
    d.start.forcingEndUtt = d.forcingEndUtt := by
  unfold OnlineFasterDecoder.start
  split <;> rfl

theorem Phase.call {batchSize : Nat} {s : DecodeSession} (h : Phase batchSize s)
    (hpc : s.pc = .outside) :
    Phase batchSize { s with
      decoder := s.decoder.start
      alive := s.alive || s.decoder.newUtterance
      pc := .loop 0 } := by
  refine ⟨(start_forcingEndUtt _).trans h.notForcing, ?_, by simp, ?_⟩
  · intro batchFrame hb
    injection hb with hb
    omega
  have hframe := start_frame s.decoder
  rcases h.phase with hcalm | hend | honce | hrep
  · have hsame : s.decoder.start.frame = s.decoder.frame := by
      rcases hcalm.state hpc with hst | hzero
      · rw [hframe, hst]
        rfl
      · rw [hframe, hzero, ite_self]
    have hnew : s.decoder.newUtterance = true → s.decoder.frame = 0 := by
      intro hnew
      rcases hcalm.state hpc with hst | hzero
      · simp [OnlineFasterDecoder.newUtterance, hst] at hnew
      · exact hzero
    refine Or.inl ⟨hcalm.forced, ?_, by simp, ?_, ?_, by simp⟩
    · rw [hsame]
      exact hcalm.decoded
    · intro hor
      rw [hsame]
      rcases hor with hf | ha
      · exact hcalm.within (Or.inl hf)
      · rcases Bool.or_eq_true_iff.mp ha with ha | ha
        · exact hcalm.within (Or.inr ha)
        · exact (hnew ha).trans_le (Nat.zero_le _)
    · intro hf
      rw [hsame]
      exact hcalm.started hf
  · refine Or.inr (Or.inl ⟨hend.forced, hend.decoded, ?_, hend.finished, hend.rows⟩)
    rw [hframe, hend.frame, ite_self]
  · have hsame : s.decoder.start.frame = s.decoder.frame := by
      rw [hframe, if_neg (honce.state hpc)]
    refine Or.inr (Or.inr (Or.inl ⟨honce.forced, ?_, by simp, by simp, ?_, ?_⟩))
    · rw [hsame]
      exact honce.decoded
    · rw [hsame]
      exact honce.within
    · intro hf
      rw [hsame]
      exact honce.started hf
  · exact Or.inr (Or.inr (Or.inr ⟨hrep.forced, hrep.decoded, hrep.rows, hrep.finished⟩))

/-- The last frame, once a frame has been decoded. -/
theorem isLastFrame_pred {d : OnlineDecodable} {frame : Nat} (hpos : 0 < frame) :
    d.isLastFrame ((frame : Int) - 1) = true ↔ d.finished = true ∧ d.rows ≤ frame := by
  simp only [OnlineDecodable.isLastFrame, Bool.and_eq_true, Bool.or_eq_true, decide_eq_true_eq]
  constructor
  · rintro ⟨hf, hneg | hle⟩
    · omega
    · exact ⟨hf, by omega⟩
  · rintro ⟨hf, hle⟩
    exact ⟨hf, Or.inr (by omega)⟩

/-- At frame zero the comparison is with the largest frame number. -/
theorem isLastFrame_zero {d : OnlineDecodable} :
    d.isLastFrame (((0 : Nat) : Int) - 1) = d.finished := by
  simp [OnlineDecodable.isLastFrame]

theorem finished_of_isLastFrame {d : OnlineDecodable} {frame : Int}
    (h : d.isLastFrame frame = true) : d.finished = true := by
  simp only [OnlineDecodable.isLastFrame, Bool.and_eq_true] at h
  exact h.1

/-- The loop ends at the last frame or with a full batch, and `Decode` tells
which of the two it was. -/
theorem finish_state {batchSize batchFrame : Nat} {d : OnlineFasterDecoder}
    {decodable : OnlineDecodable} (hle : batchFrame ≤ batchSize)
    (hgoes : ¬ d.goesOn decodable batchSize batchFrame = true) :
    (d.finish decodable batchSize batchFrame).state =
      if decodable.isLastFrame ((d.frame : Int) - 1) = true then .endFeats else .endBatch := by
  simp only [OnlineFasterDecoder.finish]
  cases hlast : decodable.isLastFrame ((d.frame : Int) - 1) with
  | true => simp
  | false =>
      have hfull : batchFrame = batchSize := by
        simp [OnlineFasterDecoder.goesOn, hlast] at hgoes
        omega
      simp [hfull]

theorem Phase.finish {batchSize : Nat} {s : DecodeSession} (h : Phase batchSize s)
    {batchFrame : Nat} (hpc : s.pc = .loop batchFrame)
    (hgoes : ¬ s.decoder.goesOn s.decodable batchSize batchFrame) :
    Phase batchSize { s with
      decoder := s.decoder.finish s.decodable batchSize batchFrame
      pc := if (s.decoder.finish s.decodable batchSize batchFrame).state == .endFeats then
        .left else .outside } := by
  have hstate := finish_state (h.batch _ hpc) hgoes
  have hframe : (s.decoder.finish s.decodable batchSize batchFrame).frame = s.decoder.frame :=
    rfl
  by_cases hlast : s.decodable.isLastFrame ((s.decoder.frame : Int) - 1) = true
  · rw [if_pos hlast] at hstate
    have hfin := finished_of_isLastFrame hlast
    refine ⟨h.notForcing, by simp [hstate], fun _ => hfin, ?_⟩
    rcases h.phase with hcalm | hend | honce | hrep
    · have hpos := hcalm.started hfin
      have hle := ((isLastFrame_pred hpos).mp hlast).2
      refine Or.inl ⟨hcalm.forced, hcalm.decoded, by simp [hstate], fun _ => ?_, fun _ => hpos,
        fun _ => ?_⟩
      · exact hcalm.within (Or.inl hfin)
      · exact Nat.le_antisymm (hcalm.within (Or.inl hfin)) hle
    · exact Or.inr (Or.inl ⟨hend.forced, hend.decoded, hend.frame, hend.finished, hend.rows⟩)
    · have hle := ((isLastFrame_pred (honce.started hfin)).mp hlast).2
      have := honce.within
      omega
    · exact Or.inr (Or.inr (Or.inr ⟨hrep.forced, hrep.decoded, hrep.rows, hrep.finished⟩))
  · rw [if_neg hlast] at hstate
    refine ⟨h.notForcing, by simp [hstate], by simp [hstate], ?_⟩
    rcases h.phase with hcalm | hend | honce | hrep
    · exact Or.inl ⟨hcalm.forced, hcalm.decoded, fun _ => Or.inl hstate, hcalm.within,
        hcalm.started, by simp [hstate]⟩
    · exact Or.inr (Or.inl ⟨hend.forced, hend.decoded, hend.frame, hend.finished, hend.rows⟩)
    · exact Or.inr (Or.inr (Or.inl ⟨honce.forced, honce.decoded, by simp [hstate],
        fun _ => by simp [hstate], honce.within, honce.started⟩))
    · exact Or.inr (Or.inr (Or.inr ⟨hrep.forced, hrep.decoded, hrep.rows, hrep.finished⟩))

/-- A frame counted twice. -/
theorem not_nodup_append {frames : List Nat} {frame : Nat}
    (h : ¬ frames.Nodup ∨ frame ∈ frames) : ¬ (frames ++ [frame]).Nodup := by
  rw [List.nodup_append]
  rintro ⟨hnd, -, hne⟩
  rcases h with h | h
  · exact h hnd
  · exact hne frame h frame (List.mem_singleton.mpr rfl) rfl

/-- A frame that is counted once more. -/
theorem Repeated.score {s s' : DecodeSession} {frame : Nat} (hforced : s'.forced = true)
    (hdecoded : s'.decoded = s.decoded ++ [frame])
    (hagain : ¬ s.decoded.Nodup ∨ frame ∈ s.decoded)
    (hrows : 0 < s.decodable.rows) (hle : s.decodable.rows ≤ s'.decodable.rows)
    (hfin : s'.decodable.finished = true → 2 ≤ s'.decodable.rows) : Repeated s' := by
  refine ⟨hforced, ?_, by omega, hfin⟩
  rw [hdecoded]
  exact not_nodup_append hagain

/-- The counters after a frame. -/
theorem score_logLikelihood {batchSize : Nat} {s s' : DecodeSession} {e : Scoring}
    (h : s.score batchSize e = some s') :
    logLikelihood s.decodable s.decoder.frame e = some s'.decodable := by
  unfold DecodeSession.score at h
  split at h
  case h_1 =>
    obtain ⟨-, h⟩ := Option.ite_none_right_eq_some.mp h
    obtain ⟨decodable, hd, rfl⟩ := Option.map_eq_some_iff.mp h
    exact hd
  case h_2 => cases h

/-- Without a new batch they stay as they are. -/
theorem logLikelihood_none {d d' : OnlineDecodable} {frame : Nat} {asked force : Bool}
    (h : logLikelihood d frame ⟨asked, none, force⟩ = some d') : d' = d :=
  (Option.some.inj (Option.ite_none_left_eq_some.mp h).2).symm

/-- A new batch has rows. -/
theorem logLikelihood_some {d d' : OnlineDecodable} {frame rows : Nat}
    {asked moreData force : Bool}
    (h : logLikelihood d frame ⟨asked, some (rows, moreData), force⟩ = some d') :
    0 < rows ∧ d'.rows = d.rows + rows ∧ d'.finished = !moreData := by
  obtain ⟨-, hload⟩ := Option.ite_none_right_eq_some.mp h
  obtain ⟨hok, hd⟩ := Option.ite_none_left_eq_some.mp hload
  obtain rfl := Option.some.inj hd
  rw [Bool.or_eq_true, beq_iff_eq, not_or] at hok
  exact ⟨Nat.pos_of_ne_zero hok.2, rfl, rfl⟩

/-- What one frame in the loop of `Decode` does. -/
theorem score_cases {batchSize : Nat} {s s' : DecodeSession} {e : Scoring}
    (hforcing : s.decoder.forcingEndUtt = false) (h : s.score batchSize e = some s') :
    ∃ batchFrame decodable, s.pc = .loop batchFrame ∧
      s.decoder.goesOn s.decodable batchSize batchFrame = true ∧
      (e.asked = true → s.alive = true) ∧ (e.force = true → e.asked = true) ∧
      logLikelihood s.decodable s.decoder.frame e = some decodable ∧
      s' = { s with
        decodable
        alive := e.asked
        decoded := s.decoded ++ [s.decoder.frame]
        forced := s.forced || e.force
        decoder := if e.force then s.decoder.forceEndUtterance.endForced
          else s.decoder.nextFrame
        pc := if e.force then .outside else .loop (batchFrame + 1) } := by
  unfold DecodeSession.score at h
  split at h
  case h_2 => cases h
  case h_1 batchFrame hpc =>
    split at h
    case isFalse => cases h
    case isTrue hok =>
      obtain ⟨decodable, hd, hs⟩ := Option.map_eq_some_iff.mp h
      refine ⟨batchFrame, decodable, hpc, hok.1, hok.2.1, hok.2.2, hd, hs.symm.trans ?_⟩
      cases e.force with
      | true => rfl
      | false => simp [hforcing]

/-- The frame that is scored is not the last one. -/
theorem not_last_of_goesOn {d : OnlineFasterDecoder} {decodable : OnlineDecodable}
    {batchSize batchFrame : Nat} (h : d.goesOn decodable batchSize batchFrame = true) :
    decodable.isLastFrame ((d.frame : Int) - 1) = false ∧ batchFrame < batchSize := by
  simpa [OnlineFasterDecoder.goesOn] using h

section Score

variable {batchSize : Nat} {s s' : DecodeSession} {e : Scoring}

/-- A frame before the first `ForceEndUtterance`, or the one during which it is
called. -/
theorem Calm.score (h : Calm s) (hforcing : s.decoder.forcingEndUtt = false)
    (hs : s.score batchSize e = some s') : Calm s' ∨ ForcedAtEnd s' ∨ ForcedOnce s' := by
  obtain ⟨batchFrame, decodable, -, hgoes, halive, hasked, hd, rfl⟩ := score_cases hforcing hs
  obtain ⟨hlast, -⟩ := not_last_of_goesOn hgoes
  have hkeep := logLikelihood_keeps hd fun ha => h.within (Or.inr (halive ha))
  have hdecoded : s.decoded ++ [s.decoder.frame] = List.range (s.decoder.frame + 1) := by
    rw [h.decoded, List.range_succ]
  cases hforce : e.force with
  | true =>
      have hask := hasked hforce
      have hwithin := hkeep.2.1 hask
      by_cases hzero : decodable.finished = true ∧ s.decoder.frame = 0
      · refine Or.inr (Or.inl ⟨by simp, ?_, hzero.2, hzero.1, ?_⟩)
        · simpa [hzero.2] using hdecoded
        · show 0 < decodable.rows
          omega
      · refine Or.inr (Or.inr ⟨by simp, hdecoded, by simp, ?_, hwithin, ?_⟩)
        · intro _ hst
          cases hst
        · intro hf
          exact Nat.pos_of_ne_zero fun hz => hzero ⟨hf, hz⟩
  | false =>
      refine Or.inl ⟨by simp [h.forced], hdecoded, by simp, ?_, fun _ => Nat.succ_pos _,
        by simp⟩
      show decodable.finished = true ∨ e.asked = true → s.decoder.frame + 1 ≤ decodable.rows
      intro hor
      by_cases hask : e.asked = true
      · exact hkeep.2.1 hask
      · have hfin : decodable.finished = true := hor.resolve_right hask
        rcases hkeep.2.2 hfin with ⟨hf, rfl⟩ | ⟨ha, -⟩
        · by_contra hge
          rw [(isLastFrame_pred (h.started hf)).mpr ⟨hf, by omega⟩] at hlast
          cases hlast
        · exact absurd ha hask

/-- There is no frame after the features have ended at frame zero. -/
theorem ForcedAtEnd.score_eq_none (h : ForcedAtEnd s)
    (hforcing : s.decoder.forcingEndUtt = false) : s.score batchSize e = none := by
  refine Option.eq_none_iff_forall_ne_some.mpr fun s' hs => ?_
  obtain ⟨batchFrame, decodable, -, hgoes, -, -, -, -⟩ := score_cases hforcing hs
  obtain ⟨hlast, -⟩ := not_last_of_goesOn hgoes
  rw [h.frame, isLastFrame_zero, h.finished] at hlast
  cases hlast

/-- The frame after `ForceEndUtterance` is the one before it. -/
theorem ForcedOnce.score (h : ForcedOnce s) (hforcing : s.decoder.forcingEndUtt = false)
    (hs : s.score batchSize e = some s') : Repeated s' := by
  obtain ⟨batchFrame, decodable, -, -, -, -, hd, rfl⟩ := score_cases hforcing hs
  have hkeep := logLikelihood_keeps hd fun _ => h.within.le
  have hpos := h.within
  refine Repeated.score (by simp [h.forced]) rfl ?_ (by omega) hkeep.1 ?_
  · rw [h.decoded]
    exact Or.inr (List.mem_range.mpr (Nat.lt_succ_self _))
  · intro hfin
    show 2 ≤ decodable.rows
    rcases hkeep.2.2 hfin with ⟨hf, rfl⟩ | ⟨-, hmore⟩
    · have := h.started hf
      omega
    · omega

/-- A frame has been decoded twice, and more follow. -/
theorem Repeated.next (h : Repeated s) (hforcing : s.decoder.forcingEndUtt = false)
    (hs : s.score batchSize e = some s') : Repeated s' := by
  obtain ⟨batchFrame, decodable, -, -, -, -, hd, rfl⟩ := score_cases hforcing hs
  have hrows := h.rows
  rcases logLikelihood_cases hd with ⟨rfl, -⟩ | ⟨-, -, -, hmore⟩
  · exact Repeated.score (by simp [h.forced]) rfl (Or.inl h.decoded) hrows (Nat.le_refl _)
      h.finished
  · refine Repeated.score (by simp [h.forced]) rfl (Or.inl h.decoded) hrows hmore.le fun _ => ?_
    show 2 ≤ decodable.rows
    omega

theorem Phase.score (h : Phase batchSize s) (hs : s.score batchSize e = some s') :
    Phase batchSize s' := by
  have hphase : Calm s' ∨ ForcedAtEnd s' ∨ ForcedOnce s' ∨ Repeated s' := by
    rcases h.phase with hcalm | hend | honce | hrep
    · rcases hcalm.score h.notForcing hs with hcalm' | hend' | honce'
      · exact Or.inl hcalm'
      · exact Or.inr (Or.inl hend')
      · exact Or.inr (Or.inr (Or.inl honce'))
    · rw [hend.score_eq_none h.notForcing] at hs
      cases hs
    · exact Or.inr (Or.inr (Or.inr (honce.score h.notForcing hs)))
    · exact Or.inr (Or.inr (Or.inr (hrep.next h.notForcing hs)))
  obtain ⟨batchFrame, decodable, -, hgoes, -, -, -, rfl⟩ := score_cases h.notForcing hs
  obtain ⟨-, hlt⟩ := not_last_of_goesOn hgoes
  refine ⟨?_, ?_, ?_, hphase⟩
  · show (if e.force then s.decoder.forceEndUtterance.endForced
      else s.decoder.nextFrame).forcingEndUtt = false
    split
    · rfl
    · exact h.notForcing
  · intro b hb
    dsimp only at hb
    split at hb
    · cases hb
    · injection hb with hb
      omega
  · intro hleft
    dsimp only at hleft
    split at hleft <;> cases hleft

end Score

theorem phase_of_reachable {batchSize : Nat} {s : DecodeSession}
    (h : (system batchSize).Reachable s) : Phase batchSize s := by
  refine h.invariant (Phase batchSize) (phase_create batchSize) ?_
  intro s l s' hp hs
  replace hs : s.step batchSize l = some s' := hs
  cases l with
  | call =>
      obtain ⟨hpc, rfl⟩ := step_call hs
      exact hp.call hpc
  | score e => exact hp.score hs
  | finish =>
      obtain ⟨batchFrame, hpc, hgoes, rfl⟩ := step_finish hs
      exact hp.finish hpc hgoes

/-- After a full batch there is another frame, so that the next `Decode` does not
return at once. -/
theorem not_last_of_endBatch {batchSize : Nat} {s : DecodeSession}
    (h : (system batchSize).Reachable s) (hpc : s.pc = .outside ∨ s.pc = .loop 0)
    (hstate : s.decoder.state = .endBatch) :
    s.decodable.isLastFrame ((s.decoder.frame : Int) - 1) = false := by
  refine Transition.System.ReachableVia.invariant
    (fun s => (s.pc = .outside ∨ s.pc = .loop 0) → s.decoder.state = .endBatch →
      s.decodable.isLastFrame ((s.decoder.frame : Int) - 1) = false) ?_ ?_ h hpc hstate
  · intro _ hst
    cases hst
  intro s l s' hreach _ hinv hs hpc hst
  have hp := phase_of_reachable hreach
  replace hs : s.step batchSize l = some s' := hs
  cases l with
  | call =>
      obtain ⟨hout, rfl⟩ := step_call hs
      have hold : s.decoder.state = .endBatch := (start_state s.decoder).symm.trans hst
      have hframe := start_frame s.decoder
      rw [hold, if_neg (by decide)] at hframe
      show s.decodable.isLastFrame ((s.decoder.start.frame : Int) - 1) = false
      rw [hframe]
      exact hinv (Or.inl hout) hold
  | score e =>
      obtain ⟨batchFrame, decodable, -, -, -, -, -, rfl⟩ := score_cases hp.notForcing hs
      cases hforce : e.force with
      | true =>
          simp only [hforce, if_true] at hst
          cases hst
      | false => simp [hforce] at hpc
  | finish =>
      obtain ⟨batchFrame, hloop, hgoes, rfl⟩ := step_finish hs
      have hend := finish_state (hp.batch _ hloop) hgoes
      by_cases hlast : s.decodable.isLastFrame ((s.decoder.frame : Int) - 1) = true
      · rw [if_pos hlast] at hend
        exact absurd (hend.symm.trans hst) (by decide)
      · exact eq_false_of_ne_true hlast

/-! ## Every frame once -/

/-- As long as nothing is forced, the session is in its first phase. -/
theorem calm_of_not_forced {batchSize : Nat} {s : DecodeSession}
    (h : Phase batchSize s) (hforced : s.forced = false) : Calm s := by
  rcases h.phase with hcalm | hend | honce | hrep
  · exact hcalm
  · exact absurd (hend.forced.symm.trans hforced) (by decide)
  · exact absurd (honce.forced.symm.trans hforced) (by decide)
  · exact absurd (hrep.forced.symm.trans hforced) (by decide)

/-- The frames that were passed to `ProcessEmitting` are the first ones, each of them once,
none of them beyond the rows received; and all of these once the session has ended. -/
structure Whole (s : DecodeSession) : Prop where
  decoded : s.decoded = List.range s.decoded.length
  within : s.decoded.length ≤ s.decodable.rows
  left : s.pc = .left → s.decoded = List.range s.decodable.rows

/-- A frame of the loop asks for a score until the features have ended, and the end of the
utterance is not forced, unless it is the only row of all. -/
def Passes (s : DecodeSession) : DecodeLabel → Prop
  | .score e =>
      (s.decodable.finished = true ∨ e.asked = true) ∧
        (e.force = true → s.decoder.frame = 0 ∧ e.batch = some (1, false))
  | _ => True

instance (s : DecodeSession) (l : DecodeLabel) : Decidable (s.Passes l) := by
  unfold Passes
  cases l <;> infer_instance

/-- What holds while all frames have been like this. -/
structure Sound (batchSize : Nat) (s : DecodeSession) : Prop where
  phase : Phase batchSize s
  calm : s.forced = false → s.decodable.finished = true ∨ s.alive = true
  forced : s.forced = true → s.decodable.finished = true ∧ s.decodable.rows = 1

section Sound

variable {batchSize : Nat} {s t : DecodeSession} {l : DecodeLabel} {e : Scoring}

/-- The end was forced at the only row. -/
theorem Sound.forcedAtEnd (h : Sound batchSize s) (hforced : s.forced = true) :
    ForcedAtEnd s := by
  obtain ⟨hfinished, hone⟩ := h.forced hforced
  rcases h.phase.phase with hcalm | hend | honce | hrep
  · exact absurd (hcalm.forced.symm.trans hforced) (by decide)
  · exact hend
  · have hpos := honce.started hfinished
    have hlt := honce.within
    omega
  · have htwo := hrep.finished hfinished
    omega

theorem Sound.whole (h : Sound batchSize s) : Whole s := by
  cases hforced : s.forced with
  | true =>
      have hend := h.forcedAtEnd hforced
      have hone := (h.forced hforced).2
      refine ⟨?_, ?_, fun _ => ?_⟩
      · rw [hend.decoded]
        rfl
      · rw [hend.decoded]
        exact hone.ge
      · rw [hend.decoded, hone]
        rfl
  | false =>
      have hcalm := calm_of_not_forced h.phase hforced
      have hwithin := hcalm.within (h.calm hforced)
      have hlen : s.decoded.length = s.decoder.frame := by
        rw [hcalm.decoded, List.length_range]
      refine ⟨by rw [hlen]; exact hcalm.decoded, by rw [hlen]; exact hwithin, fun hleft => ?_⟩
      rw [hcalm.decoded, hcalm.left hleft]

/-- The first frame loads the first batch. -/
theorem first_batch (hframe : s.decoder.frame = 0) {rows : Nat} {moreData : Bool}
    {d : OnlineDecodable} (hbatch : e.batch = some (rows, moreData))
    (hd : logLikelihood s.decodable s.decoder.frame e = some d) :
    0 < rows ∧ d.rows = rows ∧ d.finished = !moreData := by
  obtain ⟨asked, batch, force⟩ := e
  obtain rfl : batch = some (rows, moreData) := hbatch
  obtain ⟨hpos, hrows, hfinished⟩ := logLikelihood_some hd
  rcases logLikelihood_cases hd with ⟨rfl, -⟩ | ⟨-, hbeyond, -, -⟩
  · omega
  · exact ⟨hpos, by omega, hfinished⟩

theorem Sound.score (h : Sound batchSize s) (hok : s.Passes (.score e))
    (hs : s.score batchSize e = some t) : Sound batchSize t := by
  have hphase := h.phase.score hs
  cases hforced : s.forced with
  | true =>
      rw [(h.forcedAtEnd hforced).score_eq_none h.phase.notForcing] at hs
      cases hs
  | false =>
      obtain ⟨batchFrame, d, -, -, -, -, hd, rfl⟩ := score_cases h.phase.notForcing hs
      obtain ⟨hasks, hforce⟩ := hok
      refine ⟨hphase, fun _ => ?_, fun hnow => ?_⟩
      · show d.finished = true ∨ e.asked = true
        by_cases hasked : e.asked = true
        · exact Or.inr hasked
        · rcases logLikelihood_cases hd with ⟨rfl, -⟩ | ⟨ha, -⟩
          · exact Or.inl (hasks.resolve_right hasked)
          · exact absurd ha hasked
      · have he : e.force = true := by simpa [hforced] using hnow
        obtain ⟨hframe, hbatch⟩ := hforce he
        obtain ⟨-, hrows, hfinished⟩ := first_batch hframe hbatch hd
        exact ⟨hfinished, hrows⟩

theorem Sound.step (h : Sound batchSize s) (hok : s.Passes l)
    (hs : s.step batchSize l = some t) : Sound batchSize t := by
  cases l with
  | call =>
      obtain ⟨hpc, rfl⟩ := step_call hs
      refine ⟨h.phase.call hpc, fun hforced => ?_, h.forced⟩
      rcases h.calm hforced with hfinished | halive
      · exact Or.inl hfinished
      · exact Or.inr (Bool.or_eq_true_iff.mpr (Or.inl halive))
  | score e => exact h.score hok hs
  | finish =>
      obtain ⟨batchFrame, hpc, hgoes, rfl⟩ := step_finish hs
      exact ⟨h.phase.finish hpc hgoes, h.calm, h.forced⟩

end Sound

theorem sound_create (batchSize : Nat) : Sound batchSize create :=
  ⟨phase_create batchSize, fun _ => Or.inr rfl, fun hno => by cases hno⟩

/-! ## After any other frame -/

/-- No token is active and the features have not ended: nothing can be scored any more. -/
structure Lost (batchSize : Nat) (s : DecodeSession) : Prop where
  finished : s.decodable.finished = false
  forcing : s.decoder.forcingEndUtt = false
  loop : ∃ batchFrame ≤ batchSize, s.pc = .loop batchFrame

section Lost

variable {batchSize : Nat} {s t : DecodeSession} {e : Scoring}

/-- A frame that asks for nothing. -/
def silent : Scoring := ⟨false, none, false⟩

/-- The loop passes the next frame. -/
theorem Lost.score (h : Lost batchSize s) {batchFrame : Nat} (hpc : s.pc = .loop batchFrame)
    (hlt : batchFrame < batchSize) :
    ∃ t, s.step batchSize (.score silent) = some t ∧ Lost batchSize t ∧
      t.decoded = s.decoded ++ [s.decoder.frame] ∧ t.decodable = s.decodable := by
  have hgoes : s.decoder.goesOn s.decodable batchSize batchFrame = true := by
    simp [OnlineFasterDecoder.goesOn, OnlineDecodable.isLastFrame, h.finished, hlt]
  have hstep : s.score batchSize silent = some { s with
      alive := false
      decoded := s.decoded ++ [s.decoder.frame]
      forced := s.forced || false
      decoder := s.decoder.nextFrame
      pc := .loop (batchFrame + 1) } := by
    simp [DecodeSession.score, hpc, hgoes, silent, logLikelihood, h.forcing]
  exact ⟨_, hstep, ⟨h.finished, h.forcing, batchFrame + 1, hlt, rfl⟩, rfl, rfl⟩

/-- With a full batch, `Decode` returns and is called again. -/
theorem Lost.again (h : Lost batchSize s) (hpc : s.pc = .loop batchSize) :
    ∃ t, (system batchSize).runFrom s [.finish, .call] = some t ∧ Lost batchSize t ∧
      t.pc = .loop 0 ∧ t.decoder.frame = s.decoder.frame ∧ t.decoded = s.decoded ∧
      t.decodable = s.decodable := by
  have hlast : ∀ frame, s.decodable.isLastFrame frame = false := by
    intro frame
    simp [OnlineDecodable.isLastFrame, h.finished]
  have hgoes : s.decoder.goesOn s.decodable batchSize batchSize = false := by
    simp [OnlineFasterDecoder.goesOn]
  have hfinish : s.decoder.finish s.decodable batchSize batchSize =
      { s.decoder with state := .endBatch } := by
    simp [OnlineFasterDecoder.finish, hlast]
  have hrun : (system batchSize).runFrom s [.finish, .call] = some { s with
      decoder := { s.decoder with state := .endBatch }
      alive := s.alive || false
      pc := .loop 0 } := by
    simp [Transition.System.runFrom, system, DecodeSession.step, hpc, hgoes, hfinish,
      OnlineFasterDecoder.start, OnlineFasterDecoder.newUtterance]
  exact ⟨_, hrun, ⟨h.finished, h.forcing, 0, Nat.zero_le _, rfl⟩, rfl, rfl, rfl, rfl⟩

/-- One frame more is passed. -/
theorem Lost.next (h : Lost batchSize s) (hpos : 0 < batchSize) :
    ∃ es t, (system batchSize).runFrom s es = some t ∧ Lost batchSize t ∧
      t.decoded.length = s.decoded.length + 1 ∧ t.decodable = s.decodable := by
  obtain ⟨batchFrame, hle, hpc⟩ := h.loop
  by_cases hlt : batchFrame < batchSize
  · obtain ⟨t, hstep, ht, hdecoded, hdecodable⟩ := h.score hpc hlt
    refine ⟨[.score silent], t, Option.bind_eq_some_iff.mpr ⟨t, hstep, rfl⟩, ht, ?_, hdecodable⟩
    rw [hdecoded, List.length_append, List.length_singleton]
  · obtain rfl : batchFrame = batchSize := by omega
    obtain ⟨u, hrun, hu, hpc', -, hsame, hdecodable'⟩ := h.again hpc
    obtain ⟨t, hstep, ht, hdecoded, hdecodable⟩ := hu.score hpc' hpos
    refine ⟨[.finish, .call] ++ [.score silent], t, ?_, ht, ?_, hdecodable.trans hdecodable'⟩
    · rw [Transition.System.runFrom_append, hrun, Option.bind_some]
      exact Option.bind_eq_some_iff.mpr ⟨t, hstep, rfl⟩
    · rw [hdecoded, hsame, List.length_append, List.length_singleton]

/-- Frame numbers of no row are passed. -/
theorem Lost.not_whole (h : Lost batchSize s) (hpos : 0 < batchSize) :
    ∃ es t, (system batchSize).runFrom s es = some t ∧ ¬ Whole t := by
  have hmany : ∀ k, ∃ es t, (system batchSize).runFrom s es = some t ∧ Lost batchSize t ∧
      t.decoded.length = s.decoded.length + k ∧ t.decodable = s.decodable := by
    intro k
    induction k with
    | zero => exact ⟨[], s, rfl, h, rfl, rfl⟩
    | succ k ih =>
        obtain ⟨es, u, hrun, hu, hlen, hsame⟩ := ih
        obtain ⟨es', t, hrun', ht, hlen', hsame'⟩ := hu.next hpos
        refine ⟨es ++ es', t, ?_, ht, by omega, hsame'.trans hsame⟩
        rw [Transition.System.runFrom_append, hrun, Option.bind_some, hrun']
  obtain ⟨es, t, hrun, -, hlen, hsame⟩ := hmany (s.decodable.rows + 1)
  refine ⟨es, t, hrun, fun hwhole => ?_⟩
  have hwithin := hwhole.within
  rw [hsame] at hwithin
  omega

end Lost

section Forced

variable {batchSize : Nat} {s : DecodeSession}

/-- The next `Decode` returns at once, and the rows behind the first one are lost. -/
theorem ForcedAtEnd.not_whole (h : ForcedAtEnd s) (hout : s.pc = .outside)
    (hrows : s.decodable.rows ≠ 1) :
    ∃ es t, (system batchSize).runFrom s es = some t ∧ ¬ Whole t := by
  have hframe : s.decoder.start.frame = 0 := by
    rw [start_frame, h.frame, ite_self]
  have hlast : s.decodable.isLastFrame ((s.decoder.start.frame : Int) - 1) = true := by
    rw [hframe, isLastFrame_zero, h.finished]
  have hgoes : s.decoder.start.goesOn s.decodable batchSize 0 = false := by
    rw [OnlineFasterDecoder.goesOn, hlast]
    rfl
  have hstate : (s.decoder.start.finish s.decodable batchSize 0).state = .endFeats := by
    simp [OnlineFasterDecoder.finish, hlast]
  have hrun : (system batchSize).runFrom s [.call, .finish] = some { s with
      decoder := s.decoder.start.finish s.decodable batchSize 0
      alive := s.alive || s.decoder.newUtterance
      pc := .left } := by
    simp [Transition.System.runFrom, system, DecodeSession.step, hout, hgoes, hstate]
  refine ⟨_, _, hrun, fun hwhole => hrows ?_⟩
  have hall : s.decoded = List.range s.decodable.rows := hwhole.left rfl
  rw [h.decoded] at hall
  have hlen := congrArg List.length hall
  rw [List.length_range] at hlen
  exact hlen.symm

/-- The next frame is the one before it. -/
theorem ForcedOnce.not_whole (h : ForcedOnce s) (hphase : Phase batchSize s)
    (hout : s.pc = .outside) (hpos : 0 < batchSize) :
    ∃ es t, (system batchSize).runFrom s es = some t ∧ ¬ Whole t := by
  have hframe : s.decoder.start.frame = s.decoder.frame := by
    rw [start_frame, if_neg (h.state hout)]
  have hlast : s.decodable.isLastFrame ((s.decoder.start.frame : Int) - 1) = false := by
    rw [hframe]
    cases hzero : s.decoder.frame with
    | zero =>
        rw [isLastFrame_zero]
        refine eq_false_of_ne_true fun hfinished => ?_
        have hstarted := h.started hfinished
        omega
    | succ n =>
        refine eq_false_of_ne_true fun htrue => ?_
        have hbeyond := ((isLastFrame_pred (Nat.succ_pos n)).mp htrue).2
        have hwithin := h.within
        omega
  have hgoes : s.decoder.start.goesOn s.decodable batchSize 0 = true := by
    simp [OnlineFasterDecoder.goesOn, hlast, hpos]
  have hforcing : s.decoder.start.forcingEndUtt = false :=
    (start_forcingEndUtt _).trans hphase.notForcing
  have hrun : (system batchSize).runFrom s [.call, .score silent] = some { s with
      decoder := s.decoder.start.nextFrame
      alive := false
      decoded := s.decoded ++ [s.decoder.start.frame]
      forced := s.forced || false
      pc := .loop 1 } := by
    simp [Transition.System.runFrom, system, DecodeSession.step, DecodeSession.score, hout, hgoes,
      silent, logLikelihood, hforcing]
  refine ⟨_, _, hrun, fun hwhole => ?_⟩
  have hnodup : (s.decoded ++ [s.decoder.start.frame]).Nodup := by
    have hrange : s.decoded ++ [s.decoder.start.frame] = List.range _ := hwhole.decoded
    rw [hrange]
    exact List.nodup_range
  refine not_nodup_append (Or.inr ?_) hnodup
  rw [hframe, h.decoded]
  exact List.mem_range.mpr (Nat.lt_succ_self _)

end Forced

/-- What a frame that is not like the others leads to. -/
theorem Sound.not_whole {batchSize : Nat} {s t : DecodeSession} {e : Scoring}
    (h : Sound batchSize s) (hno : ¬ s.Passes (.score e)) (hs : s.score batchSize e = some t) :
    ∃ es u, (system batchSize).runFrom t es = some u ∧ ¬ Whole u := by
  have hphase := h.phase.score hs
  cases hforced : s.forced with
  | true =>
      rw [(h.forcedAtEnd hforced).score_eq_none h.phase.notForcing] at hs
      cases hs
  | false =>
      have hcalm := calm_of_not_forced h.phase hforced
      have hnext := hcalm.score h.phase.notForcing hs
      obtain ⟨batchFrame, d, hpc, hgoes, -, hasked, hd, rfl⟩ := score_cases h.phase.notForcing hs
      obtain ⟨-, hlt⟩ := not_last_of_goesOn hgoes
      have hpos : 0 < batchSize := by omega
      by_cases hforce : e.force = true
      · have hask := hasked hforce
        rcases hnext with hcalm' | hend | honce
        · exact absurd hcalm'.forced (by simp [hforce])
        · refine hend.not_whole (by simp [hforce]) fun hone => hno ⟨Or.inr hask, fun _ => ?_⟩
          have hframe : s.decoder.frame = 0 := by
            have hsame := hend.frame
            simp only [hforce, if_true] at hsame
            exact hsame
          have hmore : s.decodable.finished = false := by
            refine eq_false_of_ne_true fun hfinished => ?_
            have hstarted := hcalm.started hfinished
            omega
          refine ⟨hframe, ?_⟩
          cases hbatch : e.batch with
          | none =>
              have hsame : d = s.decodable := by
                obtain ⟨asked, batch, force⟩ := e
                obtain rfl : batch = none := hbatch
                exact logLikelihood_none hd
              have hfinished : d.finished = true := hend.finished
              rw [hsame, hmore] at hfinished
              cases hfinished
          | some batch =>
              obtain ⟨rows, moreData⟩ := batch
              obtain ⟨-, hrows, hfinished⟩ := first_batch hframe hbatch hd
              have hfinished' : d.finished = true := hend.finished
              have hone' : d.rows = 1 := hone
              rw [hfinished'] at hfinished
              rw [hrows] at hone'
              rw [hone', (Bool.not_eq_true' moreData).mp hfinished.symm]
        · exact honce.not_whole hphase (by simp [hforce]) hpos
      · -- no score has been asked for, and the features have not ended
        have hnone : ¬ (s.decodable.finished = true ∨ e.asked = true) := fun hasks =>
          hno ⟨hasks, fun he => absurd he hforce⟩
        obtain ⟨hmore, hask⟩ := not_or.mp hnone
        have hsame : d = s.decodable := by
          rcases logLikelihood_cases hd with ⟨rfl, -⟩ | ⟨ha, -⟩
          · rfl
          · exact absurd ha hask
        refine Lost.not_whole ⟨?_, ?_, batchFrame + 1, hlt, ?_⟩ hpos
        · show d.finished = false
          rw [hsame]
          exact eq_false_of_ne_true hmore
        · simp [hforce, OnlineFasterDecoder.nextFrame, h.phase.notForcing]
        · simp [hforce]

/-- **Each frame once.**  In every run in which each frame asks for a score until the
features have ended and the end of the utterance is not forced, unless at the only row, the
frames passed to `ProcessEmitting` are in every state the first ones, each of them once, and
rows that have been received; and all rows, when the session has left its loop.  After the
first frame that is not like this the session can go on until they are not: the frame at
which the end is forced is decoded again or taken for the last one, and where no token is
left, frames of no row are passed. -/
theorem frames_once_iff (batchSize : Nat) :
    (∀ es s, (system batchSize).runVia Passes create es = some s → Whole s) ∧
      ∀ s l t, (system batchSize).ReachableVia Passes s → ¬ s.Passes l →
        (system batchSize).step s l = some t →
        ∃ es u, (system batchSize).runFrom t es = some u ∧ ¬ Whole u := by
  have hsound : ∀ s, (system batchSize).ReachableVia Passes s → Sound batchSize s := by
    intro s hs
    refine hs.invariant (Sound batchSize) (sound_create batchSize) ?_
    intro s l t _ hok h hstep
    exact h.step hok hstep
  constructor
  · intro es s hs
    exact (hsound s (Transition.System.ReachableVia.init.run hs)).whole
  · intro s l t hs hno hstep
    cases l with
    | score e => exact (hsound s hs).not_whole hno hstep
    | call => exact absurd trivial hno
    | finish => exact absurd trivial hno

/-- A session of two frames, with no voice activity event. -/
def quietSteps : List DecodeLabel :=
  [.call, .score ⟨true, some (2, false), false⟩, .score ⟨true, none, false⟩, .finish]

/-- A session of two frames, where the end is forced at frame one. -/
def forcedSteps : List DecodeLabel :=
  [.call, .score ⟨true, some (2, false), false⟩, .score ⟨true, none, true⟩,
    .call, .score ⟨true, none, false⟩, .finish]

theorem frames_once_quiet :
    ∃ s, (system 27).runVia Passes create quietSteps = some s ∧ s.pc = .left ∧
      s.decoded = List.range 2 := by
  have hrun : (system 27).runVia Passes create quietSteps =
      some ⟨⟨.endFeats, 2, 2, false⟩, ⟨0, 2, true⟩, .left, true, [0, 1], false⟩ := by decide
  exact ⟨_, hrun, rfl, ((frames_once_iff 27).1 _ _ hrun).left rfl⟩

/-- Frame one is decoded again in the next utterance. -/
theorem frame_decoded_again :
    ¬ ∀ s, (system 27).Reachable s → s.pc = .left →
      s.decoded = List.range s.decodable.rows := by
  intro hall
  have hrun : (system 27).runFrom (system 27).init forcedSteps =
      some ⟨⟨.endFeats, 2, 1, false⟩, ⟨0, 2, true⟩, .left, true, [0, 1, 1], true⟩ := by decide
  have hbad := hall _ (Transition.System.reachable_of_run hrun) rfl
  exact absurd hbad (by decide)

end DecodeSession

end ThreadedServer
