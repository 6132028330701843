import ThreadedServer.Requests

/-!
# The outputs that the client does not read

The client leaves after the last block it sends, and does not wait for what the
server makes of it.  The last output of a session is sent after the last block has
been received, so that no session that comes to its end has it read.  The lengths
that are left are those at which the server never gets as far as an output: it
waits for a block from a client that has left, before the first batch of features is
complete or before a second one is.
-/

namespace ThreadedServer

namespace Exchange

/-- An output is on its way to a client that has left. -/
def Lost (length : Nat) (s : Exchange) : Prop :=
  ¬ s.Inside length ∧ ∃ e, .decodeOutput e ∈ s.toClient

/-! ## Sessions without an output -/

/-- No output has been sent, and none can be: the features are fewer than a batch and
have not ended, and no end of speech has been reported to the decoder. -/
structure Quiet (bound : Nat) (s : Exchange) : Prop where
  silent : ∀ e, .decodeOutput e ∉ s.toClient
  forced : s.session.forced = false
  finished : s.session.decodable.finished = false
  rows : s.session.decodable.rows ≤ bound
  sentPiece : s.sentPiece = false
  loop : ∀ batchFrame, s.session.pc = .loop batchFrame → batchFrame ≤ s.session.decoder.frame
  returned : s.pc = .returned →
    s.session.decoder.state = .endBatch ∧ batchSize ≤ s.session.decoder.frame

section Quiet

variable {length rightContext bound : Nat} {s t : Exchange}

theorem quiet_create (bound : Nat) : Quiet bound create := by
  constructor <;> simp [create, DecodeSession.create, OnlineDecodable.create,
    OnlineDecodable.rows]

/-- A frame whose scoring does not force the end of the utterance. -/
theorem Quiet.scored (h : Quiet bound s)
    (hreach : (DecodeSession.system batchSize).Reachable s.session) {e : Scoring}
    (hforce : e.force = false) {session : DecodeSession}
    (hs : s.session.step batchSize (.score e) = some session) :
    session.forced = false ∧ (∃ batchFrame, session.pc = .loop batchFrame) ∧
      ∀ batchFrame, session.pc = .loop batchFrame → batchFrame ≤ session.decoder.frame := by
  have hphase := DecodeSession.phase_of_reachable hreach
  obtain ⟨batchFrame, decodable, hpc, -, -, -, -, rfl⟩ :=
    DecodeSession.score_cases hphase.notForcing hs
  have hle := h.loop batchFrame hpc
  simp only [hforce, Bool.or_false, Bool.false_eq_true, if_false, DecodePc.loop.injEq]
  refine ⟨h.forced, ⟨_, rfl⟩, ?_⟩
  rintro next rfl
  exact Nat.succ_le_succ hle

theorem Quiet.score (h : Quiet bound s)
    (hreach : (DecodeSession.system batchSize).Reachable s.session) {asked : Bool}
    (hs : s.score asked = some t) : Quiet bound t := by
  obtain ⟨hpc, session, hsession, rfl⟩ := score_cases hs
  obtain ⟨hforced, -, hloop⟩ := h.scored hreach rfl hsession
  have hsame := DecodeSession.logLikelihood_none (DecodeSession.score_logLikelihood hsession)
  refine ⟨h.silent, hforced, ?_, ?_, h.sentPiece, hloop, fun hr => ?_⟩
  · show session.decodable.finished = false
    rw [hsame]
    exact h.finished
  · show session.decodable.rows ≤ bound
    rw [hsame]
    exact h.rows
  · exact absurd (hpc.symm.trans hr) (by decide)

theorem Quiet.call (h : Quiet bound s) (hs : s.call = some t) : Quiet bound t := by
  obtain ⟨hpc, session, hsession, rfl⟩ := call_cases hs
  obtain ⟨-, rfl⟩ := DecodeSession.step_call hsession
  refine ⟨h.silent, h.forced, h.finished, h.rows, by simp [h.sentPiece], ?_, fun hr => ?_⟩
  · intro batchFrame hloop
    injection hloop with hzero
    rw [← hzero]
    exact Nat.zero_le _
  · exact absurd (hpc.symm.trans hr) (by decide)

/-- While the features have not ended, the loop of `Decode` ends with a full batch. -/
theorem Quiet.finish (h : Quiet bound s)
    (hreach : (DecodeSession.system batchSize).Reachable s.session)
    (hs : s.finish = some t) : Quiet bound t := by
  have hphase := DecodeSession.phase_of_reachable hreach
  obtain ⟨-, session, hsession, rfl⟩ := finish_cases hs
  obtain ⟨batchFrame, hpc, hgoes, rfl⟩ := DecodeSession.step_finish hsession
  have hlast : s.session.decodable.isLastFrame ((s.session.decoder.frame : Int) - 1) = false := by
    simp [OnlineDecodable.isLastFrame, h.finished]
  have hstate := DecodeSession.finish_state (hphase.batch _ hpc) hgoes
  rw [if_neg (by rw [hlast]; decide)] at hstate
  have hfull : batchSize ≤ batchFrame := by
    simpa [OnlineFasterDecoder.goesOn, hlast] using hgoes
  refine ⟨h.silent, h.forced, h.finished, h.rows, h.sentPiece, fun next hnext => ?_,
    fun _ => ⟨hstate, hfull.trans (h.loop _ hpc)⟩⟩
  simp [hstate] at hnext

/-- A full batch leaves no active tokens: it needs more features than there are. -/
theorem Quiet.output (h : Quiet bound s) (hbound : bound < batchSize)
    (hreach : (DecodeSession.system batchSize).Reachable s.session) {success : Bool}
    (hs : s.output success = some t) : Quiet bound t := by
  obtain ⟨hpc, ⟨-, rfl⟩ | ⟨hsent, -⟩⟩ := output_cases hs
  · exact ⟨h.silent, h.forced, h.finished, h.rows, h.sentPiece, h.loop, fun hr => by cases hr⟩
  · obtain ⟨hstate, hframe⟩ := h.returned hpc
    rcases hsent hstate with halive | hpiece
    · have hcalm := DecodeSession.calm_of_not_forced
        (DecodeSession.phase_of_reachable hreach) h.forced
      have hwithin := hcalm.within (Or.inr halive)
      have hrows := h.rows
      omega
    · exact absurd (hpiece.symm.trans h.sentPiece) (by decide)

theorem Quiet.client (h : Quiet bound s) (hs : s.client length = some t) : Quiet bound t := by
  obtain ⟨-, ⟨n, rest, hpackets, rfl⟩ | ⟨e, rest, hpackets, rfl⟩⟩ := client_cases hs
  · refine ⟨fun e he => h.silent e ?_, h.forced, h.finished, h.rows, h.sentPiece, h.loop,
      h.returned⟩
    rw [hpackets]
    exact List.mem_cons_of_mem _ he
  · exact absurd (hpackets ▸ List.mem_cons_self) (h.silent e)

/-- The server's part of a step that sends no output and does not score. -/
theorem Quiet.of_session (h : Quiet bound s) (hsilent : ∀ e, .decodeOutput e ∉ t.toClient)
    (hsession : t.session = s.session) (hpiece : t.sentPiece = s.sentPiece)
    (hpc : t.pc ≠ .returned) : Quiet bound t := by
  refine ⟨hsilent, ?_, ?_, ?_, hpiece.trans h.sentPiece, ?_, fun hr => absurd hr hpc⟩ <;>
    rw [hsession]
  · exact h.forced
  · exact h.finished
  · exact h.rows
  · exact h.loop

theorem Quiet.silent_send (h : Quiet bound s) (n : Nat) :
    ∀ e, .decodeOutput e ∉ s.toClient ++ [.dataWaveRequest n] := by
  intro e he
  rcases List.mem_append.mp he with he | he
  · exact h.silent e he
  · cases List.mem_singleton.mp he

theorem Quiet.compute (h : Quiet bound s) (hs : s.compute = some t) : Quiet bound t := by
  obtain ⟨-, rfl | ⟨-, -, rfl⟩ | ⟨-, rfl⟩⟩ := compute_cases hs
  · exact h.of_session h.silent rfl rfl (by simp)
  · exact h.of_session h.silent rfl rfl (by simp)
  · exact h.of_session (h.silent_send _) rfl rfl (by simp [send])

theorem Quiet.vad (h : Quiet bound s) {speech : Bool} (hs : s.vad speech = some t) :
    Quiet bound t := by
  obtain ⟨-, n, -, rfl⟩ := vad_cases hs
  exact h.of_session (h.silent_send _) rfl rfl (by simp [send])

/-- The first batch of features is too small, or there is none. -/
theorem Quiet.receive (h : Quiet bound s)
    (hreach : (DecodeSession.system batchSize).Reachable s.session)
    (hfew : ∀ n rest, s.toServer = n :: rest → (∃ active, s.pc = .readingBack active) →
      s.session.decodable.rows = 0 ∧ (batchSize ≤ rightContext ∨
        n = samplesReq ∧ s.forcing = false ∧ batchSize - rightContext ≤ bound))
    (hs : s.receive rightContext = some t) : Quiet bound t := by
  obtain ⟨n, rest, hpackets, ⟨-, rfl⟩ | ⟨-, -, rfl⟩ | ⟨hpc, rfl⟩⟩ := receive_cases hs
  · exact h.of_session h.silent rfl rfl (by simp)
  · exact h.of_session h.silent rfl rfl (by simp)
  · obtain ⟨hzero, hcases⟩ := hfew n rest hpackets hpc
    rcases computed_cases (s := { s with toServer := rest }) (n == samplesReq) with
      ht | ⟨session, hsession, ht⟩
    · rw [ht]
      exact h.of_session h.silent rfl rfl (by simp)
    · rw [ht]
      have hlda : ldaRows rightContext s.session.decodable = batchSize - rightContext := by
        rw [ldaRows, if_pos hzero]
      obtain ⟨hpos, hrows, hfinished⟩ :=
        DecodeSession.logLikelihood_some (DecodeSession.score_logLikelihood hsession)
      simp only [hlda, hzero, Nat.zero_add] at hpos hrows hfinished
      rcases hcases with hsmall | ⟨rfl, hforcing, hbound⟩
      · omega
      · obtain ⟨hforced, ⟨batchFrame, hloop⟩, hle⟩ := h.scored hreach (e := ⟨true, _, s.forcing⟩)
          hforcing hsession
        refine ⟨h.silent, hforced, ?_, ?_, h.sentPiece, hle, fun hr => ?_⟩
        · simpa using hfinished
        · show session.decodable.rows ≤ bound
          omega
        · simp [hloop] at hr

end Quiet

/-! ## Sessions that stop for want of a block -/

/-- The wave ends within the initial buffer, or one full block behind it. -/
def Short (length : Nat) : Prop := length ≤ bufferLength ∨ length = bufferLength + samplesReq

/-- Before the client has left for good: no features, no end of speech, and at most one
block behind the initial buffer. -/
structure Early (length : Nat) (s : Exchange) : Prop where
  rows : s.session.decodable.rows = 0
  forcing : s.forcing = false
  between : s.pc = .decoding ∨ s.pc = .returned →
    s.bufferInit = false ∧ s.batchVad = false ∧ s.pos = 0 ∧ s.requests = [] ∧ s.toServer = []
  filling : s.pc = .fillingBuffer → s.batchVad = false ∧
    (s.requests = [bufferLength] ∧ s.pos = 0 ∧ s.toServer = [] ∨
      s.requests = [] ∧ s.pos = bufferLength ∧ ∃ n, s.toServer = [n])
  iterating : s.pc = .iterating →
    s.batchVad = false ∧ s.pos = bufferLength ∧ s.requests = [] ∧ s.toServer = []
  reading : (∃ active, s.pc = .readingBack active) →
    s.requests = [samplesReq] ∧ s.pos = bufferLength ∧ s.toServer = [] ∨
      length = bufferLength + samplesReq ∧ length ≤ s.pos ∧ s.toServer = [samplesReq]

/-- The client has left, and no further block will arrive. -/
structure Gone (length : Nat) (s : Exchange) : Prop where
  left : length ≤ s.pos
  none : s.toServer = []

/-- Without speech before, an iteration reports no end of speech. -/
theorem notify_no_end (speech : Bool) (hangoverCount : Nat) :
    ((OnlineVadFeInput.notify vadOptions samplesReq bufferLength false speech
      hangoverCount).events.any fun e => e.2 == VadEvent.speechEnd) = false := by
  have hout := OnlineVadFeInput.notify_outcome (o := vadOptions) (by decide) samplesReq
    bufferLength false speech hangoverCount
  generalize OnlineVadFeInput.notify vadOptions samplesReq bufferLength false speech
    hangoverCount = n at hout ⊢
  cases hout with
  | silent => rfl
  | start => rfl

section Early

variable {length rightContext : Nat} {s t : Exchange}

theorem Early.client (hshort : Short length) (h : s.Early length)
    (hs : s.client length = some t) : t.Early length := by
  obtain ⟨hin, hcases⟩ := client_cases hs
  rcases hcases with ⟨n, rest, hpackets, rfl⟩ | ⟨e, rest, hpackets, rfl⟩
  · have hne : s.requests ≠ [] := by
      rw [requests_request hpackets]
      exact List.cons_ne_nil _ _
    refine ⟨h.rows, h.forcing, fun hpc => ?_, fun hpc => ?_, fun hpc => ?_, fun hpc => ?_⟩
    · exact absurd (h.between hpc).2.2.2.1 hne
    · obtain ⟨hvad, ⟨hr, hpos, hw⟩ | ⟨hr, -⟩⟩ := h.filling hpc
      · obtain ⟨rfl, hrest⟩ := eq_of_requests hpackets hr
        refine ⟨hvad, Or.inr ⟨hrest, ?_, min (length - s.pos) bufferLength, ?_⟩⟩
        · show s.pos + bufferLength = bufferLength
          rw [hpos, Nat.zero_add]
        · rw [hw, List.nil_append]
      · exact absurd hr hne
    · exact absurd (h.iterating hpc).2.2.1 hne
    · rcases h.reading hpc with ⟨hr, hpos, hw⟩ | ⟨-, hleft, -⟩
      · obtain ⟨rfl, -⟩ := eq_of_requests hpackets hr
        rcases hshort with hle | rfl
        · exact absurd hin (Nat.not_lt.mpr (hpos ▸ hle))
        · refine Or.inr ⟨rfl, by rw [hpos], ?_⟩
          rw [hpos, hw, Nat.add_sub_cancel_left, Nat.min_self]
          rfl
      · exact absurd hin (Nat.not_lt.mpr hleft)
  · have hr := requests_output hpackets
    exact ⟨h.rows, h.forcing, by rw [hr]; exact h.between, by rw [hr]; exact h.filling,
      by rw [hr]; exact h.iterating, by rw [hr]; exact h.reading⟩

/-- The decoder's own steps change nothing here. -/
theorem Early.of_between (h : s.Early length) (hpc : s.pc = .decoding ∨ s.pc = .returned)
    (hpc' : t.pc = .decoding ∨ t.pc = .returned ∨ t.pc = .ended)
    (hinit : t.bufferInit = s.bufferInit) (hvad : t.batchVad = s.batchVad)
    (hrows : t.session.decodable = s.session.decodable) (hforcing : t.forcing = s.forcing)
    (hpos : t.pos = s.pos) (hr : t.requests = s.requests) (hw : t.toServer = s.toServer) :
    t.Early length := by
  refine ⟨hrows ▸ h.rows, hforcing.trans h.forcing, fun _ => ?_, fun hfill => ?_,
    fun hiter => ?_, fun hread => ?_⟩
  · rw [hinit, hvad, hpos, hr, hw]
    exact h.between hpc
  · rcases hpc' with hpc' | hpc' | hpc' <;> cases hpc'.symm.trans hfill
  · rcases hpc' with hpc' | hpc' | hpc' <;> cases hpc'.symm.trans hiter
  · obtain ⟨active, hread⟩ := hread
    rcases hpc' with hpc' | hpc' | hpc' <;> cases hpc'.symm.trans hread

theorem Early.call (h : s.Early length) (hs : s.call = some t) : t.Early length := by
  obtain ⟨hpc, session, hsession, rfl⟩ := call_cases hs
  obtain ⟨-, rfl⟩ := DecodeSession.step_call hsession
  exact h.of_between (Or.inl hpc) (Or.inl hpc) rfl rfl rfl rfl rfl rfl rfl

theorem Early.score (h : s.Early length) {asked : Bool} (hs : s.score asked = some t) :
    t.Early length := by
  obtain ⟨hpc, session, hsession, rfl⟩ := score_cases hs
  exact h.of_between (Or.inl hpc) (Or.inl hpc) rfl rfl
    (DecodeSession.logLikelihood_none (DecodeSession.score_logLikelihood hsession))
    rfl rfl rfl rfl

theorem Early.finish (h : s.Early length) (hs : s.finish = some t) : t.Early length := by
  obtain ⟨hpc, session, hsession, rfl⟩ := finish_cases hs
  obtain ⟨batchFrame, -, -, rfl⟩ := DecodeSession.step_finish hsession
  exact h.of_between (Or.inl hpc) (Or.inr (Or.inl rfl)) rfl rfl rfl rfl rfl rfl rfl

theorem Early.output (h : s.Early length) {success : Bool} (hs : s.output success = some t) :
    t.Early length := by
  obtain ⟨hpc, ⟨-, rfl⟩ | ⟨-, pc, piece, e, hpc', rfl⟩⟩ := output_cases hs
  · exact h.of_between (Or.inr hpc) (Or.inl rfl) rfl rfl rfl rfl rfl rfl rfl
  · refine h.of_between (Or.inr hpc) ?_ rfl rfl rfl rfl rfl (requests_send_output _ e) rfl
    exact hpc'.imp_right Or.inr

theorem Early.compute (h : s.Early length) (hs : s.compute = some t) : t.Early length := by
  obtain ⟨⟨hpc, -⟩, hcases⟩ := compute_cases hs
  obtain ⟨hinit, hvad, hpos, hr, hw⟩ := h.between (Or.inl hpc)
  rcases hcases with rfl | ⟨hinit', -⟩ | ⟨-, rfl⟩
  · exact ⟨h.rows, h.forcing, by simp, by simp, by simp, by simp⟩
  · exact absurd (hinit'.symm.trans hinit) (by decide)
  · refine ⟨h.rows, h.forcing, by simp [send], fun _ => ⟨hvad, Or.inl ⟨?_, hpos, hw⟩⟩,
      by simp [send], by simp [send]⟩
    rw [requests_send_request]
    exact congrArg (· ++ _) hr

theorem Early.vad (h : s.Early length) {speech : Bool} (hs : s.vad speech = some t) :
    t.Early length := by
  obtain ⟨hpc, n, rfl, rfl⟩ := vad_cases hs
  obtain ⟨hvad, hpos, hr, hw⟩ := h.iterating hpc
  refine ⟨h.rows, ?_, by simp [send], by simp [send], by simp [send],
    fun _ => Or.inl ⟨?_, hpos, hw⟩⟩
  · show (s.forcing || _) = false
    rw [h.forcing, hvad, notify_no_end]
    rfl
  · rw [requests_send_request]
    exact congrArg (· ++ _) hr

/-- The only block of an iteration that arrives is the one behind the initial buffer. -/
theorem Early.block (h : s.Early length) {n : Nat} {rest : List Nat}
    (hpackets : s.toServer = n :: rest) (hpc : ∃ active, s.pc = .readingBack active) :
    length = bufferLength + samplesReq ∧ length ≤ s.pos ∧ n = samplesReq ∧ rest = [] := by
  rcases h.reading hpc with ⟨-, -, hw⟩ | ⟨hlength, hleft, hw⟩
  · rw [hw] at hpackets
    cases hpackets
  · rw [hw] at hpackets
    injection hpackets with hn hrest
    exact ⟨hlength, hleft, hn.symm, hrest.symm⟩

/-- After this block the client is gone. -/
theorem Early.receive (h : s.Early length) (hs : s.receive rightContext = some t) :
    t.Early length ∨ t.Gone length := by
  obtain ⟨n, rest, hpackets, ⟨hpc, rfl⟩ | ⟨hpc, -, rfl⟩ | ⟨hpc, rfl⟩⟩ := receive_cases hs
  · obtain ⟨hvad, ⟨-, -, hw⟩ | ⟨hr, hpos, m, hw⟩⟩ := h.filling hpc
    · rw [hw] at hpackets
      cases hpackets
    · rw [hw] at hpackets
      injection hpackets with _ hrest
      exact Or.inl ⟨h.rows, h.forcing, by simp, by simp,
        fun _ => ⟨hvad, hpos, hr, hrest.symm⟩, by simp⟩
  · obtain ⟨-, hleft, -, rfl⟩ := h.block hpackets hpc
    exact Or.inr ⟨hleft, rfl⟩
  · obtain ⟨-, hleft, -, rfl⟩ := h.block hpackets hpc
    rcases computed_cases (s := { s with toServer := [] }) (n == samplesReq) with
      ht | ⟨session, -, ht⟩ <;>
    · rw [ht]
      exact Or.inr ⟨hleft, rfl⟩

/-- From then on nothing arrives. -/
theorem Gone.step (h : s.Gone length) {l : ExchangeLabel}
    (hs : step length rightContext s l = some t) : t.Gone length := by
  cases l with
  | client => exact absurd (client_cases hs).1 (Nat.not_lt.mpr h.left)
  | call =>
      obtain ⟨-, session, -, rfl⟩ := call_cases hs
      exact ⟨h.left, h.none⟩
  | score asked =>
      obtain ⟨-, session, -, rfl⟩ := score_cases hs
      exact ⟨h.left, h.none⟩
  | compute =>
      obtain ⟨-, rfl | ⟨-, -, rfl⟩ | ⟨-, rfl⟩⟩ := compute_cases hs <;> exact ⟨h.left, h.none⟩
  | vad speech =>
      obtain ⟨-, n, -, rfl⟩ := vad_cases hs
      exact ⟨h.left, h.none⟩
  | receive =>
      obtain ⟨n, rest, hpackets, -⟩ := receive_cases hs
      rw [h.none] at hpackets
      cases hpackets
  | finish =>
      obtain ⟨-, session, -, rfl⟩ := finish_cases hs
      exact ⟨h.left, h.none⟩
  | output success =>
      obtain ⟨-, ⟨-, rfl⟩ | ⟨-, pc, piece, e, -, rfl⟩⟩ := output_cases hs <;>
      exact ⟨h.left, h.none⟩

theorem early_or_gone_of_reachable (hshort : Short length)
    (h : (system length rightContext).Reachable s) : s.Early length ∨ s.Gone length := by
  refine h.invariant (fun s => s.Early length ∨ s.Gone length) ?_ ?_
  · refine Or.inl ⟨rfl, rfl, fun _ => ⟨rfl, rfl, rfl, rfl, rfl⟩, ?_, ?_, ?_⟩ <;>
      simp [system, create]
  intro s l t hinv hs
  rcases hinv with hearly | hgone
  · cases l with
    | client => exact Or.inl (hearly.client hshort hs)
    | call => exact Or.inl (hearly.call hs)
    | score asked => exact Or.inl (hearly.score hs)
    | compute => exact Or.inl (hearly.compute hs)
    | vad speech => exact Or.inl (hearly.vad hs)
    | receive => exact hearly.receive hs
    | finish => exact Or.inl (hearly.finish hs)
    | output success => exact Or.inl (hearly.output hs)
  · exact Or.inr (hgone.step hs)

end Early

/-- The server never gets as far as an output. -/
def NeverOutputs (length rightContext : Nat) : Prop :=
  batchSize ≤ rightContext ∨ length ≤ bufferLength ∨
    length = bufferLength + samplesReq ∧ 0 < rightContext

/-- The rows that a session without an output can have. -/
def rowBound (rightContext : Nat) : Nat :=
  if rightContext = 0 then 0 else batchSize - rightContext

theorem rowBound_lt (rightContext : Nat) : rowBound rightContext < batchSize := by
  unfold rowBound batchSize
  split <;> omega

/-- The blocks that such a session gets as far as. -/
theorem few_of_reachable {length rightContext : Nat} {s : Exchange}
    (hnever : NeverOutputs length rightContext)
    (h : (system length rightContext).Reachable s)
    (hquiet : Quiet (rowBound rightContext) s) {n : Nat} {rest : List Nat}
    (hpackets : s.toServer = n :: rest) (hpc : ∃ active, s.pc = .readingBack active) :
    s.session.decodable.rows = 0 ∧ (batchSize ≤ rightContext ∨
      n = samplesReq ∧ s.forcing = false ∧
        batchSize - rightContext ≤ rowBound rightContext) := by
  by_cases hlarge : batchSize ≤ rightContext
  · have hrows := hquiet.rows
    have hzero : rowBound rightContext = 0 := by
      unfold rowBound
      split
      · rfl
      · exact Nat.sub_eq_zero_of_le hlarge
    exact ⟨by omega, Or.inl hlarge⟩
  · have hshort : Short length := (hnever.resolve_left hlarge).imp_right fun hlength => hlength.1
    rcases early_or_gone_of_reachable hshort h with hearly | hgone
    · obtain ⟨hlength, -, hn, -⟩ := hearly.block hpackets hpc
      have hpos : rightContext ≠ 0 := by
        rcases hnever.resolve_left hlarge with hle | ⟨-, hpos⟩
        · have : 0 < samplesReq := by decide
          omega
        · omega
      refine ⟨hearly.rows, Or.inr ⟨hn, hearly.forcing, ?_⟩⟩
      rw [rowBound, if_neg hpos]
    · rw [hgone.none] at hpackets
      cases hpackets

theorem quiet_of_reachable {length rightContext : Nat} {s : Exchange}
    (hnever : NeverOutputs length rightContext)
    (h : (system length rightContext).Reachable s) : Quiet (rowBound rightContext) s := by
  refine Transition.System.ReachableVia.invariant (Quiet (rowBound rightContext))
    (quiet_create _) ?_ h
  intro s l t hs _ hquiet hstep
  have hsession := session_reachable hs
  cases l with
  | client => exact hquiet.client hstep
  | call => exact hquiet.call hstep
  | score asked => exact hquiet.score hsession hstep
  | compute => exact hquiet.compute hstep
  | vad speech => exact hquiet.vad hstep
  | receive =>
      refine hquiet.receive hsession ?_ hstep
      intro n rest hpackets hpc
      exact few_of_reachable hnever hs hquiet hpackets hpc
  | finish => exact hquiet.finish hsession hstep
  | output success => exact hquiet.output (rowBound_lt _) hsession hstep

/-! ## Sessions with an output that is lost -/

/-- In the loop of `Decode`, with active tokens. -/
structure At (s : Exchange) (frame batchFrame rows : Nat) (finished : Bool) : Prop where
  pc : s.pc = .decoding
  loop : s.session.pc = .loop batchFrame
  frame : s.session.decoder.frame = frame
  rows : s.session.decodable.rows = rows
  finished : s.session.decodable.finished = finished
  alive : s.session.alive = true
  notForcing : s.session.decoder.forcingEndUtt = false

/-- After the first batch of features. -/
def firstBatch (rightContext pos : Nat) (speech moreData : Bool) : Exchange :=
  { listening pos with
    pc := .decoding
    batchVad := speech
    session :=
      { decoder := { OnlineFasterDecoder.create with frame := 1, uttFrames := 1 }
        decodable := ⟨0, batchSize - rightContext, !moreData⟩
        pc := .loop 1
        alive := true
        decoded := [0]
        forced := false } }

section Runs

variable {length rightContext : Nat} {s : Exchange} {frame batchFrame rows : Nat}
  {finished : Bool}

theorem firstBatch_at (rightContext pos : Nat) (speech moreData : Bool) :
    (firstBatch rightContext pos speech moreData).At 1 1 (batchSize - rightContext)
      (!moreData) :=
  ⟨rfl, rfl, rfl, Nat.zero_add _, rfl, rfl, rfl⟩

/-- The first batch of features is loaded and its first frame scored. -/
theorem listening_computed (hcontext : rightContext < batchSize) (pos : Nat)
    (speech moreData : Bool) :
    ({ listening pos with pc := .readingBack speech, batchVad := speech } :
        Exchange).computed rightContext moreData =
      firstBatch rightContext pos speech moreData := by
  have hrows : ¬ 27 - rightContext = 0 := by
    unfold batchSize at hcontext
    omega
  have hsession : (listening pos).session.step batchSize
      (.score ⟨true, some (batchSize - rightContext, moreData), false⟩) =
        some (firstBatch rightContext pos speech moreData).session := by
    simp [listening, firstBatch, DecodeSession.step, DecodeSession.score,
      DecodeSession.logLikelihood, DecodeSession.create, OnlineFasterDecoder.start,
      OnlineFasterDecoder.newUtterance, OnlineFasterDecoder.create,
      OnlineFasterDecoder.resetDecoder, OnlineFasterDecoder.goesOn,
      OnlineFasterDecoder.nextFrame, OnlineDecodable.create, OnlineDecodable.isLastFrame,
      OnlineDecodable.needsBatch, OnlineDecodable.load, OnlineDecodable.rows, hrows, batchSize]
  have hlda : ldaRows rightContext (listening pos).session.decodable =
      batchSize - rightContext := rfl
  unfold computed
  dsimp only
  rw [hlda]
  have hforcing : (listening pos).forcing = false := rfl
  rw [hforcing, hsession]
  rfl

/-- A block with speech, or a short one. -/
theorem listening_batch {pos : Nat} (hin : pos < length) (hcontext : rightContext < batchSize)
    (speech : Bool) (hend : speech = true ∨ length < pos + samplesReq) :
    (system length rightContext).Leads (listening pos)
      (firstBatch rightContext (pos + samplesReq) speech
        (min (length - pos) samplesReq == samplesReq)) := by
  have hnotify : OnlineVadFeInput.notify vadOptions samplesReq bufferLength false speech 0 =
      ⟨0, speech, if speech then [(0, .speechStart)] else []⟩ := by
    cases speech <;> rfl
  have hactive : (!speech && min (length - pos) samplesReq == samplesReq) = false := by
    rcases hend with rfl | hshort
    · rfl
    · have hne : min (length - pos) samplesReq ≠ samplesReq := by omega
      simp [hne]
  have hvad : (system length rightContext).step (listening pos) (.vad speech) =
      some ({ listening pos with pc := .readingBack speech, batchVad := speech }.send
        (.dataWaveRequest samplesReq)) := by
    simp [system, step, vad, listening, create, hnotify]
    cases speech <;> rfl
  have hclient : (system length rightContext).step
      ({ listening pos with pc := .readingBack speech, batchVad := speech }.send
        (.dataWaveRequest samplesReq)) .client =
      some { listening (pos + samplesReq) with
        pc := .readingBack speech
        batchVad := speech
        toServer := [min (length - pos) samplesReq] } := by
    simp [system, step, client, send, listening, create, Inside, hin]
  have hreceive : (system length rightContext).step
      { listening (pos + samplesReq) with
        pc := .readingBack speech
        batchVad := speech
        toServer := [min (length - pos) samplesReq] } .receive =
      some (firstBatch rightContext (pos + samplesReq) speech
        (min (length - pos) samplesReq == samplesReq)) := by
    rw [← listening_computed hcontext]
    simp only [system, step, receive, hactive]
    rfl
  exact .head hvad (.head hclient (.head hreceive (.refl _)))

/-- The loop goes on until the batch is full or the features are over. -/
theorem At.goesOn_iff (h : s.At frame batchFrame rows finished) (hpos : 0 < frame) :
    s.session.decoder.goesOn s.session.decodable batchSize batchFrame = true ↔
      ¬ (finished = true ∧ rows ≤ frame) ∧ batchFrame < batchSize := by
  rw [OnlineFasterDecoder.goesOn, Bool.and_eq_true, Bool.not_eq_true', ← Bool.not_eq_true,
    decide_eq_true_eq, h.frame, DecodeSession.isLastFrame_pred hpos, h.rows, h.finished]

/-- The next frame asks for features when it has come to the end of these. -/
theorem At.needsBatch_eq (h : s.At frame batchFrame rows finished) :
    s.session.decodable.needsBatch s.session.decoder.frame = decide (rows ≤ frame) := by
  rw [OnlineDecodable.needsBatch, h.frame, h.rows]

/-- A frame of features that have been received. -/
theorem At.score (h : s.At frame batchFrame rows finished) (hframe : frame < rows)
    (hbatch : batchFrame < batchSize) (hpos : 0 < frame) :
    ∃ session, s.score true = some { s with session } ∧
      ({ s with session } : Exchange).At (frame + 1) (batchFrame + 1) rows finished := by
  have hgoes : s.session.decoder.goesOn s.session.decodable batchSize batchFrame = true :=
    (h.goesOn_iff hpos).mpr ⟨by omega, hbatch⟩
  have hneeds : s.session.decodable.needsBatch s.session.decoder.frame = false := by
    rw [h.needsBatch_eq]
    exact decide_eq_false (by omega)
  have hstep : s.session.step batchSize (.score ⟨true, none, false⟩) = some { s.session with
      alive := true
      decoded := s.session.decoded ++ [s.session.decoder.frame]
      decoder := s.session.decoder.nextFrame
      pc := .loop (batchFrame + 1) } := by
    simp [DecodeSession.step, DecodeSession.score, h.loop, hgoes, h.alive,
      DecodeSession.logLikelihood, hneeds, h.notForcing]
  have hscore : s.score true = some { s with session := { s.session with
      alive := true
      decoded := s.session.decoded ++ [s.session.decoder.frame]
      decoder := s.session.decoder.nextFrame
      pc := .loop (batchFrame + 1) } } := by
    rw [Exchange.score, if_pos h.pc, hstep]
    rfl
  exact ⟨_, hscore, h.pc, rfl, congrArg (· + 1) h.frame, h.rows, h.finished, rfl,
    h.notForcing⟩

/-- Frames of features that have been received. -/
theorem At.scores (h : s.At frame batchFrame rows finished) (hpos : 0 < frame) (n : Nat)
    (hframe : frame + n ≤ rows) (hbatch : batchFrame + n ≤ batchSize) :
    ∃ session, (system length rightContext).Leads s { s with session } ∧
      ({ s with session } : Exchange).At (frame + n) (batchFrame + n) rows finished := by
  induction n generalizing s frame batchFrame with
  | zero => exact ⟨s.session, .refl _, h⟩
  | succ n ih =>
      obtain ⟨session, hstep, hnext⟩ := h.score (by omega) (by omega) hpos
      obtain ⟨session', hleads, hat⟩ := ih hnext (Nat.succ_pos _) (by omega) (by omega)
      refine ⟨session', .head (e := .score true) hstep hleads, ?_⟩
      rwa [Nat.add_right_comm frame, Nat.add_right_comm batchFrame] at hat

/-- With active tokens, `OnlineDecode` can always send something after `Decode`. -/
theorem output_sends (hpc : s.pc = .returned) (halive : s.session.alive = true) :
    ∃ (v : Exchange) (e : Bool),
      s.output true = some (v.send (.decodeOutput e)) ∧ v.pos = s.pos := by
  cases hstate : s.session.decoder.state with
  | endFeats =>
      refine ⟨{ s with pc := .ended }, true, ?_, rfl⟩
      rw [Exchange.output, if_pos hpc, hstate]
  | endUtt =>
      refine ⟨{ s with pc := .decoding }, true, ?_, rfl⟩
      rw [Exchange.output, if_pos hpc, hstate]
  | endBatch =>
      refine ⟨{ s with pc := .decoding, sentPiece := true }, false, ?_, rfl⟩
      rw [Exchange.output, if_pos hpc, hstate]
      simp [halive]

/-- The loop of `Decode` ends with the features or with a full batch, and what has been
found is sent. -/
theorem At.output (h : s.At frame batchFrame rows finished) (hpos : 0 < frame)
    (hend : finished = true ∧ frame = rows ∨ finished = false ∧ batchFrame = batchSize) :
    ∃ t, (system length rightContext).Leads s t ∧ t.pos = s.pos ∧
      ∃ e, .decodeOutput e ∈ t.toClient := by
  have hgoes : ¬ s.session.decoder.goesOn s.session.decodable batchSize batchFrame = true := by
    rw [h.goesOn_iff hpos]
    rintro ⟨hmore, hlt⟩
    rcases hend with ⟨hfinished, hlast⟩ | ⟨-, hfull⟩
    · exact hmore ⟨hfinished, hlast.ge⟩
    · omega
  have hfinish : s.session.step batchSize .finish = some { s.session with
      decoder := s.session.decoder.finish s.session.decodable batchSize batchFrame
      pc := if (s.session.decoder.finish s.session.decodable batchSize batchFrame).state ==
        .endFeats then .left else .outside } := by
    simp [DecodeSession.step, h.loop, hgoes]
  have hstep : s.finish = some { s with
      session := { s.session with
        decoder := s.session.decoder.finish s.session.decodable batchSize batchFrame
        pc := if (s.session.decoder.finish s.session.decodable batchSize batchFrame).state ==
          .endFeats then .left else .outside }
      pc := .returned } := by
    rw [Exchange.finish, if_pos h.pc, hfinish]
    rfl
  obtain ⟨v, e, hout, hv⟩ := output_sends (s := { s with
    session := { s.session with
      decoder := s.session.decoder.finish s.session.decodable batchSize batchFrame
      pc := if (s.session.decoder.finish s.session.decodable batchSize batchFrame).state ==
        .endFeats then .left else .outside }
    pc := .returned }) rfl h.alive
  exact ⟨_, .head (e := .finish) hstep (.head (e := .output true) hout (.refl _)), hv, e,
    by simp [send]⟩

/-- A frame that needs the next batch of features, during speech. -/
theorem At.nextBatch (h : s.At rows batchFrame rows false) (hpos : 0 < rows)
    (hbatch : batchFrame < batchSize) (hinit : s.bufferInit = true)
    (hvad : s.batchVad = true) (hforcing : s.forcing = false) (hclient : s.toClient = [])
    (hserver : s.toServer = []) (hblock : s.pos + samplesReq ≤ length) :
    ∃ t, (system length rightContext).Leads s t ∧
      t.At (rows + 1) (batchFrame + 1) (rows + batchSize) false ∧
      t.pos = s.pos + samplesReq := by
  have hgoes : s.session.decoder.goesOn s.session.decodable batchSize batchFrame = true :=
    (h.goesOn_iff hpos).mpr ⟨by simp, hbatch⟩
  have hneeds : s.session.decodable.needsBatch s.session.decoder.frame = true := by
    rw [h.needsBatch_eq]
    exact decide_eq_true le_rfl
  have hcompute : s.compute = some { s with pc := .iterating } := by
    have hcond : s.NeedsCompute := by
      refine ⟨h.pc, h.alive, ?_⟩
      rw [h.loop]
      exact ⟨hgoes, hneeds⟩
    rw [Exchange.compute, if_pos hcond, h.finished, hinit]
    rfl
  have hask : ({ s with pc := .iterating } : Exchange).vad true = some { s with
      pc := .readingBack true
      toClient := [.dataWaveRequest samplesReq] } := by
    simp [Exchange.vad, OnlineVadFeInput.notify, hvad, hforcing, send, hclient]
  have hanswer : ({ s with
      pc := .readingBack true
      toClient := [.dataWaveRequest samplesReq] } : Exchange).client length = some { s with
        pc := .readingBack true
        toClient := []
        toServer := [samplesReq]
        pos := s.pos + samplesReq } := by
    have hin : s.pos < length := by
      have : 0 < samplesReq := by decide
      omega
    have hfull : min (length - s.pos) samplesReq = samplesReq := by omega
    simp [Exchange.client, Inside, hin, hserver, hfull]
  have hscore : s.session.step batchSize (.score ⟨true, some (batchSize, true), false⟩) =
      some { s.session with
        decodable := ⟨s.session.decodable.featOffset + s.session.decodable.featSize, batchSize,
          false⟩
        alive := true
        decoded := s.session.decoded ++ [s.session.decoder.frame]
        decoder := s.session.decoder.nextFrame
        pc := .loop (batchFrame + 1) } := by
    have hpositive : batchSize ≠ 0 := by decide
    simp [DecodeSession.step, DecodeSession.score, h.loop, hgoes, h.alive,
      DecodeSession.logLikelihood, hneeds, OnlineDecodable.load, h.finished, hpositive,
      h.notForcing]
  have hlda : ldaRows rightContext s.session.decodable = batchSize := by
    rw [ldaRows, h.rows, if_neg hpos.ne', Nat.sub_zero]
  have hreceive : ({ s with
      pc := .readingBack true
      toClient := []
      toServer := [samplesReq]
      pos := s.pos + samplesReq } : Exchange).receive rightContext = some { s with
        pc := .decoding
        toClient := []
        toServer := []
        pos := s.pos + samplesReq
        forcing := false
        session := { s.session with
          decodable := ⟨s.session.decodable.featOffset + s.session.decodable.featSize,
            batchSize, false⟩
          alive := true
          decoded := s.session.decoded ++ [s.session.decoder.frame]
          decoder := s.session.decoder.nextFrame
          pc := .loop (batchFrame + 1) } } := by
    simp [Exchange.receive, computed, hlda, hforcing, hscore]
  refine ⟨_, .head (e := .compute) hcompute (.head (e := .vad true) hask
    (.head (e := .client) hanswer (.head (e := .receive) hreceive (.refl _)))), ?_, rfl⟩
  refine ⟨rfl, rfl, congrArg (· + 1) h.frame, ?_, rfl, rfl, h.notForcing⟩
  exact congrArg (· + batchSize) h.rows

end Runs

/-! ## Which outputs are read -/

section Lost

variable {length rightContext : Nat}

/-- After full blocks of silence. -/
theorem reachable_listening (rightContext k : Nat) (hpos : 0 < length)
    (hk : bufferLength + k * samplesReq ≤ length) :
    (system length rightContext).Reachable (listening (bufferLength + k * samplesReq)) := by
  have hstart : (system length rightContext).Reachable create :=
    Transition.System.ReachableVia.init
  exact (hstart.leads (listening_of_pos hpos)).leads (listening_blocks _ k hk)

/-- What is sent after the client has left is lost. -/
theorem lost_of_at {s : Exchange} {frame batchFrame rows : Nat} {finished : Bool}
    (h : (system length rightContext).Reachable s) (hat : s.At frame batchFrame rows finished)
    (hpos : 0 < frame) (hleft : length ≤ s.pos) (n : Nat) (hframe : frame + n ≤ rows)
    (hbatch : batchFrame + n ≤ batchSize)
    (hend : finished = true ∧ frame + n = rows ∨
      finished = false ∧ batchFrame + n = batchSize) :
    ∃ t, (system length rightContext).Reachable t ∧ Lost length t := by
  obtain ⟨session, hscores, hat'⟩ := hat.scores hpos n hframe hbatch
  obtain ⟨t, hout, hpos', he⟩ := hat'.output (by omega) hend
  refine ⟨t, (h.leads hscores).leads hout, ?_, he⟩
  rw [Inside, hpos']
  exact Nat.not_lt.mpr hleft

/-- The wave does not end with a full block: the output at its end is lost. -/
theorem lost_of_short_block (hcontext : rightContext < batchSize)
    (hlong : bufferLength < length) (hgrid : ¬ samplesReq ∣ length - bufferLength) :
    ∃ t, (system length rightContext).Reachable t ∧ Lost length t := by
  have hblock : 0 < samplesReq := by decide
  have hdiv := Nat.div_add_mod (length - bufferLength) samplesReq
  have hmod := Nat.mod_lt (length - bufferLength) hblock
  have hrest : (length - bufferLength) % samplesReq ≠ 0 :=
    fun hzero => hgrid (Nat.dvd_of_mod_eq_zero hzero)
  rw [Nat.mul_comm] at hdiv
  generalize (length - bufferLength) / samplesReq = k at hdiv
  generalize (length - bufferLength) % samplesReq = r at hdiv hmod hrest
  have hreach := reachable_listening rightContext k (by omega)
    (show bufferLength + k * samplesReq ≤ length by omega)
  have hbatch := hreach.leads (listening_batch (by omega) hcontext false
    (Or.inr (by omega)))
  have hshort : (min (length - (bufferLength + k * samplesReq)) samplesReq == samplesReq) =
      false := by
    rw [beq_eq_false_iff_ne]
    omega
  rw [hshort] at hbatch
  refine lost_of_at hbatch (firstBatch_at _ _ _ _) Nat.one_pos ?_ (batchSize - rightContext - 1)
    (by omega) (by omega) (Or.inl ⟨rfl, by omega⟩)
  show length ≤ bufferLength + k * samplesReq + samplesReq
  omega

/-- Speech in the last block, a full one: if the context needs no rows, it completes a
batch. -/
theorem lost_of_one_batch {k : Nat}
    (hlength : length = bufferLength + (k + 1) * samplesReq) :
    ∃ t, (system length 0).Reachable t ∧ Lost length t := by
  have hblock : 0 < samplesReq := by decide
  rw [Nat.succ_mul] at hlength
  have hreach := reachable_listening 0 k (by omega)
    (show bufferLength + k * samplesReq ≤ length by omega)
  have hbatch := hreach.leads (listening_batch (by omega) (by decide) true
    (Or.inl rfl))
  have hfull : (min (length - (bufferLength + k * samplesReq)) samplesReq == samplesReq) =
      true := by
    rw [beq_iff_eq]
    omega
  rw [hfull] at hbatch
  refine lost_of_at hbatch (firstBatch_at _ _ _ _) Nat.one_pos ?_ (batchSize - 1)
    (by decide) (by decide) (Or.inr ⟨rfl, by decide⟩)
  show length ≤ bufferLength + k * samplesReq + samplesReq
  omega

/-- Speech in the last two blocks, full ones: the second completes a batch. -/
theorem lost_of_two_batches {k : Nat} (hcontext : rightContext < batchSize)
    (hpos : 0 < rightContext) (hlength : length = bufferLength + (k + 2) * samplesReq) :
    ∃ t, (system length rightContext).Reachable t ∧ Lost length t := by
  have hblock : 0 < samplesReq := by decide
  rw [Nat.succ_mul, Nat.succ_mul] at hlength
  have hreach := reachable_listening rightContext k (by omega)
    (show bufferLength + k * samplesReq ≤ length by omega)
  have hbatch := hreach.leads (listening_batch (by omega) hcontext true
    (Or.inl rfl))
  have hfull : (min (length - (bufferLength + k * samplesReq)) samplesReq == samplesReq) =
      true := by
    rw [beq_iff_eq]
    omega
  rw [hfull] at hbatch
  obtain ⟨session, hscores, hat⟩ := (firstBatch_at rightContext _ true
    true).scores Nat.one_pos (batchSize - rightContext - 1) (by omega) (by omega)
  have hrows : 1 + (batchSize - rightContext - 1) = batchSize - rightContext := by omega
  rw [hrows] at hat
  obtain ⟨t, hnext, hat', hpos'⟩ := hat.nextBatch (by omega) (by omega) rfl rfl rfl rfl rfl
    (show bufferLength + k * samplesReq + samplesReq + samplesReq ≤ length by omega)
  refine lost_of_at ((hbatch.leads hscores).leads hnext) hat' (Nat.succ_pos _) ?_
    (rightContext - 1) (by omega) (by omega) (Or.inr ⟨rfl, by omega⟩)
  rw [hpos']
  show length ≤ bufferLength + k * samplesReq + samplesReq + samplesReq
  omega

end Lost

/-- **Outputs that are read.**  No output is ever left on its way to a client that has gone
if and only if the server sends none: the wave ends within the initial buffer, or one
full block behind it when the features need some right context, or the right
context is so large that no features come of the first batch. -/
theorem outputs_read_iff (length rightContext : Nat) :
    (∀ s, (system length rightContext).Reachable s → ¬ Lost length s) ↔
      NeverOutputs length rightContext := by
  constructor
  · intro hall
    by_contra hnever
    have hlost : ¬ ∃ t, (system length rightContext).Reachable t ∧ Lost length t :=
      fun ⟨t, ht, hl⟩ => hall t ht hl
    simp only [NeverOutputs, not_or, not_and, Nat.not_le] at hnever
    obtain ⟨hcontext, hlong, hone⟩ := hnever
    by_cases hgrid : samplesReq ∣ length - bufferLength
    · obtain ⟨k, hk⟩ := hgrid
      rw [Nat.mul_comm] at hk
      have hlength : length = bufferLength + k * samplesReq := by omega
      rcases k with _ | _ | k
      · omega
      · have hzero : rightContext = 0 :=
          Nat.eq_zero_of_not_pos (hone (by rw [hlength, Nat.one_mul]))
        subst hzero
        exact hlost (lost_of_one_batch hlength)
      · rcases Nat.eq_zero_or_pos rightContext with rfl | hpos
        · exact hlost (lost_of_one_batch hlength)
        · exact hlost (lost_of_two_batches hcontext hpos hlength)
    · exact hlost (lost_of_short_block hcontext hlong hgrid)
  · rintro hnever s hs ⟨-, e, he⟩
    exact (quiet_of_reachable hnever hs).silent e he

/-- A wave of thirteen thousand samples, without speech: the only output, at its end, is
not read. -/
theorem output_lost :
    ¬ ∀ s, (system 13000 3).Reachable s → ¬ Lost 13000 s := by
  intro hall
  obtain ⟨t, ht, hlost⟩ : ∃ t, (system 13000 3).Reachable t ∧ Lost 13000 t :=
    lost_of_short_block (by decide) (by decide) (by decide)
  exact hall t ht hlost

end Exchange

end ThreadedServer
