import ThreadedServer.Exchange

/-!
# The requests for audio

The server takes a short block for the end of the audio, and the client leaves
when its position has reached the length of the wave.  The two rules agree when
the initial buffer and some blocks are full and the last block is short.  They do
not when the wave ends within the initial buffer, whose length the server does not
look at, or exactly with a block: then the server asks for one block more.
-/

namespace ThreadedServer

namespace Exchange

/-- The requests on their way to the client. -/
def requests (s : Exchange) : List Nat :=
  s.toClient.filterMap fun p =>
    match p with
    | .dataWaveRequest n => some n
    | .decodeOutput _ => none

/-- The server is in `RemoteAudioSource::Read`. -/
def Reading (s : Exchange) : Prop := s.pc = .fillingBuffer ∨ ∃ active, s.pc = .readingBack active

/-- Each request is answered by one block: while the server reads, there is one request
on its way, to a client that is still in its loop, or one block; otherwise there is
neither. -/
structure Answered (length : Nat) (s : Exchange) : Prop where
  one : s.Reading → s.requests.length + s.toServer.length = 1
  inside : s.requests ≠ [] → s.Inside length
  none : ¬ s.Reading → s.requests = [] ∧ s.toServer = []

/-- The client has sent the initial buffer and full blocks, and has not reached the
end. -/
structure OnGrid (length pos : Nat) : Prop where
  filled : bufferLength ≤ pos
  blocks : samplesReq ∣ pos - bufferLength
  inside : pos < length

/-- What is on its way at each control point. -/
structure Expected (length : Nat) (s : Exchange) : Prop where
  filling : s.pc = .fillingBuffer →
    s.requests = [bufferLength] ∧ s.toServer = [] ∧ s.pos = 0 ∨
      s.requests = [] ∧ s.toServer = [bufferLength] ∧ OnGrid length s.pos
  readingBack : (∃ active, s.pc = .readingBack active) →
    s.requests = [samplesReq] ∧ s.toServer = [] ∧ OnGrid length s.pos ∨
      ∃ n, s.requests = [] ∧ s.toServer = [n] ∧ (n = samplesReq → OnGrid length s.pos)
  idle : ¬ s.Reading → s.requests = [] ∧ s.toServer = []
  iterating : s.pc = .iterating → OnGrid length s.pos
  init : (s.pc = .iterating ∨ ∃ active, s.pc = .readingBack active) → s.bufferInit = true
  fresh : s.pc = .decoding ∨ s.pc = .returned → s.bufferInit = false → s.pos = 0
  more : s.pc = .decoding ∨ s.pc = .returned → s.bufferInit = true →
    s.session.decodable.finished = false → OnGrid length s.pos

@[simp] theorem requests_send_request (s : Exchange) (n : Nat) :
    (s.send (.dataWaveRequest n)).requests = s.requests ++ [n] := by
  simp [requests, send]

@[simp] theorem requests_send_output (s : Exchange) (e : Bool) :
    (s.send (.decodeOutput e)).requests = s.requests := by
  simp [requests, send]

theorem Expected.answered {length : Nat} {s : Exchange} (hpos : 0 < length)
    (h : s.Expected length) : s.Answered length := by
  refine ⟨?_, ?_, h.idle⟩
  · rintro (hpc | hpc)
    · rcases h.filling hpc with ⟨hr, hw, -⟩ | ⟨hr, hw, -⟩ <;> simp [hr, hw]
    · rcases h.readingBack hpc with ⟨hr, hw, -⟩ | ⟨n, hr, hw, -⟩ <;> simp [hr, hw]
  · intro hne
    by_cases hread : s.Reading
    · rcases hread with hpc | hpc
      · rcases h.filling hpc with ⟨-, -, hzero⟩ | ⟨hr, -, -⟩
        · rw [Inside, hzero]
          exact hpos
        · exact absurd hr hne
      · rcases h.readingBack hpc with ⟨-, -, hgrid⟩ | ⟨n, hr, -⟩
        · exact hgrid.inside
        · exact absurd hr hne
    · exact absurd (h.idle hread).1 hne

theorem requests_request {s : Exchange} {n : Nat} {rest : List ServerPacket}
    (hpackets : s.toClient = .dataWaveRequest n :: rest) :
    s.requests = n :: ({ s with toClient := rest } : Exchange).requests := by
  simp [requests, hpackets]

/-- The only request is the one that the client reads. -/
theorem eq_of_requests {s : Exchange} {n m : Nat} {rest : List ServerPacket}
    (hpackets : s.toClient = .dataWaveRequest n :: rest) (hr : s.requests = [m]) :
    n = m ∧ ({ s with toClient := rest } : Exchange).requests = [] := by
  rw [requests_request hpackets] at hr
  injection hr with hn hrest
  exact ⟨hn, hrest⟩

theorem requests_output {s : Exchange} {e : Bool} {rest : List ServerPacket}
    (hpackets : s.toClient = .decodeOutput e :: rest) :
    ({ s with toClient := rest } : Exchange).requests = s.requests := by
  simp [requests, hpackets]

/-- The first block is the whole buffer, if the wave is longer. -/
theorem onGrid_first {length : Nat} (hlong : bufferLength < length) :
    OnGrid length bufferLength := by
  refine ⟨Nat.le_refl _, ?_, hlong⟩
  rw [Nat.sub_self]
  exact Nat.dvd_zero _

/-- A full block leaves the client in its loop, if the wave does not end with one. -/
theorem OnGrid.next {length pos : Nat} (h : OnGrid length pos)
    (hgrid : ¬ samplesReq ∣ length - bufferLength)
    (hfull : min (length - pos) samplesReq = samplesReq) : OnGrid length (pos + samplesReq) := by
  have hpos := h.filled
  have hsub : pos + samplesReq - bufferLength = pos - bufferLength + samplesReq := by omega
  have hblocks : samplesReq ∣ pos + samplesReq - bufferLength := by
    rw [hsub]
    exact Nat.dvd_add h.blocks (Nat.dvd_refl _)
  refine ⟨by omega, hblocks, ?_⟩
  have hle : pos + samplesReq ≤ length := by
    have := h.inside
    omega
  refine Nat.lt_of_le_of_ne hle fun heq => hgrid ?_
  rwa [← heq]

section Step

variable {length rightContext : Nat} {s t : Exchange}

theorem Expected.client (hlong : bufferLength < length)
    (hgrid : ¬ samplesReq ∣ length - bufferLength) (h : s.Expected length)
    (hs : s.client length = some t) : t.Expected length := by
  obtain ⟨-, hcases⟩ := client_cases hs
  rcases hcases with ⟨n, rest, hpackets, rfl⟩ | ⟨e, rest, hpackets, rfl⟩
  · have hne : s.requests ≠ [] := by
      rw [requests_request hpackets]
      exact List.cons_ne_nil _ _
    have hread : s.Reading := by
      by_contra hread
      exact hne (h.idle hread).1
    have hidle : ∀ pc, s.pc = pc → pc ≠ .fillingBuffer → (∀ active, pc ≠ .readingBack active) →
        False := by
      rintro pc rfl hfill hback
      rcases hread with hpc | ⟨active, hpc⟩
      · exact hfill hpc
      · exact hback active hpc
    refine ⟨fun hpc => ?_, fun hpc => ?_, fun hr => absurd hread hr, fun hpc => ?_, h.init,
      fun hpc => ?_, fun hpc => ?_⟩
    · rcases h.filling hpc with ⟨hr, hw, hzero⟩ | ⟨hr, -⟩
      · obtain ⟨rfl, hrest⟩ := eq_of_requests hpackets hr
        refine Or.inr ⟨hrest, ?_, ?_⟩
        · rw [hw, hzero, List.nil_append, Nat.sub_zero, Nat.min_eq_right hlong.le]
        · show OnGrid length (s.pos + bufferLength)
          rw [hzero, Nat.zero_add]
          exact onGrid_first hlong
      · exact absurd hr hne
    · rcases h.readingBack hpc with ⟨hr, hw, hpos⟩ | ⟨m, hr, -⟩
      · obtain ⟨rfl, hrest⟩ := eq_of_requests hpackets hr
        refine Or.inr ⟨min (length - s.pos) samplesReq, hrest, ?_, hpos.next hgrid⟩
        rw [hw, List.nil_append]
      · exact absurd hr hne
    · exact (hidle _ hpc (by simp) (by simp)).elim
    · rcases hpc with hpc | hpc <;> exact (hidle _ hpc (by simp) (by simp)).elim
    · rcases hpc with hpc | hpc <;> exact (hidle _ hpc (by simp) (by simp)).elim
  · have hr := requests_output hpackets
    exact ⟨by rw [hr]; exact h.filling, by rw [hr]; exact h.readingBack,
      by rw [hr]; exact h.idle, h.iterating, h.init, h.fresh, h.more⟩

/-- The server's part of a step that neither reads nor sends a request. -/
theorem Expected.of_idle {s t : Exchange} (h : s.Expected length) (hidle : ¬ s.Reading)
    (hidle' : ¬ t.Reading) (hr : t.requests = s.requests) (hw : t.toServer = s.toServer)
    (hiterating : t.pc = .iterating → OnGrid length t.pos ∧ t.bufferInit = true)
    (hfresh : t.pc = .decoding ∨ t.pc = .returned → t.bufferInit = false → t.pos = 0)
    (hmore : t.pc = .decoding ∨ t.pc = .returned → t.bufferInit = true →
      t.session.decodable.finished = false → OnGrid length t.pos) : t.Expected length := by
  refine ⟨fun hpc => absurd (Or.inl hpc) hidle', fun hpc => absurd (Or.inr hpc) hidle', ?_,
    fun hpc => (hiterating hpc).1, ?_, hfresh, hmore⟩
  · rw [hr, hw]
    exact fun _ => h.idle hidle
  · rintro (hpc | hpc)
    · exact (hiterating hpc).2
    · exact absurd (Or.inr hpc) hidle'

theorem not_reading_of_pc {s : Exchange} (hfill : s.pc ≠ .fillingBuffer)
    (hback : ∀ active, s.pc ≠ .readingBack active) : ¬ s.Reading := by
  rintro (hpc | ⟨active, hpc⟩)
  · exact hfill hpc
  · exact hback active hpc

theorem Expected.call (h : s.Expected length) (hs : s.call = some t) : t.Expected length := by
  obtain ⟨hpc, session, hsession, rfl⟩ := call_cases hs
  obtain ⟨-, rfl⟩ := DecodeSession.step_call hsession
  refine h.of_idle ?_ ?_ rfl rfl (fun hit => ?_) h.fresh h.more
  · refine not_reading_of_pc ?_ ?_ <;> simp [hpc]
  · refine not_reading_of_pc ?_ ?_ <;> simp [hpc]
  · exact absurd (hpc.symm.trans hit) (by decide)

theorem Expected.finish (h : s.Expected length) (hs : s.finish = some t) :
    t.Expected length := by
  obtain ⟨hpc, session, hsession, rfl⟩ := finish_cases hs
  obtain ⟨batchFrame, -, -, rfl⟩ := DecodeSession.step_finish hsession
  refine h.of_idle ?_ ?_ rfl rfl (fun hpc' => ?_) (fun _ => h.fresh (Or.inl hpc))
    (fun _ => h.more (Or.inl hpc))
  · refine not_reading_of_pc ?_ ?_ <;> simp [hpc]
  · refine not_reading_of_pc ?_ ?_ <;> simp
  · cases hpc'

theorem Expected.score (h : s.Expected length) {asked : Bool} (hs : s.score asked = some t) :
    t.Expected length := by
  obtain ⟨hpc, session, hsession, rfl⟩ := score_cases hs
  have hsame := DecodeSession.logLikelihood_none (DecodeSession.score_logLikelihood hsession)
  refine h.of_idle ?_ ?_ rfl rfl (fun hit => ?_) h.fresh (fun hpc' hinit hfin => ?_)
  · refine not_reading_of_pc ?_ ?_ <;> simp [hpc]
  · refine not_reading_of_pc ?_ ?_ <;> simp [hpc]
  · exact absurd (hpc.symm.trans hit) (by decide)
  · exact h.more hpc' hinit (hsame ▸ hfin)

theorem Expected.compute (h : s.Expected length) (hs : s.compute = some t) :
    t.Expected length := by
  obtain ⟨⟨hpc, -⟩, hcases⟩ := compute_cases hs
  have hidle : ¬ s.Reading := not_reading_of_pc (by simp [hpc]) (by simp [hpc])
  rcases hcases with rfl | ⟨hinit, hfin, rfl⟩ | ⟨hinit, rfl⟩
  · refine h.of_idle hidle (not_reading_of_pc (by simp) (by simp)) rfl rfl ?_ ?_ ?_ <;> simp
  · refine h.of_idle hidle (not_reading_of_pc (by simp) (by simp)) rfl rfl
      (fun _ => ⟨h.more (Or.inl hpc) hinit hfin, hinit⟩) ?_ ?_ <;> simp
  · obtain ⟨hr, hw⟩ := h.idle hidle
    refine ⟨fun _ => Or.inl ⟨?_, hw, h.fresh (Or.inl hpc) hinit⟩, ?_, fun hno => ?_, ?_, ?_,
      ?_, ?_⟩
    · rw [requests_send_request]
      exact congrArg (· ++ _) hr
    · rintro ⟨active, hpc'⟩
      cases hpc'
    · exact absurd (Or.inl rfl) hno
    · intro hpc'
      cases hpc'
    · rintro (hpc' | ⟨active, hpc'⟩) <;> cases hpc'
    · rintro (hpc' | hpc') <;> cases hpc'
    · rintro (hpc' | hpc') <;> cases hpc'

theorem Expected.vad (h : s.Expected length) {speech : Bool} (hs : s.vad speech = some t) :
    t.Expected length := by
  obtain ⟨hpc, n, -, rfl⟩ := vad_cases hs
  obtain ⟨hr, hw⟩ := h.idle (not_reading_of_pc (by simp [hpc]) (by simp [hpc]))
  refine ⟨?_, fun _ => Or.inl ⟨?_, hw, h.iterating hpc⟩, fun hno => ?_, ?_,
    fun _ => h.init (Or.inl hpc), ?_, ?_⟩
  · intro hpc'
    cases hpc'
  · rw [requests_send_request]
    exact congrArg (· ++ _) hr
  · exact absurd (Or.inr ⟨_, rfl⟩) hno
  · intro hpc'
    cases hpc'
  · rintro (hpc' | hpc') <;> cases hpc'
  · rintro (hpc' | hpc') <;> cases hpc'

theorem Expected.output (h : s.Expected length) {success : Bool}
    (hs : s.output success = some t) : t.Expected length := by
  obtain ⟨hpc, hcases⟩ := output_cases hs
  have hidle : ¬ s.Reading := not_reading_of_pc (by simp [hpc]) (by simp [hpc])
  rcases hcases with ⟨-, rfl⟩ | ⟨-, pc, piece, e, hpc', rfl⟩
  · refine h.of_idle hidle (not_reading_of_pc (by simp) (by simp)) rfl rfl (fun hpc' => ?_)
      (fun _ => h.fresh (Or.inr hpc)) (fun _ => h.more (Or.inr hpc))
    cases hpc'
  · refine h.of_idle hidle ?_ (requests_send_output _ e) rfl (fun hit => ?_)
      (fun _ => h.fresh (Or.inr hpc)) (fun _ => h.more (Or.inr hpc))
    · refine not_reading_of_pc ?_ ?_ <;> rcases hpc' with rfl | rfl <;> simp [send]
    · rcases hpc' with rfl | rfl <;> cases hit

/-- A block has been received: the last one was short, or the client goes on. -/
theorem Expected.receive (h : s.Expected length) (hs : s.receive rightContext = some t) :
    t.Expected length := by
  obtain ⟨n, rest, hpackets, hcases⟩ := receive_cases hs
  rcases hcases with ⟨hpc, rfl⟩ | ⟨hpc, hn, rfl⟩ | ⟨hpc, rfl⟩
  · rcases h.filling hpc with ⟨-, hw, -⟩ | ⟨hr, hw, hgrid⟩
    · rw [hw] at hpackets
      cases hpackets
    · rw [hw] at hpackets
      injection hpackets with _ hrest
      refine ⟨?_, ?_, fun _ => ⟨hr, hrest.symm⟩, fun _ => hgrid, fun _ => rfl, ?_, ?_⟩ <;> simp
  · rcases h.readingBack hpc with ⟨-, hw, -⟩ | ⟨m, hr, hw, hgrid⟩
    · rw [hw] at hpackets
      cases hpackets
    · rw [hw] at hpackets
      injection hpackets with hm hrest
      refine ⟨?_, ?_, fun _ => ⟨hr, hrest.symm⟩, fun _ => hgrid (hm.trans hn),
        fun _ => h.init (Or.inr hpc), ?_, ?_⟩ <;> simp
  · have hidle : rest = [] ∧ s.requests = [] ∧ (n = samplesReq → OnGrid length s.pos) := by
      rcases h.readingBack hpc with ⟨-, hw, -⟩ | ⟨m, hr, hw, hgrid⟩
      · rw [hw] at hpackets
        cases hpackets
      · rw [hw] at hpackets
        injection hpackets with hm hrest
        exact ⟨hrest.symm, hr, fun hn => hgrid (hm.trans hn)⟩
    obtain ⟨rfl, hr, hgrid⟩ := hidle
    rcases computed_cases (s := { s with toServer := [] }) (n == samplesReq) with
      ht | ⟨session, hsession, ht⟩
    · rw [ht]
      refine ⟨?_, ?_, fun _ => ⟨hr, rfl⟩, ?_, ?_, ?_, ?_⟩ <;> simp
    · rw [ht]
      have hload :=
        DecodeSession.logLikelihood_some (DecodeSession.score_logLikelihood hsession)
      have hinit := h.init (Or.inr hpc)
      have hpc' : ∀ pc, (if session.pc == .outside then ServerPc.returned else .decoding) = pc →
          pc = .returned ∨ pc = .decoding := by
        intro pc hpc'
        split at hpc'
        · exact Or.inl hpc'.symm
        · exact Or.inr hpc'.symm
      refine ⟨fun hfill => ?_, ?_, fun _ => ⟨hr, rfl⟩, fun hit => ?_, fun _ => hinit,
        fun _ hno => ?_, fun _ _ hfin => hgrid ?_⟩
      · cases hpc' _ hfill <;> contradiction
      · rintro ⟨active, hback⟩
        cases hpc' _ hback <;> contradiction
      · cases hpc' _ hit <;> contradiction
      · exact absurd (hno.symm.trans hinit) (by decide)
      · have hmore := hload.2.2.symm.trans hfin
        rwa [Bool.not_eq_false', beq_iff_eq] at hmore

theorem expected_of_reachable (hlong : bufferLength < length)
    (hgrid : ¬ samplesReq ∣ length - bufferLength)
    (h : (system length rightContext).Reachable s) : s.Expected length := by
  refine h.invariant (Expected length) ?_ ?_
  · refine ⟨?_, ?_, fun _ => ⟨rfl, rfl⟩, ?_, ?_, fun _ _ => rfl, ?_⟩ <;>
      simp [system, create]
  intro s l t hinv hs
  cases l with
  | client => exact hinv.client hlong hgrid hs
  | call => exact hinv.call hs
  | score asked => exact hinv.score hs
  | compute => exact hinv.compute hs
  | vad speech => exact hinv.vad hs
  | receive => exact hinv.receive hs
  | finish => exact hinv.finish hs
  | output success => exact hinv.output hs

/-- A client in its loop gets to a request that is on its way, and answers it. -/
theorem request_served (hin : s.Inside length) (hne : s.requests ≠ []) :
    ∃ t, (system length rightContext).LeadsBy .client s t ∧ t.toServer ≠ [] := by
  induction hpackets : s.toClient generalizing s with
  | nil => exact absurd (by simp [requests, hpackets]) hne
  | cons p rest ih =>
      cases p with
      | dataWaveRequest n =>
          have hs : (system length rightContext).step s .client = some { s with
              toClient := rest
              toServer := s.toServer ++ [min (length - s.pos) n]
              pos := s.pos + n } := by
            simp [system, step, client, hin, hpackets]
          exact ⟨_, .head hs (.refl _ _), by simp⟩
      | decodeOutput e =>
          have hs : (system length rightContext).step s .client =
              some { s with toClient := rest } := by
            simp [system, step, client, hin, hpackets]
          have hrest := requests_output hpackets
          obtain ⟨t, hlead, ht⟩ := ih (s := { s with toClient := rest }) hin
            (by rwa [hrest]) rfl
          exact ⟨t, hlead.head hs, ht⟩

end Step

/-! ## Requests without an answer -/

/-- The next request after full blocks of silence. -/
theorem reachable_asked {length rightContext k : Nat} (hpos : 0 < length)
    (hk : k * samplesReq + bufferLength ≤ length ∨ k = 0) :
    (system length rightContext).Reachable
      ({ listening (bufferLength + k * samplesReq) with pc := .readingBack false }.send
        (.dataWaveRequest samplesReq)) := by
  have hblocks : (system length rightContext).Leads (listening bufferLength)
      (listening (bufferLength + k * samplesReq)) := by
    rcases hk with hk | rfl
    · exact listening_blocks _ k (by omega)
    · rw [Nat.zero_mul, Nat.add_zero]
      exact .refl _
  have hask : (system length rightContext).Leads (listening (bufferLength + k * samplesReq))
      ({ listening (bufferLength + k * samplesReq) with pc := .readingBack false }.send
        (.dataWaveRequest samplesReq)) := by
    refine ⟨[.vad false], ?_⟩
    simp [Transition.System.runFrom, system, step, vad, send, listening, create,
      OnlineVadFeInput.notify]
  have hstart : (system length rightContext).Reachable create :=
    Transition.System.ReachableVia.init
  exact ((hstart.leads (listening_of_pos hpos)).leads hblocks).leads hask

/-- **Every request is answered** by exactly one block, from a client that is still in
its loop, if and only if the wave is longer than the initial buffer and does not end
with a full block. -/
theorem requests_answered_iff (length rightContext : Nat) :
    (∀ s, (system length rightContext).Reachable s → s.Answered length ∧
        (s.requests ≠ [] →
          ∃ t, (system length rightContext).LeadsBy .client s t ∧ t.toServer ≠ [])) ↔
      bufferLength < length ∧ ¬ samplesReq ∣ length - bufferLength := by
  constructor
  · intro hboth
    have hall : ∀ s, (system length rightContext).Reachable s → s.Answered length :=
      fun s hs => (hboth s hs).1
    by_contra hcond
    have hpos : 0 < length := by
      by_contra hzero
      obtain rfl : length = 0 := by omega
      have hrun : (system 0 rightContext).runFrom create [.call, .compute] =
          some ({ create with
            pc := .fillingBuffer
            session := { DecodeSession.create with
              decoder := OnlineFasterDecoder.create.start
              pc := .loop 0 } }.send (.dataWaveRequest bufferLength)) := by
        simp [Transition.System.runFrom]
        rfl
      have hbad := hall _ (Transition.System.reachable_of_run hrun)
      exact absurd (hbad.inside (by decide)) (by decide)
    obtain ⟨k, hk, hgone⟩ : ∃ k, (k * samplesReq + bufferLength ≤ length ∨ k = 0) ∧
        length ≤ bufferLength + k * samplesReq := by
      by_cases hlong : bufferLength < length
      · obtain ⟨k, hk⟩ : samplesReq ∣ length - bufferLength := by
          by_contra hno
          exact hcond ⟨hlong, hno⟩
        rw [Nat.mul_comm] at hk
        exact ⟨k, Or.inl (by omega), by omega⟩
      · exact ⟨0, Or.inr rfl, by omega⟩
    have hbad := (hall _ (reachable_asked hpos hk)).inside (by simp)
    have hin : bufferLength + k * samplesReq < length := hbad
    omega
  · rintro ⟨hlong, hgrid⟩ s hs
    have hanswered := (expected_of_reachable hlong hgrid hs).answered (by omega)
    exact ⟨hanswered, fun hne => request_served (hanswered.inside hne) hne⟩

/-- A wave of a hundred samples: the second request has no answer. -/
theorem request_unanswered :
    ¬ ∀ length s, (system length 3).Reachable s → s.Answered length := by
  intro hall
  have hbad := (hall 100 _ (reachable_asked (k := 0) (by decide) (Or.inr rfl))).inside
    (by decide)
  exact absurd hbad (by decide)

end Exchange

end ThreadedServer
