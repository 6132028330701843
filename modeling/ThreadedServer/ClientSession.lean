import ThreadedServer.WorkSession

/-!
# One client of the server

A session reaches the end of the process in three ways: a `recv` or a `send` fails on a
connection that the client has closed; a header is not the one that `Work` or `Read`
expects; or the decoder fails an assertion or throws an exception over the audio that it
was given.  Which audio that is depends on the models and on most of the decoder, and is
a parameter here: `decodes` is true of the payloads with which the decoder gets through,
whatever it has decoded before.
-/

namespace ThreadedServer

namespace WorkSession

/-- A header that the server expects. -/
def Expected (target : Target) (h : PacketHeader) : Prop :=
  match target with
  | .requestHeader => h.type = PacketType.decodeRequest.code ∧ h.payloadLength ≤ 1
  | .waveHeader => h.type = PacketType.dataWave.code → 0 ≤ h.payloadLength ∧ 4 ∣ h.payloadLength
  | .answerHeader n => h.type = PacketType.dataWave.code ∧ h.payloadLength ≤ 4 * n
  | _ => True

instance (target : Target) (h : PacketHeader) : Decidable (Expected target h) :=
  match target with
  | .requestHeader | .answerHeader _ => inferInstanceAs (Decidable (_ ∧ _))
  | .waveHeader => inferInstanceAs (Decidable (_ → _ ∧ _))
  | .request | .wave | .answer _ => inferInstanceAs (Decidable True)

theorem running_receivePayload {s : WorkSession} {target : Target} {length capacity : Int} :
    (s.receivePayload target length capacity).Running ↔ length ≤ capacity := by
  simp only [Running, receivePayload]
  by_cases hlong : capacity < length
  · simp [hlong]
  · simp only [hlong, if_false]
    simp
    omega

theorem running_afterReceive {s : WorkSession} {target : Target} {bytes : List Byte}
    {garbage : Bool} :
    (s.afterReceive target bytes garbage).Running ↔
      Expected target (PacketHeader.ofBytes bytes) := by
  obtain ⟨hlo, hhi⟩ := header_range bytes
  cases target with
  | requestHeader =>
      simp only [afterReceive, Expected]
      split
      case isTrue hwrong => simp [Running, hwrong]
      case isFalse hright =>
        rw [running_receivePayload, sizeofDecodeRequest]
        simp only [ne_eq, Decidable.not_not] at hright
        simp [hright]
  | request =>
      simp only [afterReceive, Expected, Running]
      simp
  | waveHeader =>
      simp only [afterReceive, Expected, waveDim, payloadSamples_eq hlo hhi]
      split
      case isTrue hright =>
        split
        case isTrue hneg =>
          simp only [Running, ne_eq, not_true_eq_false, false_and, hright, forall_const, false_iff]
          omega
        case isFalse hpos =>
          rw [running_receivePayload, sizeofFloat]
          simp only [hright, forall_const]
          omega
      case isFalse hwrong => simp [Running, hwrong]
  | wave => simp [afterReceive, Expected, Running]
  | answerHeader n =>
      simp only [afterReceive, Expected]
      split
      case isTrue hwrong => simp [Running, hwrong]
      case isFalse hright =>
        rw [running_receivePayload, sizeofFloat]
        simp only [ne_eq, Decidable.not_not] at hright
        simp only [hright, true_and]
        omega
  | answer n => simp [afterReceive, Expected, Running]

/-- A session runs on after any step but the failures, if a header is expected. -/
theorem running_step {s t : WorkSession} {l : WorkLabel} (h : Tracked s) (hrun : s.Running)
    (hl : ¬ Fatal l) (hs : s.step l = some t)
    (hheader : ∀ garbage target r, l = .received garbage → s.pc = .receiving target r →
      Expected target (PacketHeader.ofBytes r.received)) : t.Running := by
  cases move_of_step hs with
  | client _ _ hpc _ => rwa [Running, hpc]
  | recv k _ _ hpc' _ => simp [Running, hpc']
  | @received garbage target r hpc _ =>
      exact running_afterReceive.mpr (hheader garbage target r rfl hpc)
  | @send left next hpc =>
      have hnext := h.next _ _ hpc
      by_cases hlast : left = 0
      · simp only [Running, hlast, if_true]
        exact ⟨fun h' => by rw [h'] at hnext; exact hnext, hnext.ne_undefined⟩
      · simp [Running, hlast]
  | start _ _ _ _ => simp [Running]
  | fatal hl' _ => exact absurd hl' hl

/-- The decoder has work to do, now or when a packet has been sent. -/
def AtDecoder : WorkPc → Prop
  | .online | .decoding | .sending _ .online => True
  | _ => False

/-- What has been received makes the decoder begin or go on. -/
def Feeds (target : Target) (bytes : List Byte) (garbage : Bool) : Prop :=
  match target with
  | .request => onlineMode bytes garbage = true
  | .wave | .answer _ => True
  | _ => False

instance (target : Target) (bytes : List Byte) (garbage : Bool) :
    Decidable (Feeds target bytes garbage) :=
  match target with
  | .request => inferInstanceAs (Decidable (_ = true))
  | .wave | .answer _ => inferInstanceAs (Decidable True)
  | .requestHeader | .waveHeader | .answerHeader _ => inferInstanceAs (Decidable False)

theorem feeds_of_atDecoder {s : WorkSession} {target : Target} {bytes : List Byte}
    {garbage : Bool} (h : AtDecoder (s.afterReceive target bytes garbage).pc) :
    Feeds target bytes garbage := by
  cases target with
  | request =>
      simp only [afterReceive] at h
      split at h
      case isTrue honline => exact honline
      case isFalse => exact h.elim
  | wave | answer n => trivial
  | requestHeader | waveHeader | answerHeader n =>
      simp only [afterReceive, receivePayload] at h
      split_ifs at h <;> exact h.elim

end WorkSession

/-- What a call of `Receive` fills with a payload. -/
def Target.isPayload : Target → Bool
  | .request | .wave | .answer _ => true
  | .requestHeader | .waveHeader | .answerHeader _ => false

/-- The session of a client; `heard` are the payloads that `Work` has received from it, the
last first. -/
structure ClientSession where
  work : WorkSession
  heard : List (List Byte)
  deriving DecidableEq, Repr

namespace ClientSession

open WorkSession

def create : ClientSession where
  work := .create
  heard := []

/-- The step is one of the client, not of `Work`. -/
def byClient : WorkLabel → Bool
  | .clientSends _ | .clientCloses => true
  | _ => false

/-- The payloads received when the step is over. -/
def heardAfter (c : ClientSession) (l : WorkLabel) : List (List Byte) :=
  match l, c.work.pc with
  | .received _, .receiving target r =>
      if target.isPayload then r.received :: c.heard else c.heard
  | _, _ => c.heard

section Decoder

variable (decodes : List (List Byte) → Bool)

/-- A step of the session.  The decoder fails only over what it does not decode. -/
def step (c : ClientSession) (l : WorkLabel) : Option ClientSession :=
  if l = .fails ∧ decodes c.heard = true then none
  else (c.work.step l).map fun work => { work, heard := c.heardAfter l }

def system : Transition.System ClientSession WorkLabel where
  init := create
  step := step decodes

/-- What the server counts on: no `recv` and no `send` fails, a header is as expected, and
the decoder gets through what it is given. -/
def Orderly (c : ClientSession) (l : WorkLabel) : Prop :=
  match l with
  | .recvFails | .sendFails => False
  | .received garbage =>
      match c.work.pc with
      | .receiving target r =>
          Expected target (PacketHeader.ofBytes r.received) ∧
            (Feeds target r.received garbage → decodes (r.received :: c.heard) = true)
      | _ => True
  | _ => True

instance (c : ClientSession) (l : WorkLabel) : Decidable (Orderly decodes c l) :=
  match l with
  | .recvFails | .sendFails => inferInstanceAs (Decidable False)
  | .received garbage => by
      unfold Orderly
      cases c.work.pc <;> infer_instance
  | .clientSends _ | .clientCloses | .recv _ | .send | .read _ | .output _ | .decoded
  | .fails => inferInstanceAs (Decidable True)

/-- The session runs, and the decoder gets through what it has been given. -/
structure Sound (c : ClientSession) : Prop where
  tracked : c.work.Tracked
  running : c.work.Running
  decoder : AtDecoder c.work.pc → decodes c.heard = true

theorem sound_create : Sound decodes create where
  tracked := tracked_create
  running := by simp [Running, create, WorkSession.create]
  decoder h := h.elim

end Decoder

variable {decodes : List (List Byte) → Bool} {c c' : ClientSession} {l : WorkLabel}

theorem step_cases (h : c.step decodes l = some c') :
    (l = .fails → decodes c.heard = false) ∧
      ∃ work, c.work.step l = some work ∧ c' = { work, heard := c.heardAfter l } := by
  obtain ⟨hfails, h⟩ := Option.ite_none_left_eq_some.mp h
  obtain ⟨work, hwork, rfl⟩ := Option.map_eq_some_iff.mp h
  exact ⟨fun hl => by simpa [hl] using hfails, work, hwork, rfl⟩

/-- A step that starts sending leaves the decoder where it was. -/
theorem atDecoder_of_start {s t : WorkSession} (hs : s.step l = some t)
    (hl : ¬ Fatal l) (hclient : byClient l = false) (hrecv : ∀ k, l ≠ .recv k)
    (hreceived : ∀ garbage, l ≠ .received garbage) (htracked : s.Tracked)
    (h : AtDecoder t.pc) : AtDecoder s.pc := by
  cases l with
  | clientSends bytes | clientCloses => cases hclient
  | recv k => exact absurd rfl (hrecv k)
  | received garbage => exact absurd rfl (hreceived garbage)
  | recvFails | sendFails | fails => exact absurd trivial hl
  | send =>
      simp only [WorkSession.step] at hs
      split at hs
      case h_2 => cases hs
      case h_1 left next hpc =>
        obtain rfl := Option.some.inj hs
        have hnext := htracked.next _ _ hpc
        have honline : next = .online := by
          dsimp only at h
          split at h <;> cases next <;> simp_all [AtDecoder, AfterSend]
        rw [hpc, honline]
        trivial
  | read n | output endFeats =>
      obtain ⟨hpc, -⟩ := Option.ite_none_right_eq_some.mp hs
      rw [hpc]
      trivial
  | decoded =>
      obtain ⟨hpc, -⟩ := Option.ite_none_right_eq_some.mp hs
      rw [hpc]
      trivial

/-- **One step.**  A session that the server can count on stays one. -/
theorem Sound.step (h : Sound decodes c) (hok : Orderly decodes c l)
    (hs : c.step decodes l = some c') : Sound decodes c' := by
  obtain ⟨hfails, work, hwork, rfl⟩ := step_cases hs
  have hl : ¬ Fatal l := by
    cases l with
    | recvFails | sendFails => exact hok.elim
    | fails =>
        obtain ⟨hpc, -⟩ := Option.ite_none_right_eq_some.mp hwork
        have hdecodes := h.decoder (by rcases hpc with hpc | hpc <;> rw [hpc] <;> trivial)
        rw [hfails rfl] at hdecodes
        cases hdecodes
    | _ => exact id
  refine ⟨h.tracked.step hwork, running_step h.tracked h.running hl hwork ?_, fun hat => ?_⟩
  · rintro garbage target r rfl hpc
    simp only [Orderly, hpc] at hok
    exact hok.1
  · cases l with
    | received garbage =>
        simp only [WorkSession.step] at hwork
        split at hwork
        case h_2 => cases hwork
        case h_1 target r hpc =>
          obtain ⟨-, hwork⟩ := Option.ite_none_left_eq_some.mp hwork
          obtain rfl := Option.some.inj hwork
          have hfeeds := feeds_of_atDecoder hat
          have hpayload : target.isPayload = true := by
            cases target <;> first | rfl | exact hfeeds.elim
          simp only [Orderly, hpc] at hok
          simp only [heardAfter, hpc, hpayload, if_true]
          exact hok.2 hfeeds
    | clientSends bytes | clientCloses =>
        obtain ⟨-, hwork⟩ := Option.ite_none_left_eq_some.mp hwork
        obtain rfl := Option.some.inj hwork
        exact h.decoder hat
    | recv k =>
        simp only [WorkSession.step] at hwork
        split at hwork
        case h_2 => cases hwork
        case h_1 =>
          obtain ⟨r', -, rfl⟩ := Option.map_eq_some_iff.mp hwork
          exact hat.elim
    | _ =>
        exact h.decoder (atDecoder_of_start hwork hl rfl (by simp) (by simp) h.tracked hat)

/-- The session has come to the end of the process. -/
def Ended (decodes : List (List Byte) → Bool) (c : ClientSession) : Prop :=
  ∃ es c', (∀ e ∈ es, byClient e = false) ∧ (system decodes).runFrom c es = some c' ∧
    ¬ c'.work.Running

theorem Ended.now (h : ¬ c.work.Running) : Ended decodes c :=
  ⟨[], c, by simp, rfl, h⟩

theorem Ended.head (hs : c.step decodes l = some c') (hl : byClient l = false)
    (h : Ended decodes c') : Ended decodes c := by
  obtain ⟨es, d, hes, hrun, hd⟩ := h
  refine ⟨l :: es, d, ?_, Option.bind_eq_some_iff.mpr ⟨c', hs, hrun⟩, hd⟩
  rintro e (_ | ⟨_, he⟩)
  · exact hl
  · exact hes e he

/-- A decoder that does not get through what it has been given may fail. -/
theorem ended_at_decoder (hpc : c.work.pc = .online ∨ c.work.pc = .decoding)
    (hdecodes : decodes c.heard = false) : Ended decodes c := by
  have hfails : c.work.step .fails = some { c.work with pc := .exited } := if_pos hpc
  have hstep : c.step decodes .fails = some { c with work := { c.work with pc := .exited } } := by
    rw [step, if_neg (by simp [hdecodes]), hfails]
    rfl
  exact Ended.head hstep rfl (Ended.now (by simp [Running]))

/-- The response is sent first. -/
theorem ended_after_send {left : Nat} (hpc : c.work.pc = .sending left .online)
    (hleft : 0 < left) (hdecodes : decodes c.heard = false) : Ended decodes c := by
  induction left generalizing c with
  | zero => exact absurd hleft (lt_irrefl 0)
  | succ left ih =>
      have hsend : c.work.step .send = some { c.work with
          pc := if left = 0 then .online else .sending left .online } := by
        simp only [WorkSession.step, hpc]
      have hstep : c.step decodes .send = some { c with work := { c.work with
          pc := if left = 0 then .online else .sending left .online } } := by
        rw [step, if_neg (by simp), hsend]
        rfl
      refine Ended.head hstep rfl ?_
      by_cases hlast : left = 0
      · exact ended_at_decoder (Or.inl (if_pos hlast)) hdecodes
      · exact ih (if_neg hlast) (by omega) hdecodes

/-- Any other step leads to the end of the process. -/
theorem ended_of_not_orderly (hok : ¬ Orderly decodes c l) (hs : c.step decodes l = some c') :
    Ended decodes c' := by
  obtain ⟨-, work, hwork, rfl⟩ := step_cases hs
  cases l with
  | recvFails | sendFails =>
      cases move_of_step hwork with
      | client hl | start hl => exact absurd trivial hl
      | fatal => exact Ended.now (by simp [Running])
  | received garbage =>
      simp only [WorkSession.step] at hwork
      split at hwork
      case h_2 => cases hwork
      case h_1 target r hpc =>
        obtain ⟨-, hwork⟩ := Option.ite_none_left_eq_some.mp hwork
        obtain rfl := Option.some.inj hwork
        simp only [Orderly, hpc, not_and, Classical.not_imp, Bool.not_eq_true] at hok
        by_cases hexpected : Expected target (PacketHeader.ofBytes r.received)
        · obtain ⟨hfeeds, hdecodes⟩ := hok hexpected
          have hheard : target.isPayload = true →
              c.heardAfter (.received garbage) = r.received :: c.heard := by
            intro hpayload
            simp only [heardAfter, hpc, hpayload, if_true]
          cases target with
          | requestHeader | waveHeader | answerHeader n => exact hfeeds.elim
          | request =>
              have honline : onlineMode r.received garbage = true := hfeeds
              have hpc' : (c.work.afterReceive .request r.received garbage).pc =
                  .sending 2 .online := by
                simp [afterReceive, honline]
              exact ended_after_send hpc' Nat.two_pos (by rwa [hheard rfl])
          | wave => exact ended_at_decoder (Or.inr rfl) (by rwa [hheard rfl])
          | answer n => exact ended_at_decoder (Or.inl rfl) (by rwa [hheard rfl])
        · exact Ended.now (mt running_afterReceive.mp hexpected)
  | _ => exact absurd trivial hok

end ClientSession

end ThreadedServer
