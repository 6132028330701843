import ThreadedServer.AudioTransfer

/-!
# What `Work` receives from a client

`DecodeWorker::Work` handles one connection: it receives a `DECODE_REQUEST`, accepts
it, and either decodes online, where `RemoteAudioSource::Read` asks for audio again
and again, or receives a whole wave and decodes that.  Each of the three payloads is
received with the length that the client has put into the header, into memory whose
size does not come from that header alone: the struct `DecodeRequest`, the wave
resized to a number of whole samples, the `data` that `Read` was called with.

The client is the environment.  It may send any bytes at any time and may close its
connection; what has been sent is received in pieces, and a `recv` or `send` on a
connection that the client has closed may fail.  What the decoder does between two
calls of `Read` is up to the run as well.
-/

namespace ThreadedServer

/-- What a call of `Receive` is for. -/
inductive Target
  /-- the header that `Work` receives first -/
  | requestHeader
  /-- `req` -/
  | request
  /-- the header of the wave, in file mode -/
  | waveHeader
  /-- `wave.Data()` -/
  | wave
  /-- the header in `Read`, called with `data->Dim() = n` -/
  | answerHeader (n : Nat)
  /-- `data->Data()` -/
  | answer (n : Nat)
  deriving DecidableEq, Repr

/-- Control points of `Work`. -/
inductive WorkPc
  | receiving (target : Target) (r : Receiving)
  /-- so many calls of `Send` still to go -/
  | sending (left : Nat) (next : WorkPc)
  /-- in `OnlineDecode`, outside `Read` and `SendOutput` -/
  | online
  /-- feature extraction and `Decode`, in file mode -/
  | decoding
  | returned
  /-- the process has ended: `exit(1)`, a failed assertion or an exception -/
  | exited
  /-- bytes are received beyond the end of their memory -/
  | undefined
  deriving DecidableEq, Repr

/-- A payload that `Receive` was called for. -/
structure PayloadReceive where
  target : Target
  /-- `header.payload_length` -/
  length : Int
  /-- the bytes of the destination -/
  capacity : Int
  deriving DecidableEq, Repr

/-- The connection of a client and the thread that serves it.  `receives` are the
payloads received so far, the last first. -/
structure WorkSession where
  toServer : List Byte
  closed : Bool
  pc : WorkPc
  receives : List PayloadReceive
  deriving DecidableEq, Repr

inductive WorkLabel
  | clientSends (bytes : List Byte)
  | clientCloses
  /-- `recv` returns, with at most `k` bytes -/
  | recv (k : Nat)
  /-- `recv` returns less than 1 -/
  | recvFails
  /-- `Receive` returns; `garbage` is what `req` held before -/
  | received (garbage : Bool)
  | send
  /-- `send` does not return `length` -/
  | sendFails
  /-- the decoder calls `Read` -/
  | read (n : Nat)
  /-- `OnlineDecode` sends a result, of the last features perhaps -/
  | output (endFeats : Bool)
  /-- the wave has been decoded -/
  | decoded
  /-- an assertion fails or an exception is thrown while decoding -/
  | fails
  deriving DecidableEq, Repr

namespace WorkSession

def create : WorkSession where
  toServer := []
  closed := false
  pc := .receiving .requestHeader (.start PacketHeader.size)
  receives := []

/-- `sizeof(DecodeRequest)` -/
def sizeofDecodeRequest : Nat := 1

/-- `req.online_mode`, if it has been received. -/
def onlineMode (bytes : List Byte) (garbage : Bool) : Bool :=
  match bytes with
  | [] => garbage
  | b :: _ => b ≠ 0

/-- `wave.Resize(header.payload_length / sizeof(float))`: the dimension. -/
def waveDim (payloadLength : Int) : Int := payloadSamples payloadLength

/-- `Receive` is called for a payload. -/
def receivePayload (s : WorkSession) (target : Target) (length capacity : Int) : WorkSession :=
  { s with
    pc := if capacity < length then .undefined else .receiving target (.start length)
    receives := ⟨target, length, capacity⟩ :: s.receives }

/-- What follows when `Receive` has returned with `bytes`. -/
def afterReceive (s : WorkSession) (target : Target) (bytes : List Byte) (garbage : Bool) :
    WorkSession :=
  let header := PacketHeader.ofBytes bytes
  match target with
  | .requestHeader =>
      if header.type ≠ PacketType.decodeRequest.code then { s with pc := .exited }
      else s.receivePayload .request header.payloadLength sizeofDecodeRequest
  | .request =>
      -- the response: header and payload
      { s with pc := .sending 2 (if onlineMode bytes garbage then .online
          else .receiving .waveHeader (.start PacketHeader.size)) }
  | .waveHeader =>
      if header.type = PacketType.dataWave.code then
        -- the wave cannot be resized to less than nothing
        if waveDim header.payloadLength < 0 then { s with pc := .exited }
        else s.receivePayload .wave header.payloadLength
          (waveDim header.payloadLength * sizeofFloat)
      -- `DATA_FEATURE`, or an invalid request
      else { s with pc := .returned }
  | .wave => { s with pc := .decoding }
  | .answerHeader n =>
      if header.type ≠ PacketType.dataWave.code then { s with pc := .exited }
      else s.receivePayload (.answer n) header.payloadLength (n * sizeofFloat : Nat)
  | .answer _ => { s with pc := .online }

/-- A step of the client, of the connection or of `Work`. -/
def step (s : WorkSession) : WorkLabel → Option WorkSession
  | .clientSends bytes =>
      if s.closed then none else some { s with toServer := s.toServer ++ bytes }
  | .clientCloses => if s.closed then none else some { s with closed := true }
  | .recv k =>
      match s.pc with
      | .receiving target r => (r.recv (s.toServer.take k)).map fun r' =>
          { s with toServer := s.toServer.drop k, pc := .receiving target r' }
      | _ => none
  | .recvFails =>
      match s.pc with
      | .receiving _ r =>
          if s.closed ∧ r.Waiting then some { s with pc := .exited } else none
      | _ => none
  | .received garbage =>
      match s.pc with
      | .receiving target r =>
          if r.Waiting then none else some (s.afterReceive target r.received garbage)
      | _ => none
  | .send =>
      match s.pc with
      | .sending (left + 1) next =>
          some { s with pc := if left = 0 then next else .sending left next }
      | _ => none
  | .sendFails =>
      match s.pc with
      | .sending (_ + 1) _ => if s.closed then some { s with pc := .exited } else none
      | _ => none
  | .read n =>
      if s.pc = .online then
        -- the request: header and payload
        some { s with pc := .sending 2 (.receiving (.answerHeader n) (.start PacketHeader.size)) }
      else none
  | .output endFeats =>
      if s.pc = .online then
        some { s with pc := .sending 3 (if endFeats then .returned else .online) }
      else none
  | .decoded =>
      if s.pc = .decoding then some { s with pc := .sending 3 .returned } else none
  | .fails =>
      if s.pc = .online ∨ s.pc = .decoding then some { s with pc := .exited } else none

def system : Transition.System WorkSession WorkLabel where
  init := create
  step := step

/-! ## What a step can do -/

/-- The steps at which the connection or the decoder fails. -/
def Fatal : WorkLabel → Prop
  | .recvFails | .sendFails | .fails => True
  | _ => False

instance : DecidablePred Fatal
  | .recvFails | .sendFails | .fails => inferInstanceAs (Decidable True)
  | .clientSends _ | .clientCloses | .recv _ | .received _ | .send | .read _ | .output _
  | .decoded => inferInstanceAs (Decidable False)

/-- The thread still runs, and its memory is intact. -/
def Running (s : WorkSession) : Prop := s.pc ≠ .exited ∧ s.pc ≠ .undefined

instance (s : WorkSession) : Decidable s.Running := inferInstanceAs (Decidable (_ ∧ _))

/-- What the thread goes on with when it has sent something. -/
def AfterSend : WorkPc → Prop
  | .online | .returned => True
  | .receiving target _ => target = .waveHeader ∨ ∃ n, target = .answerHeader n
  | _ => False

/-- The kinds of steps. -/
inductive Move (s : WorkSession) : WorkLabel → WorkSession → Prop
  | client {l : WorkLabel} {t : WorkSession} (hl : ¬ Fatal l) (hno : ∀ g, l ≠ .received g)
      (hpc : t.pc = s.pc) (hreceives : t.receives = s.receives) : Move s l t
  | recv (k : Nat) {target : Target} {r r' : Receiving} {t : WorkSession}
      (hpc : s.pc = .receiving target r) (hr : r.recv (s.toServer.take k) = some r')
      (hpc' : t.pc = .receiving target r') (hreceives : t.receives = s.receives) :
      Move s (.recv k) t
  | received (garbage : Bool) {target : Target} {r : Receiving}
      (hpc : s.pc = .receiving target r) (hdone : ¬ r.Waiting) :
      Move s (.received garbage) (s.afterReceive target r.received garbage)
  | send {left : Nat} {next : WorkPc} (hpc : s.pc = .sending (left + 1) next) :
      Move s .send { s with pc := if left = 0 then next else .sending left next }
  | start {l : WorkLabel} {left : Nat} {next : WorkPc} (hl : ¬ Fatal l)
      (hno : ∀ g, l ≠ .received g) (hrun : s.Running) (hnext : AfterSend next) :
      Move s l { s with pc := .sending left next }
  | fatal {l : WorkLabel} (hl : Fatal l) (hrun : s.Running) :
      Move s l { s with pc := .exited }

theorem move_of_step {s t : WorkSession} {l : WorkLabel} (h : s.step l = some t) :
    Move s l t := by
  cases l with
  | clientSends bytes =>
      obtain ⟨-, h⟩ := Option.ite_none_left_eq_some.mp h
      obtain rfl := Option.some.inj h
      exact .client id (by simp) rfl rfl
  | clientCloses =>
      obtain ⟨-, h⟩ := Option.ite_none_left_eq_some.mp h
      obtain rfl := Option.some.inj h
      exact .client id (by simp) rfl rfl
  | recv k =>
      simp only [step] at h
      split at h
      case h_1 target r hpc =>
        obtain ⟨r', hr, rfl⟩ := Option.map_eq_some_iff.mp h
        exact .recv k hpc hr rfl rfl
      case h_2 => cases h
  | recvFails =>
      simp only [step] at h
      split at h
      case h_1 target r hpc =>
        obtain ⟨-, h⟩ := Option.ite_none_right_eq_some.mp h
        obtain rfl := Option.some.inj h
        exact .fatal trivial (by simp [Running, hpc])
      case h_2 => cases h
  | received garbage =>
      simp only [step] at h
      split at h
      case h_1 target r hpc =>
        obtain ⟨hdone, h⟩ := Option.ite_none_left_eq_some.mp h
        obtain rfl := Option.some.inj h
        exact .received garbage hpc hdone
      case h_2 => cases h
  | send =>
      simp only [step] at h
      split at h
      case h_1 left next hpc =>
        obtain rfl := Option.some.inj h
        exact .send hpc
      case h_2 => cases h
  | sendFails =>
      simp only [step] at h
      split at h
      case h_1 left next hpc =>
        obtain ⟨-, h⟩ := Option.ite_none_right_eq_some.mp h
        obtain rfl := Option.some.inj h
        exact .fatal trivial (by simp [Running, hpc])
      case h_2 => cases h
  | read n =>
      obtain ⟨hpc, h⟩ := Option.ite_none_right_eq_some.mp h
      obtain rfl := Option.some.inj h
      exact .start id (by simp) (by simp [Running, hpc]) (Or.inr ⟨n, rfl⟩)
  | output endFeats =>
      obtain ⟨hpc, h⟩ := Option.ite_none_right_eq_some.mp h
      obtain rfl := Option.some.inj h
      exact .start id (by simp) (by simp [Running, hpc]) (by cases endFeats <;> trivial)
  | decoded =>
      obtain ⟨hpc, h⟩ := Option.ite_none_right_eq_some.mp h
      obtain rfl := Option.some.inj h
      exact .start id (by simp) (by simp [Running, hpc]) trivial
  | fails =>
      obtain ⟨hpc, h⟩ := Option.ite_none_right_eq_some.mp h
      obtain rfl := Option.some.inj h
      exact .fatal trivial (by rcases hpc with hpc | hpc <;> simp [Running, hpc])

/-! ## Payloads and their memory -/

/-- The payload stays within its memory, and `Read` returns no more than it was asked
for. -/
def Within (p : PayloadReceive) : Prop :=
  p.length ≤ p.capacity ∧
    ∀ n : Nat, p.target = .answer n → AudioTransfer.samplesReturned p.length ≤ n

/-- The length in the header suits the destination. -/
def Fits (target : Target) (payloadLength : Int) : Prop :=
  match target with
  | .request => payloadLength ≤ 1
  | .wave => payloadLength < 0 ∨ 4 ∣ payloadLength
  | .answer n => payloadLength ≤ 4 * n
  | _ => True

instance (target : Target) (payloadLength : Int) : Decidable (Fits target payloadLength) := by
  unfold Fits
  cases target <;> infer_instance

/-- What is known of a payload that is received. -/
def Recorded (p : PayloadReceive) : Prop :=
  -2 ^ 31 ≤ p.length ∧ p.length < 2 ^ 31 ∧
    match p.target with
    | .request => p.capacity = 1
    | .wave => 0 ≤ p.length ∧ p.capacity = p.length / 4 * 4
    | .answer n => p.capacity = 4 * n
    | _ => False

theorem Recorded.within_iff {p : PayloadReceive} (h : Recorded p) :
    Within p ↔ Fits p.target p.length := by
  obtain ⟨hlo, hhi, h⟩ := h
  rw [Within, AudioTransfer.samplesReturned, payloadSamples_eq hlo hhi]
  cases htarget : p.target with
  | request =>
      simp only [htarget] at h
      simp [Fits, h]
  | wave =>
      simp only [htarget] at h
      simp only [Fits, reduceCtorEq, false_implies, implies_true, and_true]
      omega
  | answer n =>
      simp only [htarget] at h
      simp only [Fits, Target.answer.injEq]
      constructor
      · rintro ⟨hle, -⟩
        omega
      · intro hle
        refine ⟨by omega, ?_⟩
        rintro m rfl
        omega
  | requestHeader => simp [htarget] at h
  | waveHeader => simp [htarget] at h
  | answerHeader n => simp [htarget] at h

/-- The payloads are recorded as they are received, and memory is overrun when one
of them is too long. -/
structure Tracked (s : WorkSession) : Prop where
  next : ∀ left next, s.pc = .sending left next → AfterSend next
  recorded : ∀ p ∈ s.receives, Recorded p
  overrun : s.pc = .undefined ↔ ∃ p ∈ s.receives, p.capacity < p.length

theorem tracked_create : Tracked create := by
  constructor <;> simp [create]

/-- A step that receives no payload. -/
theorem Tracked.same {s t : WorkSession} (h : Tracked s) (hrun : s.pc ≠ .undefined)
    (hrun' : t.pc ≠ .undefined) (hreceives : t.receives = s.receives)
    (hnext : ∀ left next, t.pc = .sending left next → AfterSend next) : Tracked t := by
  refine ⟨hnext, by rw [hreceives]; exact h.recorded, ?_⟩
  have hno := mt h.overrun.mpr hrun
  rw [hreceives]
  exact ⟨fun h' => absurd h' hrun', fun h' => absurd h' hno⟩

theorem Tracked.receivePayload {s : WorkSession} {target : Target} {length capacity : Int}
    (h : Tracked s) (hrun : s.pc ≠ .undefined) (hp : Recorded ⟨target, length, capacity⟩) :
    Tracked (s.receivePayload target length capacity) := by
  have hno := mt h.overrun.mpr hrun
  refine ⟨?_, ?_, ?_⟩
  · intro left next hpc
    simp only [WorkSession.receivePayload] at hpc
    split at hpc <;> cases hpc
  · intro p hmem
    rcases List.mem_cons.mp hmem with rfl | hmem
    · exact hp
    · exact h.recorded p hmem
  · simp only [WorkSession.receivePayload, List.mem_cons, exists_eq_or_imp]
    by_cases hlong : capacity < length
    · simp [hlong]
    · simp only [hlong, if_false, false_or]
      exact ⟨fun h' => by simp at h', fun h' => absurd h' hno⟩

theorem header_range (bytes : List Byte) :
    -2 ^ 31 ≤ (PacketHeader.ofBytes bytes).payloadLength ∧
      (PacketHeader.ofBytes bytes).payloadLength < 2 ^ 31 :=
  ⟨BitVec.le_toInt _, BitVec.toInt_lt⟩

theorem Tracked.afterReceive {s : WorkSession} {target : Target} {r : Receiving}
    (h : Tracked s) (hpc : s.pc = .receiving target r) (bytes : List Byte) (garbage : Bool) :
    Tracked (s.afterReceive target bytes garbage) := by
  have hrun : s.pc ≠ .undefined := by simp [hpc]
  obtain ⟨hlo, hhi⟩ := header_range bytes
  cases target with
  | requestHeader =>
      simp only [WorkSession.afterReceive]
      split
      · exact h.same hrun (by simp) rfl (by simp)
      · exact h.receivePayload hrun ⟨hlo, hhi, rfl⟩
  | request =>
      refine h.same hrun (by simp [WorkSession.afterReceive]) rfl ?_
      intro left next hsend
      cases hsend
      split
      · trivial
      · exact Or.inl rfl
  | waveHeader =>
      simp only [WorkSession.afterReceive, waveDim, payloadSamples_eq hlo hhi]
      split
      · split
        · exact h.same hrun (by simp) rfl (by simp)
        · exact h.receivePayload hrun ⟨hlo, hhi, by simp only; omega, rfl⟩
      · exact h.same hrun (by simp) rfl (by simp)
  | wave =>
      exact h.same hrun (by simp [WorkSession.afterReceive]) rfl
        (by simp [WorkSession.afterReceive])
  | answerHeader n =>
      simp only [WorkSession.afterReceive]
      split
      · exact h.same hrun (by simp) rfl (by simp)
      · refine h.receivePayload hrun ⟨hlo, hhi, ?_⟩
        simp only [sizeofFloat]
        omega
  | answer n =>
      exact h.same hrun (by simp [WorkSession.afterReceive]) rfl
        (by simp [WorkSession.afterReceive])

theorem AfterSend.ne_undefined {next : WorkPc} (h : AfterSend next) : next ≠ .undefined := by
  rintro rfl
  exact h

theorem Tracked.step {s t : WorkSession} {l : WorkLabel} (h : Tracked s)
    (hs : s.step l = some t) : Tracked t := by
  cases move_of_step hs with
  | client _ _ hpc hreceives =>
      refine ⟨?_, by rw [hreceives]; exact h.recorded, ?_⟩
      · rw [hpc]
        exact h.next
      · rw [hpc, hreceives]
        exact h.overrun
  | recv k hpc _ hpc' hreceives =>
      exact h.same (by simp [hpc]) (by simp [hpc']) hreceives (by simp [hpc'])
  | received garbage hpc _ => exact h.afterReceive hpc _ garbage
  | @send left next hpc =>
      have hnext := h.next _ _ hpc
      by_cases hlast : left = 0
      · refine h.same (by simp [hpc]) (by simp [hlast, hnext.ne_undefined]) rfl ?_
        intro left' next' hpc'
        simp only [hlast, if_true] at hpc'
        rw [hpc'] at hnext
        exact hnext.elim
      · refine h.same (by simp [hpc]) (by simp [hlast]) rfl ?_
        intro left' next' hpc'
        simp only [hlast, if_false] at hpc'
        cases hpc'
        exact hnext
  | start _ _ hrun hnext =>
      refine h.same hrun.2 (by simp) rfl ?_
      intro left' next' hpc'
      cases hpc'
      exact hnext
  | fatal _ hrun => exact h.same hrun.2 (by simp) rfl (by simp)

theorem tracked_of_reachable {s : WorkSession} (h : system.Reachable s) : Tracked s :=
  Transition.System.Reachable.invariant Tracked tracked_create (fun _ _ _ hi hs => hi.step hs) h

/-- Each payload is received with the length in the header before it. -/
theorem receives_header {s t : WorkSession} {garbage : Bool} {p : PayloadReceive}
    (hs : s.step (.received garbage) = some t) (ht : t.receives = p :: s.receives) :
    ∃ target r, s.pc = .receiving target r ∧
      p.length = (PacketHeader.ofBytes r.received).payloadLength := by
  cases move_of_step hs with
  | client _ hno => exact absurd rfl (hno garbage)
  | start _ hno => exact absurd rfl (hno garbage)
  | fatal hl => exact hl.elim
  | @received _ target r hpc _ =>
      refine ⟨target, r, hpc, ?_⟩
      have hlength := congrArg (fun ps => ps.head?.map PayloadReceive.length) ht
      have hcons : s.receives ≠ p :: s.receives := fun h => by
        simpa using congrArg List.length h
      cases target with
      | requestHeader =>
          simp only [afterReceive] at ht
          split at ht
          · exact absurd ht hcons
          · exact congrArg PayloadReceive.length (List.cons.inj ht).1.symm
      | waveHeader =>
          simp only [afterReceive] at ht
          split at ht
          · split at ht
            · exact absurd ht hcons
            · exact congrArg PayloadReceive.length (List.cons.inj ht).1.symm
          · exact absurd ht hcons
      | answerHeader n =>
          simp only [afterReceive] at ht
          split at ht
          · exact absurd ht hcons
          · exact congrArg PayloadReceive.length (List.cons.inj ht).1.symm
      | request => exact absurd ht hcons
      | wave => exact absurd ht hcons
      | answer n => exact absurd ht hcons

/-- **Payload lengths.**  At every point of a session, a payload stays within its
memory, and `Read` returns no more samples than were requested, exactly when the
length in the header suits the destination: at most one byte for the request, whole
samples for the wave, and no more samples than requested for `Read`. -/
theorem payload_within_iff {s : WorkSession} (hs : system.Reachable s) :
    (∀ p ∈ s.receives, Within p ↔ Fits p.target p.length) ∧
      (s.pc = .undefined ↔ ∃ p ∈ s.receives, p.capacity < p.length) ∧
      ∀ t garbage p, s.step (.received garbage) = some t → t.receives = p :: s.receives →
        ∃ target r, s.pc = .receiving target r ∧
          p.length = (PacketHeader.ofBytes r.received).payloadLength := by
  have h := tracked_of_reachable hs
  exact ⟨fun p hp => (h.recorded p hp).within_iff, h.overrun,
    fun t garbage p hstep ht => receives_header hstep ht⟩

/-- A client that asks for file mode and sends one sample. -/
def oneSample : List WorkLabel :=
  [.clientSends (sendPacket .decodeRequest 1 [0] ++ sendPacket .dataWave 4 [1, 2, 3, 4]),
    .recv 8, .received false, .recv 1, .received false, .send, .send, .recv 8, .received false]

theorem payload_within_sample :
    ∃ s : WorkSession, s.receives = [⟨.wave, 4, 4⟩, ⟨.request, 1, 1⟩] ∧
      (∀ p ∈ s.receives, Within p) := by
  have hrun : (system.runFrom create oneSample).map receives =
      some [⟨.wave, 4, 4⟩, ⟨.request, 1, 1⟩] := by
    decide
  obtain ⟨s, hs, hreceives⟩ := Option.map_eq_some_iff.mp hrun
  refine ⟨s, hreceives, fun p hp => ?_⟩
  rw [(payload_within_iff (Transition.System.reachable_of_run hs)).1 p hp]
  rw [hreceives] at hp
  rcases List.mem_cons.mp hp with rfl | hp
  · exact Or.inr (Int.dvd_refl 4)
  · obtain rfl := List.mem_singleton.mp hp
    exact Int.le_refl 1

/-- A request of two bytes is received into a struct of one, a wave of five bytes into
one sample, and a packet of eight bytes into the `data` of one sample; then `Read`
returns two. -/
theorem payload_too_long :
    (system.runFrom create [.clientSends (sendPacket .decodeRequest 2 [0, 0]), .recv 8,
        .received false]).map receives = some [⟨.request, 2, 1⟩] ∧
      (system.runFrom create [.clientSends (sendPacket .decodeRequest 1 [0] ++
          sendPacket .dataWave 5 [1, 2, 3, 4, 5]), .recv 8, .received false, .recv 1,
          .received false, .send, .send, .recv 8, .received false]).map receives =
        some [⟨.wave, 5, 4⟩, ⟨.request, 1, 1⟩] ∧
      (system.runFrom create [.clientSends (sendPacket .decodeRequest 1 [1] ++
          sendPacket .dataWave 8 [1, 2, 3, 4, 5, 6, 7, 8]), .recv 8, .received false, .recv 1,
          .received false, .send, .send, .read 1, .send, .send, .recv 8,
          .received false]).map receives =
        some [⟨.answer 1, 8, 4⟩, ⟨.request, 1, 1⟩] ∧
      ¬ Within ⟨.request, 2, 1⟩ ∧ ¬ Within ⟨.wave, 5, 4⟩ ∧ ¬ Within ⟨.answer 1, 8, 4⟩ ∧
      AudioTransfer.samplesReturned 8 = 2 := by
  refine ⟨by decide, by decide, by decide, ?_, ?_, ?_, rfl⟩
  · rintro ⟨hle, -⟩
    exact absurd hle (by decide)
  · rintro ⟨hle, -⟩
    exact absurd hle (by decide)
  · rintro ⟨hle, -⟩
    exact absurd hle (by decide)

end WorkSession

end ThreadedServer
