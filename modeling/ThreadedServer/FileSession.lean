import ThreadedServer.ClientOutput
import ThreadedServer.Dialogue
import ThreadedServer.FileMode
import ThreadedServer.WorkSession

/-!
# A session in file mode

Without `--online`, `speechclient` asks for a decoder, is accepted, sends its whole wave and
waits for the one output.  On the other side is `DecodeWorker::Work`, of a worker that has
served other clients before.

Both programs are written down here as they send and receive, with what makes them exit or
leaves the language.  Decoding may fail: a wave without feature rows stops the program, and
so may the transform and the decoder.  Where it does not, the runs are those of any two
programs on a connection: whoever is faster, and however `recv` cuts the stream, they come to
the same end.
-/

namespace ThreadedServer

open Dialogue Numerics

variable {ρ : Type*}

/-- `SendPacket`, and what follows. -/
def sendPacketTo (type : PacketType) (length : Int) (payload : List Byte) (next : Proc Byte ρ) :
    Proc Byte ρ :=
  .send (PacketHeader.mk length type.code).bytes (.send (payload.take length.toNat) next)

/-- `SendOutput`, and what follows. -/
def sendOutputTo (endUtterance : Bool) (str : List Byte) (next : Proc Byte ρ) : Proc Byte ρ :=
  .send (PacketHeader.mk (toInt32 (toSizeT ↑(sizeofBool + str.length)))
      PacketType.decodeOutput.code).bytes
    (.send [boolByte endUtterance] (.send (str.take (toInt32 str.length).toNat) next))

/-- A header is received. -/
def receiveHeader (next : PacketHeader → Proc Byte ρ) : Proc Byte ρ :=
  .receive PacketHeader.size fun bytes => next (PacketHeader.ofBytes bytes)

/-! ## The client -/

/-- How `main` of `speechclient` ends without `--online`. -/
inductive ClientEnd
  /-- `exit(1)` -/
  | exited
  /-- the output or what is printed of it runs over the end of the buffer -/
  | undefined
  | printed (out : List Byte)
  deriving DecidableEq, Repr

namespace FileClient

/-- `sizeof(DecodeResponse)` -/
def sizeofDecodeResponse : Nat := 1

/-- `printf("%s\n", output)`, when `str` has been received into the buffer. -/
def printed (buffer : OutputBuffer) (str : List Byte) : ClientEnd :=
  match (buffer.write str).bind OutputBuffer.cstring with
  | some out => .printed (out ++ [newline])
  | none => .undefined

/-- The header of the output has been received. -/
def afterOutputHeader (buffer : OutputBuffer) (header : PacketHeader) : Proc Byte ClientEnd :=
  if header.type ≠ PacketType.decodeOutput.code then .halt .exited
  else
    .receive sizeofBool fun _ =>
      .receive (outputLength header).toNat fun str => .halt (printed buffer str)

/-- The response has been received. -/
def afterResponse (wave : List Sample) (buffer : OutputBuffer) (res : List Byte) :
    Proc Byte ClientEnd :=
  -- `!res.accepted`
  if res = [0] then .halt .exited
  else
    sendPacketTo .dataWave (toInt32 (toSizeT ↑(toSizeT wave.length * sizeofFloat)))
      (sampleBytes wave) (receiveHeader (afterOutputHeader buffer))

/-- The header of the response has been received. -/
def afterAccept (wave : List Sample) (buffer : OutputBuffer) (header : PacketHeader) :
    Proc Byte ClientEnd :=
  -- `CheckPacket(DECODE_ACCEPT, header.type)`
  if header.type ≠ PacketType.decodeAccept.code then .halt .exited
  else .receive sizeofDecodeResponse (afterResponse wave buffer)

/-- `main`, from the request on. -/
def main (wave : List Sample) (buffer : OutputBuffer) : Proc Byte ClientEnd :=
  sendPacketTo .decodeRequest WorkSession.sizeofDecodeRequest [boolByte false]
    (receiveHeader (afterAccept wave buffer))

end FileClient

/-! ## The server -/

/-- How `Work` ends. -/
inductive WorkEnd (W : Type*)
  /-- `exit(1)` -/
  | exited
  /-- what is received runs over the end of its place -/
  | undefined
  /-- an assertion or an exception in decoding -/
  | aborted
  /-- `OnlineDecode` takes over -/
  | online
  /-- the worker afterwards, and the words, if it has been asked for any -/
  | returned (worker : W) (words : Option (List Byte))

namespace FileWork

variable {W : Type*} (decode : W → List Sample → Option (W × List Byte)) (w : W)

/-- The wave has been received. -/
def afterWave (bytes : List Byte) : Proc Byte (WorkEnd W) :=
  match decode w (bytesSamples bytes) with
  | none => .halt .aborted
  | some (w, words) => sendOutputTo true words (.halt (.returned w (some words)))

/-- The header of the wave has been received. -/
def afterWaveHeader (header : PacketHeader) : Proc Byte (WorkEnd W) :=
  if header.type = PacketType.dataWave.code then
    -- the wave cannot be resized to less than nothing
    if WorkSession.waveDim header.payloadLength < 0 then .halt .exited
    else if WorkSession.waveDim header.payloadLength * sizeofFloat < header.payloadLength then
      .halt .undefined
    else
      .receive header.payloadLength.toNat (afterWave decode w)
  -- `DATA_FEATURE`, or an invalid request
  else .halt (.returned w none)

/-- The request has been received; `garbage` is what was in its place before. -/
def afterRequest (garbage : Bool) (req : List Byte) : Proc Byte (WorkEnd W) :=
  sendPacketTo .decodeAccept FileClient.sizeofDecodeResponse [boolByte true]
    (if WorkSession.onlineMode req garbage then .halt .online
      else receiveHeader (afterWaveHeader decode w))

/-- The header of the request has been received. -/
def afterRequestHeader (garbage : Bool) (header : PacketHeader) : Proc Byte (WorkEnd W) :=
  if header.type ≠ PacketType.decodeRequest.code then .halt .exited
  else if (WorkSession.sizeofDecodeRequest : Int) < header.payloadLength then .halt .undefined
  else .receive header.payloadLength.toNat (afterRequest decode w garbage)

/-- `Work` -/
def work (garbage : Bool) : Proc Byte (WorkEnd W) :=
  receiveHeader (afterRequestHeader decode w garbage)

end FileWork

/-! ## Packets in a dialogue -/

section Packets

open Session

variable {τ : Type*} {left : Proc Byte ρ} {right : Proc Byte τ} {type : PacketType}
  {payload : List Byte}

/-- The right side receives a header, -/
theorem leads_header_right {p : Party Byte ρ} {header : PacketHeader}
    {next' : PacketHeader → Proc Byte τ} (hheader : PacketHeader.ofBytes header.bytes = header) :
    (system left right).Leads ⟨p, .start (receiveHeader next'), [], header.bytes ++ payload⟩
      ⟨p, .start (next' header), [], payload⟩ := by
  have hreceive : (system left right).Leads
      ⟨p, .start (receiveHeader next'), [], header.bytes ++ payload⟩
      ⟨p, .start (next' (PacketHeader.ofBytes header.bytes)), [], payload⟩ :=
    leads_receive_right header.bytes_length
  rwa [hheader] at hreceive

/-- or the left one. -/
theorem leads_header_left {q : Party Byte τ} {header : PacketHeader}
    {next : PacketHeader → Proc Byte ρ} (hheader : PacketHeader.ofBytes header.bytes = header) :
    (system left right).Leads ⟨.start (receiveHeader next), q, header.bytes ++ payload, []⟩
      ⟨.start (next header), q, payload, []⟩ := by
  have hreceive : (system left right).Leads
      ⟨.start (receiveHeader next), q, header.bytes ++ payload, []⟩
      ⟨.start (next (PacketHeader.ofBytes header.bytes)), q, payload, []⟩ :=
    leads_receive_left header.bytes_length
  rwa [hheader] at hreceive

/-- The left side sends a packet, of which the header is received. -/
theorem leads_packet_right {next : Proc Byte ρ} {next' : PacketHeader → Proc Byte τ}
    (hfits : (SentPacket.packet type payload).Fits) :
    (system left right).Leads
      ⟨.start (sendPacketTo type payload.length payload next), .start (receiveHeader next'), [], []⟩
      ⟨.start next, .start (next' (SentPacket.packet type payload).header), [], payload⟩ := by
  refine leads_send_left.trans (leads_send_left.trans ?_)
  rw [List.nil_append, Int.toNat_natCast, List.take_length]
  exact leads_header_right (SentPacket.ofBytes_header (p := .packet type payload) hfits)

/-- The right side sends a packet, of which the header is received. -/
theorem leads_packet_left {next : PacketHeader → Proc Byte ρ} {next' : Proc Byte τ}
    (hfits : (SentPacket.packet type payload).Fits) :
    (system left right).Leads
      ⟨.start (receiveHeader next), .start (sendPacketTo type payload.length payload next'), [], []⟩
      ⟨.start (next (SentPacket.packet type payload).header), .start next', payload, []⟩ := by
  refine leads_send_right.trans (leads_send_right.trans ?_)
  rw [List.nil_append, Int.toNat_natCast, List.take_length]
  exact leads_header_left (SentPacket.ofBytes_header (p := .packet type payload) hfits)

/-- The rest of a packet is received. -/
theorem leads_payload_right {p : Party Byte ρ} {length : Nat} {next' : List Byte → Proc Byte τ}
    (hlength : payload.length = length) :
    (system left right).Leads ⟨p, .start (.receive length next'), [], payload⟩
      ⟨p, .start (next' payload), [], []⟩ := by
  have hreceive : (system left right).Leads
      ⟨p, .start (.receive length next'), [], payload ++ []⟩ ⟨p, .start (next' payload), [], []⟩ :=
    leads_receive_right hlength
  rwa [List.append_nil] at hreceive

theorem leads_payload_left {q : Party Byte τ} {length : Nat} {next : List Byte → Proc Byte ρ}
    (hlength : payload.length = length) :
    (system left right).Leads ⟨.start (.receive length next), q, payload, []⟩
      ⟨.start (next payload), q, [], []⟩ := by
  have hreceive : (system left right).Leads
      ⟨.start (.receive length next), q, payload ++ [], []⟩ ⟨.start (next payload), q, [], []⟩ :=
    leads_receive_left hlength
  rwa [List.append_nil] at hreceive

/-- The right side sends an output, of which the header is received. -/
theorem leads_output_left {next : PacketHeader → Proc Byte ρ} {next' : Proc Byte τ}
    {endUtterance : Bool} {str : List Byte}
    (hfits : (SentPacket.output endUtterance str).Fits) :
    (system left right).Leads
      ⟨.start (receiveHeader next), .start (sendOutputTo endUtterance str next'), [], []⟩
      ⟨.start (next (SentPacket.output endUtterance str).header), .start next',
        [boolByte endUtterance] ++ str, []⟩ := by
  have hlength : str.length + 1 < 2 ^ 31 := hfits
  have hheader : PacketHeader.mk (toInt32 (toSizeT ↑(sizeofBool + str.length)))
      PacketType.decodeOutput.code = (SentPacket.output endUtterance str).header := by
    have hsum : sizeofBool + str.length = str.length + 1 := Nat.add_comm ..
    rw [hsum, toSizeT_eq (by omega), toInt32_eq (by omega) (by omega)]
    rfl
  have hstr : str.take (toInt32 str.length).toNat = str := by
    rw [toInt32_eq (by omega) (by omega), Int.toNat_natCast, List.take_length]
  refine leads_send_right.trans (leads_send_right.trans (leads_send_right.trans ?_))
  rw [hheader, hstr, List.nil_append, List.append_assoc]
  exact leads_header_left (SentPacket.ofBytes_header (p := .output endUtterance str) hfits)

end Packets

/-! ## The session -/

section FileSession

open Session

variable {W : Type*} {decode : W → List Sample → Option (W × List Byte)} {w w' : W}
  {wave : List Sample} {str : List Byte} {buffer : OutputBuffer} {garbage : Bool}

/-- The payload of the wave packet, whose length is that of the samples. -/
theorem wave_length (hwave : wave.length < 2 ^ 29) :
    toInt32 (toSizeT ↑(toSizeT wave.length * sizeofFloat)) = ((sampleBytes wave).length : Int) := by
  have hbytes := sampleBytes_length wave
  have hsize : toSizeT wave.length = wave.length := toSizeT_eq (by omega)
  rw [sizeofFloat] at hbytes ⊢
  rw [hsize, toSizeT_eq (by omega), toInt32_eq (by omega) (by omega), hbytes, Nat.mul_comm]

/-- The wave has a place of its size. -/
theorem afterWaveHeader_eq (hwave : wave.length < 2 ^ 29) :
    FileWork.afterWaveHeader decode w (SentPacket.packet .dataWave (sampleBytes wave)).header =
      .receive (sampleBytes wave).length (FileWork.afterWave decode w) := by
  have hbytes := sampleBytes_length wave
  have hdim : WorkSession.waveDim (sampleBytes wave).length = wave.length := by
    rw [sizeofFloat] at hbytes
    rw [WorkSession.waveDim, payloadSamples, toSizeT_eq (by omega), hbytes, sizeofFloat]
    rw [Nat.mul_div_cancel_left _ (by decide), toInt32_eq (by omega) (by omega)]
  have hplace : ¬ (wave.length : Int) * sizeofFloat < (sampleBytes wave).length := by
    rw [hbytes]
    push_cast
    rw [Int.mul_comm]
    exact lt_irrefl _
  have hheader : (SentPacket.packet .dataWave (sampleBytes wave)).header =
      ⟨(sampleBytes wave).length, PacketType.dataWave.code⟩ := rfl
  rw [hheader, FileWork.afterWaveHeader, if_pos rfl]
  simp only [hdim]
  rw [if_neg (by omega), if_neg hplace, Int.toNat_natCast]

/-- The rest of an output is received as it was sent. -/
theorem afterOutputHeader_eq (hwords : (SentPacket.output true str).Fits) :
    FileClient.afterOutputHeader buffer (SentPacket.output true str).header =
      .receive sizeofBool fun _ =>
        .receive str.length fun str => .halt (FileClient.printed buffer str) := by
  have hlength : str.length + 1 < 2 ^ 31 := hwords
  have houtput : outputLength (SentPacket.output true str).header = str.length := by
    have hpayload : (SentPacket.output true str).header.payloadLength =
        (str.length + 1 : Nat) := rfl
    have hsub : ((str.length + 1 : Nat) : Int) - (sizeofBool : Nat) = str.length := by
      rw [sizeofBool]
      omega
    rw [outputLength, hpayload, toSizeT_eq (by omega), hsub, toSizeT_eq (by omega),
      toInt32_eq (by omega) (by omega)]
  have htype : ¬ (SentPacket.output true str).header.type ≠ PacketType.decodeOutput.code :=
    fun hne => hne rfl
  rw [FileClient.afterOutputHeader, if_neg htype, houtput, Int.toNat_natCast]

/-- The client has been accepted. -/
theorem leads_accepted :
    (system (FileClient.main wave buffer) (FileWork.work decode w garbage)).Leads
      (create (FileClient.main wave buffer) (FileWork.work decode w garbage))
      ⟨.start (FileClient.afterResponse wave buffer [boolByte true]),
        .start (receiveHeader (FileWork.afterWaveHeader decode w)), [], []⟩ := by
  have hrequest : (SentPacket.packet .decodeRequest [boolByte false]).Fits := by decide
  have hresponse : (SentPacket.packet .decodeAccept [boolByte true]).Fits := by decide
  refine (leads_packet_right hrequest).trans ?_
  refine (leads_payload_right rfl).trans ?_
  refine (leads_packet_left hresponse).trans ?_
  exact leads_payload_left rfl

/-- One run of the two programs, from the request to the output. -/
theorem leads_end (hdecode : decode w wave = some (w', str)) (hwave : wave.length < 2 ^ 29)
    (hwords : (SentPacket.output true str).Fits) :
    (system (FileClient.main wave buffer) (FileWork.work decode w garbage)).Leads
      (create (FileClient.main wave buffer) (FileWork.work decode w garbage))
      ⟨.start (.halt (FileClient.printed buffer str)),
        .start (.halt (.returned w' (some str))), [], []⟩ := by
  have hbytes := sampleBytes_length wave
  have hfits : (SentPacket.packet .dataWave (sampleBytes wave)).Fits := by
    show (sampleBytes wave).length < 2 ^ 31
    rw [hbytes, sizeofFloat]
    omega
  have hdecoded : FileWork.afterWave decode w (sampleBytes wave) =
      sendOutputTo true str (.halt (.returned w' (some str))) := by
    rw [FileWork.afterWave, bytesSamples_sampleBytes, hdecode]
  have haccepted : FileClient.afterResponse wave buffer [boolByte true] =
      sendPacketTo .dataWave (sampleBytes wave).length (sampleBytes wave)
        (receiveHeader (FileClient.afterOutputHeader buffer)) := by
    rw [FileClient.afterResponse, if_neg (by decide), wave_length hwave]
  refine leads_accepted.trans ?_
  rw [haccepted]
  refine (leads_packet_right hfits).trans ?_
  rw [afterWaveHeader_eq hwave]
  refine (leads_payload_right rfl).trans ?_
  rw [hdecoded]
  refine (leads_output_left hwords).trans ?_
  rw [afterOutputHeader_eq hwords]
  have hflag : [boolByte true].length = sizeofBool := rfl
  refine (leads_receive_left hflag).trans ?_
  exact leads_payload_left rfl

end FileSession

section Worker

open Session

variable {K V : Type*} [Zero K] {dim : Nat} (A : Arithmetic K V)
  (mfcc : List Sample → List (FeatureRow K dim))
  (words : List (FeatureRow V dim) → Option (List Byte))

/-- What `Work` does with a wave.  `words` stands for the transform and the decoder, which
may fail; a wave for which `Mfcc::Compute` fails counts as one without rows. -/
def decodeWave (w : DecodeWorker K dim) (wave : List Sample) :
    Option (DecodeWorker K dim × List Byte) :=
  (w.work A mfcc wave).bind fun (w, cmvnOutput) => (words cmvnOutput).map fun str => (w, str)

/-- The client with a wave, and a worker. -/
def fileSystem (worker : DecodeWorker K dim) (wave : List Sample) (buffer : OutputBuffer)
    (garbage : Bool) :
    Transition.System (Session Byte ClientEnd (WorkEnd (DecodeWorker K dim))) (Side × Move) :=
  system (FileClient.main wave buffer) (FileWork.work (decodeWave A mfcc words) worker garbage)

/-- **A session in file mode.**  Whatever the worker has served before, for a wave that
decoding gets through, whoever is faster and however the bytes are cut: no run goes on
forever; none of them ends in an exit or with bytes in the wrong place; each can go on until
the worker has decoded the very wave of the client and the client prints what its buffer
holds with the words written into it; and then nothing is left on the connection. -/
theorem file_session {waves : List (List Sample)} {worker : DecodeWorker K dim}
    (hserve : (DecodeWorker.create dim).serve A mfcc waves = some worker)
    {wave : List Sample} (buffer : OutputBuffer) (garbage : Bool)
    {cmvnOutput : List (FeatureRow V dim)} {str : List Byte}
    (houtput : worker.cmvnOutput A mfcc wave = some cmvnOutput)
    (hstr : words cmvnOutput = some str)
    (hwave : wave.length < 2 ^ 29) (hwords : str.length + 1 < 2 ^ 31) :
    ∃ (worker' : DecodeWorker K dim)
      (f : Session Byte ClientEnd (WorkEnd (DecodeWorker K dim))) (bound : Nat),
      (DecodeWorker.create dim).serve A mfcc (waves ++ [wave]) = some worker' ∧
      f.Ended (FileClient.printed buffer str) (.returned worker' (some str)) ∧
      f.toLeft = [] ∧ f.toRight = [] ∧
      ∀ ls t, (fileSystem A mfcc words worker wave buffer garbage).runFrom
          (fileSystem A mfcc words worker wave buffer garbage).init ls = some t →
        (fileSystem A mfcc words worker wave buffer garbage).Leads t f ∧ ls.length ≤ bound ∧
        (∀ r, t.left.proc = .halt r → r = FileClient.printed buffer str) ∧
        ∀ r, t.right.proc = .halt r → r = .returned worker' (some str) := by
  obtain ⟨⟨worker', _⟩, hwork, rfl⟩ := Option.map_eq_some_iff.mp houtput
  have hdecode : decodeWave A mfcc words worker wave = some (worker', str) := by
    rw [decodeWave, hwork, Option.bind_some]
    exact Option.map_eq_some_iff.mpr ⟨str, hstr, rfl⟩
  have hserve' : (DecodeWorker.create dim).serve A mfcc (waves ++ [wave]) = some worker' := by
    rw [DecodeWorker.serve_concat hserve, hwork, Option.map_some]
  have hleads : (fileSystem A mfcc words worker wave buffer garbage).Leads _ _ :=
    leads_end hdecode hwave hwords
  obtain ⟨bound, hbound⟩ := determined ⟨rfl, rfl⟩ hleads
  exact ⟨worker', _, bound, hserve', ⟨rfl, rfl⟩, rfl, rfl, hbound⟩

end Worker

/-- Each sample is a row of its own. -/
def sampleFeatures (wave : List Sample) : List (FeatureRow ℚ 1) :=
  wave.map fun x _ => (x.toNat : ℚ)

/-- Two letters are found in two rows, and one row is too short for the window. -/
def twoLetters (rows : List (FeatureRow (Entry ℚ) 1)) : Option (List Byte) :=
  if rows.length < 2 then none else some [104, 105]

/-- The second client of a worker, with two samples. -/
theorem file_session_two :
    ∃ (worker worker' : DecodeWorker ℚ 1)
      (f : Session Byte ClientEnd (WorkEnd (DecodeWorker ℚ 1))) (bound : Nat),
      (DecodeWorker.create 1).serve (exact id) sampleFeatures [[1]] = some worker ∧
      f.Ended (FileClient.printed ClientRun.zeros [104, 105])
        (.returned worker' (some [104, 105])) ∧
      ∀ ls t, (fileSystem (exact id) sampleFeatures twoLetters worker [2, 3]
          ClientRun.zeros true).runFrom
          (fileSystem (exact id) sampleFeatures twoLetters worker [2, 3]
            ClientRun.zeros true).init ls = some t → ls.length ≤ bound := by
  have hserve : (DecodeWorker.create 1).serve (exact id) sampleFeatures [[1]] = some _ := rfl
  obtain ⟨worker', f, bound, -, hended, -, -, hall⟩ := file_session (exact id) sampleFeatures
    twoLetters hserve ClientRun.zeros true rfl rfl (show [2, 3].length < 2 ^ 29 by decide)
    (by decide)
  exact ⟨_, worker', f, bound, hserve, hended, fun ls t h => (hall ls t h).2.1⟩

end ThreadedServer
