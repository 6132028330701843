import ThreadedServer.PacketStream
import ThreadedServer.Trimming

/-!
# What the client shows

`speechclient` receives the strings of `SendOutput` into one buffer on its stack.  They
come without a terminator, and the two modes get their length from the header in the
same way; but only the online mode puts a zero behind the bytes received before it
takes the buffer for a string.  The file mode prints on until it meets a zero that
happens to be there.

`Receive` returns the bytes that were sent, however they are cut; here it takes them
off the stream at once.  What the client sends has no part in this.
-/

namespace ThreadedServer

/-- `char output[65536]` -/
def outputSize : Nat := 65536

abbrev OutputBuffer := { bytes : List Byte // bytes.length = outputSize }

namespace OutputBuffer

/-- Bytes are received into the buffer; `none` if they run over its end. -/
def write (buffer : OutputBuffer) (bytes : List Byte) : Option OutputBuffer :=
  if h : bytes.length ≤ outputSize then
    some ⟨bytes ++ buffer.val.drop bytes.length, by
      rw [List.length_append, List.length_drop, buffer.property]
      omega⟩
  else none

/-- `output[i] = 0` -/
def terminate (buffer : OutputBuffer) (i : Int) : Option OutputBuffer :=
  if 0 ≤ i ∧ i < outputSize then
    some ⟨buffer.val.set i.toNat 0, by rw [List.length_set, buffer.property]⟩
  else none

/-- The buffer as a string: the bytes before the first zero; `none` if there is none and
the string runs over the end of the buffer. -/
def cstring (buffer : OutputBuffer) : Option (List Byte) :=
  if 0 ∈ buffer.val then some (buffer.val.takeWhile (· != 0)) else none

end OutputBuffer

/-- The bytes of `" \t\r\n"`. -/
def blanks : List Byte := [32, 9, 13, 10]

/-- `trim1` of `speechclient.cc`. -/
def trim1 (s : List Byte) : List Byte := Trimming.cut blanks s

def newline : Byte := 10

/-- `Socket::Receive`: the bytes and what is left of the stream. -/
def receive (wire : List Byte) (length : Int) : List Byte × List Byte :=
  (wire.take length.toNat, wire.drop length.toNat)

/-- `header.payload_length - sizeof(bool)`, passed as an `int`. -/
def outputLength (header : PacketHeader) : Int :=
  toInt32 (toSizeT (toSizeT header.payloadLength - sizeofBool))

/-- The end of `main` without `--online`: what is printed.  `none` stands for an exit
and for what runs over the end of the buffer. -/
def fileMode (buffer : OutputBuffer) (wire : List Byte) : Option (List Byte) :=
  let (bytes, wire) := receive wire PacketHeader.size
  let header := PacketHeader.ofBytes bytes
  if header.type ≠ PacketType.decodeOutput.code then none
  else
    let (_, wire) := receive wire sizeofBool
    let (str, _) := receive wire (outputLength header)
    -- `printf("%s\n", output)`
    (buffer.write str).bind fun buffer => buffer.cstring.map fun out => out ++ [newline]

/-- The variables of the loop of `main` with `--online`. -/
structure OnlineClient where
  buffer : OutputBuffer
  pos : Int
  wire : List Byte
  printed : List Byte

/-- What is written to `cerr` for an output. -/
def printOutput (out : List Byte) (endUtterance : Bool) : List Byte :=
  (if out.length > 0 then out ++ [32] else []) ++
    if endUtterance then [newline, newline] else []

/-- `sizeof(DataWaveRequest)` -/
def sizeofDataWaveRequest : Nat := 8

/-- `req.num_samples` -/
def numSamples (req : List Byte) : Int := (bytesWord (req.take 4)).toInt

namespace OnlineClient

/-- The branch for `DECODE_OUTPUT`. -/
def output (c : OnlineClient) (header : PacketHeader) (wire : List Byte) :
    Option OnlineClient :=
  let (flag, wire) := receive wire sizeofBool
  let (str, wire) := receive wire (outputLength header)
  (c.buffer.write str).bind fun buffer =>
    (buffer.terminate (outputLength header)).bind fun buffer =>
      buffer.cstring.map fun out =>
        { c with
          buffer, wire
          printed := c.printed ++ printOutput (trim1 out) (flag.head? != some 0) }

/-- An iteration of the loop. -/
def step (c : OnlineClient) : Option OnlineClient :=
  let (bytes, wire) := receive c.wire PacketHeader.size
  let header := PacketHeader.ofBytes bytes
  if header.type = PacketType.dataWaveRequest.code then
    let (req, wire) := receive wire sizeofDataWaveRequest
    some { c with wire, pos := toInt32 (c.pos + numSamples req) }
  else if header.type = PacketType.decodeOutput.code then c.output header wire
  else some { c with wire }

/-- The loop, for at most `n` packets. -/
def loop (length : Int) : Nat → OnlineClient → Option OnlineClient
  | 0, c => some c
  | n + 1, c => if c.pos < length then c.step.bind (loop length n) else some c

end OnlineClient

/-! ## What is to be shown -/

/-- Where the loop is after a packet. -/
def nextPos (pos : Int) : SentPacket → Int
  | .packet _ payload => toInt32 (pos + numSamples payload)
  | .output _ _ => pos

/-- The trimmed form of a string. -/
def trimmed (str : List Byte) : List Byte := Trimming.trim (fun c => c ∈ blanks) str

/-- What is to be shown of a packet. -/
def trimmedOutput : SentPacket → List Byte
  | .packet _ _ => []
  | .output endUtterance str => printOutput (trimmed str) endUtterance

/-- The strings of the packets that come while the loop goes on, trimmed. -/
def trimmedOutputs (length : Int) : Int → List SentPacket → List Byte
  | _, [] => []
  | pos, p :: packets =>
      if pos < length then trimmedOutput p ++ trimmedOutputs length (nextPos pos p) packets
      else []

/-- The client in one of its modes, with what it receives: in file mode the packet of
one output, in online mode any requests and outputs. -/
inductive ClientRun
  | file (endUtterance : Bool) (str : List Byte) (rest : List Byte)
  | online (length : Int) (packets : List SentPacket) (rest : List Byte)

/-- A string without zeros that has a place in the buffer. -/
def PlainString (str : List Byte) : Prop := (∀ c ∈ str, c ≠ 0) ∧ str.length ≤ 65535

/-- What the server sends: a request, or an output with a plain string. -/
def PlainPacket : SentPacket → Prop
  | .packet type payload => type = .dataWaveRequest ∧ payload.length = sizeofDataWaveRequest
  | .output _ str => PlainString str

namespace ClientRun

def Plain : ClientRun → Prop
  | file _ str _ => PlainString str
  | online _ packets _ => ∀ p ∈ packets, PlainPacket p

/-- The client shows the string sent, in file mode, or the trimmed strings, in online
mode. -/
def Shows (buffer : OutputBuffer) : ClientRun → Prop
  | file endUtterance str rest =>
      fileMode buffer (sendOutput endUtterance str ++ rest) = some (str ++ [newline])
  | online length packets rest =>
      ∃ c, OnlineClient.loop length packets.length
          ⟨buffer, 0, packets.flatMap SentPacket.bytes ++ rest, []⟩ = some c ∧
        c.printed = trimmedOutputs length 0 packets

/-- In file mode, the byte behind the string is a zero already. -/
def Terminated (buffer : OutputBuffer) : ClientRun → Prop
  | file _ str _ => buffer.val[str.length]? = some 0
  | online _ _ _ => True

end ClientRun

/-! ## Receiving an output -/

section Output

variable {buffer : OutputBuffer} {str rest : List Byte} {endUtterance : Bool}

theorem receive_append {bytes : List Byte} {length : Int} (h : length.toNat = bytes.length) :
    receive (bytes ++ rest) length = (bytes, rest) := by
  rw [receive, h, List.take_left', List.drop_left'] <;> rfl

theorem PlainString.fits (h : PlainString str) (endUtterance : Bool) :
    (SentPacket.output endUtterance str).Fits := by
  have hlen := h.2
  rw [SentPacket.Fits, SentPacket.payload, List.length_cons]
  omega

/-- The length of the string comes out of the header. -/
theorem outputLength_eq (h : str.length ≤ 65535) :
    outputLength (SentPacket.output endUtterance str).header = str.length := by
  have hlen : ((SentPacket.output endUtterance str).header.payloadLength) =
      (str.length + 1 : Nat) := rfl
  rw [outputLength, hlen, toSizeT_eq (by omega), sizeofBool]
  have hsub : ((str.length + 1 : Nat) : Int) - (1 : Nat) = (str.length : Nat) := by omega
  rw [hsub, toSizeT_eq (by omega), toInt32_eq (by omega) (by omega)]

/-- The packet of an output is received in three parts. -/
theorem receive_output (h : PlainString str) (endUtterance : Bool) (rest : List Byte) :
    receive (sendOutput endUtterance str ++ rest) PacketHeader.size =
        ((SentPacket.output endUtterance str).header.bytes,
          [boolByte endUtterance] ++ (str ++ rest)) ∧
      receive ([boolByte endUtterance] ++ (str ++ rest)) sizeofBool =
        ([boolByte endUtterance], str ++ rest) ∧
      receive (str ++ rest) (outputLength (SentPacket.output endUtterance str).header) =
        (str, rest) := by
  have hbytes : sendOutput endUtterance str =
      (SentPacket.output endUtterance str).header.bytes ++ ([boolByte endUtterance] ++ str) :=
    SentPacket.bytes_eq (h.fits endUtterance)
  refine ⟨?_, receive_append rfl, ?_⟩
  · rw [hbytes, List.append_assoc, List.append_assoc]
    exact receive_append rfl
  · rw [outputLength_eq h.2]
    exact receive_append (Int.toNat_natCast _)

/-- The buffer after the string has been received. -/
theorem write_eq (buffer : OutputBuffer) (h : str.length ≤ 65535) :
    ∃ written : OutputBuffer, buffer.write str = some written ∧
      written.val = str ++ buffer.val.drop str.length := by
  refine ⟨_, dif_pos ?_, rfl⟩
  rw [outputSize]
  omega

/-- The buffer is the string exactly if a zero comes behind it. -/
theorem cstring_eq_iff {tail : List Byte} (hval : buffer.val = str ++ tail)
    (hplain : ∀ c ∈ str, c ≠ 0) : buffer.cstring = some str ↔ tail.head? = some 0 := by
  have hne : ∀ c ∈ str, (c != 0) = true := fun c hc => bne_iff_ne.mpr (hplain c hc)
  rw [OutputBuffer.cstring, hval]
  cases tail with
  | nil =>
      have hnot : (0 : Byte) ∉ str ++ [] := by
        rw [List.append_nil]
        exact fun h => hplain 0 h rfl
      rw [if_neg hnot]
      simp
  | cons c tail =>
      rw [List.takeWhile_append_of_pos hne]
      by_cases hc : c = 0
      · rw [hc]
        simp
      · have hhead : (c :: tail).head? ≠ some 0 := fun h => hc (Option.some.inj h)
        simp only [hhead, iff_false]
        intro hstr
        obtain ⟨-, hstr⟩ := Option.ite_none_right_eq_some.mp hstr
        have hlen := congrArg List.length (Option.some.inj hstr)
        exact hc (by simpa using hlen)

theorem terminate_eq {written : OutputBuffer} (hlen : str.length ≤ 65535)
    (hval : written.val = str ++ buffer.val.drop str.length) :
    ∃ terminated : OutputBuffer, written.terminate str.length = some terminated ∧
      terminated.val = str ++ 0 :: buffer.val.drop (str.length + 1) := by
  have hlt : str.length < buffer.val.length := by
    rw [buffer.property, outputSize]
    omega
  refine ⟨_, if_pos ⟨by omega, by rw [outputSize]; omega⟩, ?_⟩
  show written.val.set (str.length : Int).toNat 0 = _
  rw [Int.toNat_natCast, hval, List.drop_eq_getElem_cons hlt,
    List.set_append_right _ _ (Nat.le_refl _), Nat.sub_self, List.set_cons_zero]

/-- In file mode the buffer is shown with the string written into it. -/
theorem fileMode_eq (h : PlainString str) {buffer written : OutputBuffer}
    (hwrite : buffer.write str = some written) (endUtterance : Bool) (rest : List Byte) :
    fileMode buffer (sendOutput endUtterance str ++ rest) =
      written.cstring.map fun out => out ++ [newline] := by
  obtain ⟨hheader, hflag, hstr⟩ := receive_output h endUtterance rest
  have htype : ¬ (SentPacket.output endUtterance str).header.type ≠
      PacketType.decodeOutput.code := fun hne => hne rfl
  simp only [fileMode, hheader, SentPacket.ofBytes_header (h.fits endUtterance), hflag, hstr,
    hwrite, if_neg htype, Option.bind_some]

/-- That is the string exactly if the byte behind it is a zero. -/
theorem fileMode_eq_iff (h : PlainString str) (buffer : OutputBuffer) (endUtterance : Bool)
    (rest : List Byte) :
    fileMode buffer (sendOutput endUtterance str ++ rest) = some (str ++ [newline]) ↔
      buffer.val[str.length]? = some 0 := by
  obtain ⟨written, hwrite, hval⟩ := write_eq buffer h.2
  have hhead : (buffer.val.drop str.length).head? = buffer.val[str.length]? := List.head?_drop
  rw [fileMode_eq h hwrite, ← hhead, ← cstring_eq_iff hval h.1]
  constructor
  · intro hshown
    obtain ⟨out, hout, heq⟩ := Option.map_eq_some_iff.mp hshown
    rw [hout, List.append_cancel_right heq]
  · intro hout
    rw [hout]
    rfl

/-- In online mode an output is shown trimmed, whatever the buffer held. -/
theorem step_output (h : PlainString str) (buffer : OutputBuffer) (endUtterance : Bool)
    (pos : Int) (rest printed : List Byte) :
    ∃ buffer', OnlineClient.step ⟨buffer, pos, sendOutput endUtterance str ++ rest, printed⟩ =
      some ⟨buffer', pos, rest, printed ++ printOutput (trimmed str) endUtterance⟩ := by
  obtain ⟨written, hwrite, hval⟩ := write_eq buffer h.2
  obtain ⟨terminated, hterminate, hval'⟩ := terminate_eq h.2 hval
  obtain ⟨hheader, hflag, hstr⟩ := receive_output h endUtterance rest
  rw [outputLength_eq h.2] at hstr
  have hcstring : terminated.cstring = some str := (cstring_eq_iff hval' h.1).mpr rfl
  have htrim : trim1 str = trimmed str := Trimming.cut_eq _ _
  have hbool : ([boolByte endUtterance].head? != some 0) = endUtterance := by
    cases endUtterance <;> rfl
  have hrequest : ¬ (SentPacket.output endUtterance str).header.type =
      PacketType.dataWaveRequest.code := by
    show ¬ PacketType.decodeOutput.code = PacketType.dataWaveRequest.code
    decide
  have houtput : (SentPacket.output endUtterance str).header.type =
      PacketType.decodeOutput.code := rfl
  have hshow : OnlineClient.output ⟨buffer, pos, sendOutput endUtterance str ++ rest, printed⟩
      (SentPacket.output endUtterance str).header ([boolByte endUtterance] ++ (str ++ rest)) =
        some ⟨terminated, pos, rest, printed ++ printOutput (trimmed str) endUtterance⟩ := by
    rw [OnlineClient.output, hflag]
    simp only [outputLength_eq h.2, hstr]
    rw [hwrite, Option.bind_some, hterminate, Option.bind_some, hcstring, Option.map_some, htrim,
      hbool]
  refine ⟨terminated, ?_⟩
  rw [OnlineClient.step, hheader]
  simp only [SentPacket.ofBytes_header (h.fits endUtterance)]
  rw [if_neg hrequest, if_pos houtput]
  exact hshow

/-- A request leaves the buffer alone. -/
theorem step_request {payload : List Byte} (h : payload.length = sizeofDataWaveRequest)
    (buffer : OutputBuffer) (pos : Int) (rest printed : List Byte) :
    OnlineClient.step
        ⟨buffer, pos, (SentPacket.packet .dataWaveRequest payload).bytes ++ rest, printed⟩ =
      some ⟨buffer, toInt32 (pos + numSamples payload), rest, printed⟩ := by
  have hfits : (SentPacket.packet .dataWaveRequest payload).Fits := by
    rw [SentPacket.Fits, SentPacket.payload, h, sizeofDataWaveRequest]
    decide
  have hheader : receive ((SentPacket.packet .dataWaveRequest payload).bytes ++ rest)
      PacketHeader.size =
        ((SentPacket.packet .dataWaveRequest payload).header.bytes, payload ++ rest) := by
    rw [SentPacket.bytes_eq hfits, List.append_assoc]
    exact receive_append rfl
  have hpayload : receive (payload ++ rest) sizeofDataWaveRequest = (payload, rest) :=
    receive_append h.symm
  simp only [OnlineClient.step, hheader, SentPacket.ofBytes_header hfits, hpayload]
  rfl

/-- A packet of the server is dealt with as it should be. -/
theorem step_packet {p : SentPacket} (h : PlainPacket p) (buffer : OutputBuffer) (pos : Int)
    (rest printed : List Byte) :
    ∃ buffer', OnlineClient.step ⟨buffer, pos, p.bytes ++ rest, printed⟩ =
      some ⟨buffer', nextPos pos p, rest, printed ++ trimmedOutput p⟩ := by
  cases p with
  | packet type payload =>
      obtain ⟨rfl, hlen⟩ := h
      refine ⟨buffer, ?_⟩
      rw [trimmedOutput, List.append_nil]
      exact step_request hlen buffer pos rest printed
  | output endUtterance str => exact step_output h buffer endUtterance pos rest printed

/-- The loop shows the outputs of any sequence of packets, trimmed. -/
theorem loop_shows (length : Int) {packets : List SentPacket}
    (h : ∀ p ∈ packets, PlainPacket p) (buffer : OutputBuffer) (pos : Int)
    (rest printed : List Byte) :
    ∃ c, OnlineClient.loop length packets.length
        ⟨buffer, pos, packets.flatMap SentPacket.bytes ++ rest, printed⟩ = some c ∧
      c.printed = printed ++ trimmedOutputs length pos packets := by
  induction packets generalizing buffer pos printed with
  | nil => exact ⟨_, rfl, (List.append_nil _).symm⟩
  | cons p packets ih =>
      by_cases hpos : pos < length
      · obtain ⟨buffer', hstep⟩ := step_packet (h p List.mem_cons_self) buffer pos
          (packets.flatMap SentPacket.bytes ++ rest) printed
        obtain ⟨c, hloop, hprinted⟩ := ih (fun q hq => h q (List.mem_cons_of_mem _ hq)) buffer'
          (nextPos pos p) _
        refine ⟨c, ?_, ?_⟩
        · rw [List.length_cons, List.flatMap_cons, List.append_assoc, OnlineClient.loop,
            if_pos hpos, hstep]
          exact hloop
        · rw [hprinted, List.append_assoc]
          exact congrArg (printed ++ ·) (if_pos hpos).symm
      · refine ⟨_, if_neg hpos, ?_⟩
        have hnil : trimmedOutputs length pos (p :: packets) = [] := if_neg hpos
        rw [hnil, List.append_nil]

end Output

namespace ClientRun

/-- **What is shown is what was sent**, for plain strings: exactly if, in file mode, the byte
behind the string is a zero already.  The online mode shows the strings trimmed, over any
sequence of packets and for every earlier content of the buffer. -/
theorem shows_iff {run : ClientRun} (h : run.Plain) (buffer : OutputBuffer) :
    run.Shows buffer ↔ run.Terminated buffer := by
  cases run with
  | file endUtterance str rest => exact fileMode_eq_iff h buffer endUtterance rest
  | online length packets rest =>
      have hshows : (online length packets rest).Shows buffer := by
        obtain ⟨c, hloop, hprinted⟩ := loop_shows length h buffer 0 rest []
        exact ⟨c, hloop, hprinted⟩
      exact iff_of_true hshows trivial

/-- A buffer of zeros. -/
def zeros : OutputBuffer := ⟨List.replicate outputSize 0, List.length_replicate⟩

/-- A buffer in which a second byte was left. -/
def stale : OutputBuffer :=
  ⟨0 :: 98 :: List.replicate 65534 0, by
    rw [List.length_cons, List.length_cons, List.length_replicate]
    rfl⟩

theorem shows_iff_zeros :
    PlainString [97] ∧
      ((file true [97] []).Shows zeros ↔ (file true [97] []).Terminated zeros) ∧
      (file true [97] []).Terminated zeros := by
  have hplain : PlainString [97] := ⟨by decide, by decide⟩
  have hrun : (file true [97] []).Plain := hplain
  refine ⟨hplain, shows_iff hrun zeros, ?_⟩
  show (List.replicate 65536 (0 : Byte))[1]? = some 0
  rw [List.getElem?_replicate]
  rfl

/-- In file mode the string `a` is shown as `ab` where a `b` was left in the buffer. -/
theorem file_shows_stale :
    PlainString [97] ∧ fileMode stale (sendOutput true [97]) = some [97, 98, newline] ∧
      ¬ (file true [97] []).Shows stale := by
  have hplain : PlainString [97] := ⟨by decide, by decide⟩
  obtain ⟨written, hwrite, hval⟩ := write_eq stale hplain.2
  have hwritten : written.val = [97, 98] ++ 0 :: List.replicate 65533 0 := by
    rw [hval]
    show [97] ++ 98 :: List.replicate 65534 0 = _
    rw [List.replicate_succ]
    rfl
  have hstring : written.cstring = some [97, 98] :=
    (cstring_eq_iff hwritten (by decide)).mpr rfl
  have hmode : fileMode stale (sendOutput true [97] ++ []) = some [97, 98, newline] := by
    rw [fileMode_eq hplain hwrite, hstring]
    rfl
  refine ⟨hplain, by rwa [List.append_nil] at hmode, ?_⟩
  intro hshows
  have heq : some [97, 98, newline] = some ([97] ++ [newline]) := hmode.symm.trans hshows
  exact absurd heq (by decide)

end ClientRun

end ThreadedServer
