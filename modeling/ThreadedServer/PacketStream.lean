import ThreadedServer.Socket
import ThreadedServer.Transition

/-!
# Packets one after another

A connection carries the packets of `SendPacket` and of `SendOutput` without marks
between them.  The receiver finds their boundaries by turns: it calls `Receive` for a
header, and then for as many bytes as the header says.  `recv` may cut the stream
anywhere, in the middle of a header or across two packets; what has been taken off the
connection is nevertheless always a number of whole packets and what the call in
progress has so far.
-/

namespace ThreadedServer

/-- `sizeof(bool)` -/
def sizeofBool : Nat := 1

/-- The byte of a `bool` in memory. -/
def boolByte (b : Bool) : Byte := if b then 1 else 0

/-- What `SendOutput` writes: the header, the flag and the characters of the string. -/
def sendOutput (endUtterance : Bool) (str : List Byte) : List Byte :=
  (PacketHeader.mk (toInt32 (toSizeT ↑(sizeofBool + str.length)))
      PacketType.decodeOutput.code).bytes ++
    boolByte endUtterance :: str.take (toInt32 str.length).toNat

/-- A call of `SendPacket` or of `SendOutput`. -/
inductive SentPacket
  | packet (type : PacketType) (payload : List Byte)
  | output (endUtterance : Bool) (str : List Byte)
  deriving DecidableEq, Repr

namespace SentPacket

/-- The bytes that are written. -/
def bytes : SentPacket → List Byte
  | packet type payload => sendPacket type payload.length payload
  | output endUtterance str => sendOutput endUtterance str

def type : SentPacket → PacketType
  | packet type _ => type
  | output _ _ => .decodeOutput

def payload : SentPacket → List Byte
  | packet _ payload => payload
  | output endUtterance str => boolByte endUtterance :: str

/-- The header that belongs to the payload. -/
def header (p : SentPacket) : PacketHeader := ⟨p.payload.length, p.type.code⟩

/-- The length of the payload is an `int`. -/
def Fits (p : SentPacket) : Prop := p.payload.length < 2 ^ 31

instance (p : SentPacket) : Decidable p.Fits := inferInstanceAs (Decidable (_ < _))

/-- Both functions write a header with the length of the payload, and the payload. -/
theorem bytes_eq {p : SentPacket} (h : p.Fits) : p.bytes = p.header.bytes ++ p.payload := by
  cases p with
  | packet type payload =>
      rw [bytes, sendPacket, Int.toNat_natCast, List.take_length]
      rfl
  | output endUtterance str =>
      have hlen : sizeofBool + str.length < 2 ^ 31 := by
        rw [Fits, payload, List.length_cons] at h
        rw [sizeofBool]
        omega
      have hsum : sizeofBool + str.length = (boolByte endUtterance :: str).length := by
        rw [sizeofBool, List.length_cons, Nat.add_comm]
      rw [bytes, sendOutput, toSizeT_eq (by omega), toInt32_eq (by omega) (by omega),
        toInt32_eq (by omega) (by omega), Int.toNat_natCast, List.take_length, hsum]
      rfl

/-- The receiver reads the header that was written. -/
theorem ofBytes_header {p : SentPacket} (h : p.Fits) :
    PacketHeader.ofBytes p.header.bytes = p.header := by
  have hlen : p.payload.length < 2 ^ 31 := h
  apply PacketHeader.ofBytes_bytes
  · show toInt32 (p.payload.length : Int) = p.payload.length
    exact toInt32_eq (by omega) (by omega)
  · show p.type.code < 2 ^ 32
    cases p.type <;> decide

end SentPacket

/-- Where the receiver is. -/
inductive ReceiverPc
  /-- in `Receive` for `sizeof(PacketHeader)` bytes -/
  | header (r : Receiving)
  /-- in `Receive` for `payload_length` bytes -/
  | payload (h : PacketHeader) (r : Receiving)
  deriving DecidableEq, Repr

/-- A connection with its two ends: the packets written, the bytes on their way and the
bytes taken off it, and the packets that the receiver has obtained. -/
structure PacketStream where
  sent : List SentPacket
  wire : List Byte
  consumed : List Byte
  pc : ReceiverPc
  received : List (Nat × List Byte)
  deriving DecidableEq, Repr

inductive StreamLabel
  /-- a packet is written -/
  | send (p : SentPacket)
  /-- `recv` returns, with at most `k` bytes -/
  | recv (k : Nat)
  /-- `Receive` returns -/
  | received
  deriving DecidableEq, Repr

namespace PacketStream

def create : PacketStream where
  sent := []
  wire := []
  consumed := []
  pc := .header (.start PacketHeader.size)
  received := []

def send (s : PacketStream) (p : SentPacket) : PacketStream :=
  { s with sent := s.sent ++ [p], wire := s.wire ++ p.bytes }

/-- The bytes of a call of `recv` leave the connection. -/
def take (s : PacketStream) (k : Nat) (pc : ReceiverPc) : PacketStream :=
  { s with wire := s.wire.drop k, consumed := s.consumed ++ s.wire.take k, pc }

/-- `recv` in one of the calls of `Receive`. -/
def recv (s : PacketStream) (k : Nat) : Option PacketStream :=
  match s.pc with
  | .header r => (r.recv (s.wire.take k)).map fun r' => s.take k (.header r')
  | .payload h r => (r.recv (s.wire.take k)).map fun r' => s.take k (.payload h r')

/-- A call of `Receive` returns, and the next one begins. -/
def receiveReturns (s : PacketStream) : Option PacketStream :=
  match s.pc with
  | .header r =>
      if r.Waiting then none
      else some { s with
        pc := .payload (.ofBytes r.received)
          (.start (PacketHeader.ofBytes r.received).payloadLength) }
  | .payload h r =>
      if r.Waiting then none
      else some { s with
        pc := .header (.start PacketHeader.size)
        received := s.received ++ [(h.type, r.received)] }

def step (s : PacketStream) : StreamLabel → Option PacketStream
  | .send p => some (s.send p)
  | .recv k => s.recv k
  | .received => s.receiveReturns

def system : Transition.System PacketStream StreamLabel where
  init := create
  step := step

/-- The packets that are written have lengths that are an `int`. -/
def Small (_ : PacketStream) : StreamLabel → Prop
  | .send p => p.Fits
  | _ => True

instance (s : PacketStream) (l : StreamLabel) : Decidable (s.Small l) :=
  match l with
  | .send p => inferInstanceAs (Decidable p.Fits)
  | .recv _ | .received => inferInstanceAs (Decidable True)

/-! ## The boundaries -/

/-- The bytes of a sequence of packets. -/
def bytesOf (packets : List SentPacket) : List Byte := packets.flatMap SentPacket.bytes

/-- What the receiver is to obtain of a packet. -/
def content (p : SentPacket) : Nat × List Byte := (p.type.code, p.payload)

/-- What has been taken off the connection of the packet in progress. -/
def inHand : ReceiverPc → List Byte
  | .header r => r.received
  | .payload h r => h.bytes ++ r.received

/-- The call of `Receive` in progress is the right one for what is still to come. -/
def Expects (todo : List SentPacket) : ReceiverPc → Prop
  | .header r => r.Bounded ∧ r.length = PacketHeader.size
  | .payload h r => r.Bounded ∧ ∃ p rest, todo = p :: rest ∧ h = p.header ∧
      r.length = p.payload.length

/-- The packets are received whole up to one of them, of which some bytes are in
hand; the others are on the connection. -/
structure Framed (s : PacketStream) (whole todo : List SentPacket) : Prop where
  sent : s.sent = whole ++ todo
  fits : ∀ p ∈ s.sent, p.Fits
  received : s.received = whole.map content
  consumed : s.consumed = bytesOf whole ++ inHand s.pc
  wire : inHand s.pc ++ s.wire = bytesOf todo
  expects : Expects todo s.pc

theorem framed_create : Framed create [] [] where
  sent := rfl
  fits := by simp [create]
  received := rfl
  consumed := rfl
  wire := rfl
  expects := ⟨Receiving.bounded_start _, rfl⟩

theorem bytesOf_append (packets packets' : List SentPacket) :
    bytesOf (packets ++ packets') = bytesOf packets ++ bytesOf packets' :=
  List.flatMap_append

theorem bytesOf_cons (p : SentPacket) (packets : List SentPacket) :
    bytesOf (p :: packets) = p.bytes ++ bytesOf packets :=
  List.flatMap_cons

theorem Expects.append {todo : List SentPacket} {pc : ReceiverPc} (h : Expects todo pc)
    (p : SentPacket) : Expects (todo ++ [p]) pc := by
  cases pc with
  | header r => exact h
  | payload hd r =>
      obtain ⟨hr, q, rest, rfl, hq, hlen⟩ := h
      exact ⟨hr, q, rest ++ [p], rfl, hq, hlen⟩

theorem Framed.send {s : PacketStream} {whole todo : List SentPacket} (h : Framed s whole todo)
    {p : SentPacket} (hp : p.Fits) : Framed (s.send p) whole (todo ++ [p]) := by
  refine ⟨?_, ?_, h.received, h.consumed, ?_, h.expects.append p⟩
  · rw [PacketStream.send, h.sent, List.append_assoc]
  · intro q hq
    rcases List.mem_append.mp hq with hq | hq
    · exact h.fits q hq
    · rwa [List.mem_singleton.mp hq]
  · show inHand s.pc ++ (s.wire ++ p.bytes) = bytesOf (todo ++ [p])
    rw [← List.append_assoc, h.wire, bytesOf_append, bytesOf_cons]
    exact congrArg (bytesOf todo ++ ·) (List.append_nil _).symm

/-- `recv` adds to the call of `Receive` what it takes off the connection. -/
theorem recv_cases {s t : PacketStream} {k : Nat} (h : s.recv k = some t) :
    (∃ r r', s.pc = .header r ∧ r.recv (s.wire.take k) = some r' ∧
      t = s.take k (.header r')) ∨
    ∃ hd r r', s.pc = .payload hd r ∧ r.recv (s.wire.take k) = some r' ∧
      t = s.take k (.payload hd r') := by
  rw [recv] at h
  split at h
  case h_1 r hpc =>
    obtain ⟨r', hr', rfl⟩ := Option.map_eq_some_iff.mp h
    exact Or.inl ⟨r, r', hpc, hr', rfl⟩
  case h_2 hd r hpc =>
    obtain ⟨r', hr', rfl⟩ := Option.map_eq_some_iff.mp h
    exact Or.inr ⟨hd, r, r', hpc, hr', rfl⟩

/-- The bytes move from the connection into the call in progress. -/
theorem Framed.take {s : PacketStream} {whole todo : List SentPacket} (h : Framed s whole todo)
    {k : Nat} {pc : ReceiverPc} (hhand : inHand pc = inHand s.pc ++ s.wire.take k)
    (hexpects : Expects todo pc) : Framed (s.take k pc) whole todo := by
  refine ⟨h.sent, h.fits, h.received, ?_, ?_, hexpects⟩
  · show s.consumed ++ s.wire.take k = bytesOf whole ++ inHand pc
    rw [h.consumed, hhand, List.append_assoc]
  · show inHand pc ++ s.wire.drop k = bytesOf todo
    rw [hhand, List.append_assoc, List.take_append_drop, h.wire]

theorem Framed.recv {s t : PacketStream} {whole todo : List SentPacket} (h : Framed s whole todo)
    {k : Nat} (hs : s.recv k = some t) : Framed t whole todo := by
  have hexpects := h.expects
  rcases recv_cases hs with ⟨r, r', hpc, hr', rfl⟩ | ⟨hd, r, r', hpc, hr', rfl⟩
  · rw [hpc] at hexpects
    have hbounded := Receiving.recv_bounded hr'
    obtain ⟨-, -, -, rfl⟩ := Receiving.recv_cases hr'
    refine h.take ?_ ⟨hbounded, hexpects.2⟩
    rw [hpc]
    rfl
  · rw [hpc] at hexpects
    have hbounded := Receiving.recv_bounded hr'
    obtain ⟨-, -, -, rfl⟩ := Receiving.recv_cases hr'
    refine h.take ?_ ⟨hbounded, hexpects.2⟩
    rw [hpc]
    exact (List.append_assoc _ _ _).symm

/-- When the header is complete, it is that of the next packet. -/
theorem Framed.header_complete {s : PacketStream} {whole todo : List SentPacket}
    (h : Framed s whole todo) {r : Receiving} (hpc : s.pc = .header r) (hdone : ¬ r.Waiting) :
    ∃ p rest, todo = p :: rest ∧ p.Fits ∧ r.received = p.header.bytes ∧
      s.wire = p.payload ++ bytesOf rest := by
  have hexpects := h.expects
  have hwire := h.wire
  rw [hpc] at hexpects hwire
  obtain ⟨hbounded, hlength⟩ := hexpects
  have hsize := hbounded.length_eq hdone
  rw [hlength] at hsize
  cases todo with
  | nil =>
      -- there would be bytes that nobody has written
      have hnil : r.received = [] := (List.append_eq_nil_iff.mp hwire).1
      rw [hnil] at hsize
      cases hsize
  | cons p rest =>
      have hfits : p.Fits := h.fits p (by rw [h.sent]; simp)
      rw [bytesOf_cons, SentPacket.bytes_eq hfits, List.append_assoc] at hwire
      obtain ⟨hheader, hrest⟩ := List.append_inj hwire hsize
      exact ⟨p, rest, rfl, hfits, hheader, hrest⟩

/-- When the payload is complete, it is that of the packet. -/
theorem Framed.payload_complete {s : PacketStream} {whole todo : List SentPacket}
    (h : Framed s whole todo) {hd : PacketHeader} {r : Receiving}
    (hpc : s.pc = .payload hd r) (hdone : ¬ r.Waiting) :
    ∃ p rest, todo = p :: rest ∧ p.Fits ∧ hd = p.header ∧ r.received = p.payload ∧
      s.wire = bytesOf rest := by
  have hexpects := h.expects
  have hwire := h.wire
  rw [hpc] at hexpects hwire
  obtain ⟨hbounded, p, rest, rfl, rfl, hlength⟩ := hexpects
  have hsize := hbounded.length_eq hdone
  rw [hlength, Int.toNat_natCast] at hsize
  have hfits : p.Fits := h.fits p (by rw [h.sent]; simp)
  rw [bytesOf_cons, SentPacket.bytes_eq hfits, List.append_assoc, inHand,
    List.append_assoc] at hwire
  obtain ⟨hpayload, hrest⟩ := List.append_inj (List.append_cancel_left hwire) hsize
  exact ⟨p, rest, rfl, hfits, rfl, hpayload, hrest⟩

/-- The header of the next packet is known. -/
theorem Framed.header_returns {s : PacketStream} {whole rest : List SentPacket} {p : SentPacket}
    (h : Framed s whole (p :: rest)) {r : Receiving} (hpc : s.pc = .header r)
    (hheader : r.received = p.header.bytes) :
    Framed { s with pc := .payload p.header (.start p.header.payloadLength) } whole
      (p :: rest) := by
  have hconsumed := h.consumed
  have hwire := h.wire
  rw [hpc, inHand, hheader] at hconsumed hwire
  refine ⟨h.sent, h.fits, h.received, ?_, ?_, ?_⟩
  · rw [hconsumed, inHand, Receiving.start, List.append_nil]
  · rw [inHand, Receiving.start, List.append_nil]
    exact hwire
  · exact ⟨Receiving.bounded_start _, p, rest, rfl, rfl, rfl⟩

/-- A packet is whole. -/
theorem Framed.payload_returns {s : PacketStream} {whole rest : List SentPacket}
    {p : SentPacket} (h : Framed s whole (p :: rest)) (hfits : p.Fits) {r : Receiving}
    (hpc : s.pc = .payload p.header r) (hpayload : r.received = p.payload)
    (hrest : s.wire = bytesOf rest) :
    Framed { s with
        pc := .header (.start PacketHeader.size)
        received := s.received ++ [(p.header.type, r.received)] } (whole ++ [p]) rest := by
  have hconsumed := h.consumed
  rw [hpc, inHand, hpayload, ← SentPacket.bytes_eq hfits] at hconsumed
  refine ⟨?_, h.fits, ?_, ?_, hrest, ⟨Receiving.bounded_start _, rfl⟩⟩
  · rw [h.sent, List.append_assoc]
    rfl
  · rw [h.received, hpayload, List.map_append]
    rfl
  · rw [hconsumed, inHand, Receiving.start, bytesOf_append, bytesOf_cons]
    simp [bytesOf]

theorem Framed.receiveReturns {s t : PacketStream} {whole todo : List SentPacket}
    (h : Framed s whole todo) (hs : s.receiveReturns = some t) :
    ∃ whole' todo', Framed t whole' todo' := by
  rw [PacketStream.receiveReturns] at hs
  split at hs
  case h_1 r hpc =>
    obtain ⟨hdone, hs⟩ := Option.ite_none_left_eq_some.mp hs
    obtain rfl := Option.some.inj hs
    obtain ⟨p, rest, rfl, hfits, hheader, -⟩ := h.header_complete hpc hdone
    rw [hheader, SentPacket.ofBytes_header hfits]
    exact ⟨whole, p :: rest, h.header_returns hpc hheader⟩
  case h_2 hd r hpc =>
    obtain ⟨hdone, hs⟩ := Option.ite_none_left_eq_some.mp hs
    obtain rfl := Option.some.inj hs
    obtain ⟨p, rest, rfl, hfits, rfl, hpayload, hrest⟩ := h.payload_complete hpc hdone
    exact ⟨whole ++ [p], rest, h.payload_returns hfits hpc hpayload hrest⟩

theorem framed_of_reachable {s : PacketStream} (h : system.ReachableVia Small s) :
    ∃ whole todo, Framed s whole todo := by
  refine h.invariant (fun s => ∃ whole todo, Framed s whole todo) ⟨[], [], framed_create⟩ ?_
  intro s l t _ hok hinv hs
  obtain ⟨whole, todo, hframed⟩ := hinv
  cases l with
  | send p =>
      obtain rfl := Option.some.inj hs
      exact ⟨whole, todo ++ [p], hframed.send hok⟩
  | recv k => exact ⟨whole, todo, hframed.recv hs⟩
  | received => exact hframed.receiveReturns hs

/-! ## All packets arrive -/

/-- The rest of what the call of `Receive` in progress asks for is received. -/
theorem Framed.leads_full {s : PacketStream} {whole todo : List SentPacket}
    (h : Framed s whole todo) {r : Receiving} (pc : Receiving → ReceiverPc)
    (hpc : s.pc = pc r)
    (hrecv : ∀ k, s.recv k = (r.recv (s.wire.take k)).map fun r' => s.take k (pc r'))
    (henough : r.length ≤ (r.received ++ s.wire).length) :
    ∃ t r', system.Leads s t ∧ Framed t whole todo ∧ t.pc = pc r' ∧ ¬ r'.Waiting ∧
      t.sent = s.sent := by
  by_cases hwait : r.Waiting
  · obtain ⟨k, r', hr', -, hdone, -⟩ := Receiving.recv_rest hwait henough
    have hstep : s.recv k = some (s.take k (pc r')) := by
      rw [hrecv k, hr']
      rfl
    exact ⟨_, r', .head (e := .recv k) hstep (.refl _), h.recv hstep, rfl, hdone, rfl⟩
  · exact ⟨s, r, .refl s, h, hpc, hwait, rfl⟩

/-- Where a packet is still to come, the rest of its header is on the connection, -/
theorem Framed.header_enough {s : PacketStream} {whole rest : List SentPacket}
    {p : SentPacket} (h : Framed s whole (p :: rest)) {r : Receiving} (hpc : s.pc = .header r) :
    r.length ≤ (r.received ++ s.wire).length := by
  have hfits : p.Fits := h.fits p (by rw [h.sent]; simp)
  have hexpects := h.expects
  have hwire := h.wire
  rw [hpc] at hexpects hwire
  have hbytes : r.received ++ s.wire = bytesOf (p :: rest) := hwire
  rw [hbytes, hexpects.2, bytesOf_cons, SentPacket.bytes_eq hfits, List.append_assoc,
    List.length_append, PacketHeader.bytes_length]
  omega

/-- and the rest of its payload. -/
theorem Framed.payload_enough {s : PacketStream} {whole rest : List SentPacket}
    {p : SentPacket} (h : Framed s whole (p :: rest)) {hd : PacketHeader} {r : Receiving}
    (hpc : s.pc = .payload hd r) :
    hd = p.header ∧ r.length ≤ (r.received ++ s.wire).length := by
  have hfits : p.Fits := h.fits p (by rw [h.sent]; simp)
  have hexpects := h.expects
  have hwire := h.wire
  rw [hpc] at hexpects hwire
  obtain ⟨-, q, rest', heq, rfl, hlength⟩ := hexpects
  obtain ⟨rfl, rfl⟩ := List.cons.inj heq
  rw [bytesOf_cons, SentPacket.bytes_eq hfits, List.append_assoc, inHand,
    List.append_assoc] at hwire
  refine ⟨rfl, ?_⟩
  rw [List.append_cancel_left hwire, hlength, List.length_append]
  omega

/-- A receiver that can do nothing has nothing left to receive. -/
theorem Framed.todo_nil {s : PacketStream} {whole todo : List SentPacket}
    (h : Framed s whole todo) (hrecv : ∀ k, s.recv k = none)
    (hreturns : s.receiveReturns = none) : todo = [] := by
  cases todo with
  | nil => rfl
  | cons p rest =>
      cases hpc : s.pc with
      | header r =>
          rcases Receiving.returns_or_recv (h.header_enough hpc) with hdone | ⟨k, r', hr'⟩
          · simp [PacketStream.receiveReturns, hpc, hdone] at hreturns
          · have hnone := hrecv k
            simp [PacketStream.recv, hpc, hr'] at hnone
      | payload hd r =>
          rcases Receiving.returns_or_recv (h.payload_enough hpc).2 with hdone | ⟨k, r', hr'⟩
          · simp [PacketStream.receiveReturns, hpc, hdone] at hreturns
          · have hnone := hrecv k
            simp [PacketStream.recv, hpc, hr'] at hnone

/-- The next packet is received. -/
theorem Framed.leads_packet {s : PacketStream} {whole rest : List SentPacket} {p : SentPacket}
    (h : Framed s whole (p :: rest)) :
    ∃ t, system.Leads s t ∧ Framed t (whole ++ [p]) rest ∧ t.sent = s.sent := by
  have hfits : p.Fits := h.fits p (by rw [h.sent]; simp)
  -- the header first, if it has not been received yet
  obtain ⟨t, r, hst, ht, hpc, hsent⟩ : ∃ t r, system.Leads s t ∧
      Framed t whole (p :: rest) ∧ t.pc = .payload p.header r ∧ t.sent = s.sent := by
    cases hpc : s.pc with
    | payload hd r =>
        obtain ⟨rfl, -⟩ := h.payload_enough hpc
        exact ⟨s, r, .refl s, h, hpc, rfl⟩
    | header r =>
        have hrecv : ∀ k, s.recv k =
            (r.recv (s.wire.take k)).map fun r' => s.take k (.header r') := by
          intro k
          rw [PacketStream.recv, hpc]
        obtain ⟨t, r', hst, ht, hpc', hdone, hsent⟩ :=
          h.leads_full .header hpc hrecv (h.header_enough hpc)
        obtain ⟨q, rest', heq, -, hheader, -⟩ := ht.header_complete hpc' hdone
        obtain ⟨rfl, rfl⟩ := List.cons.inj heq
        have hstep : t.receiveReturns = some
            { t with pc := .payload p.header (.start p.header.payloadLength) } := by
          rw [PacketStream.receiveReturns, hpc']
          simp only [hdone, if_false, hheader, SentPacket.ofBytes_header hfits]
        exact ⟨_, _, hst.trans (.head (e := .received) hstep (.refl _)),
          ht.header_returns hpc' hheader, rfl, hsent⟩
  -- then the payload
  have hrecv : ∀ k, t.recv k =
      (r.recv (t.wire.take k)).map fun r' => t.take k (.payload p.header r') := by
    intro k
    rw [PacketStream.recv, hpc]
  obtain ⟨u, r', htu, hu, hpc', hdone, hsent'⟩ :=
    ht.leads_full (.payload p.header) hpc hrecv (ht.payload_enough hpc).2
  obtain ⟨q, rest', heq, -, -, hpayload, hrest⟩ := hu.payload_complete hpc' hdone
  obtain ⟨rfl, rfl⟩ := List.cons.inj heq
  have hstep : u.receiveReturns = some { u with
      pc := .header (.start PacketHeader.size)
      received := u.received ++ [(p.header.type, r'.received)] } := by
    rw [PacketStream.receiveReturns, hpc']
    simp only [hdone, if_false]
  exact ⟨_, (hst.trans htu).trans (.head (e := .received) hstep (.refl _)),
    hu.payload_returns hfits hpc' hpayload hrest, hsent'.trans hsent⟩

/-- The receiver's own steps obtain all that is on the connection. -/
theorem Framed.leads_all {s : PacketStream} {whole todo : List SentPacket}
    (h : Framed s whole todo) :
    ∃ t, system.Leads s t ∧ Framed t (whole ++ todo) [] ∧ t.sent = s.sent := by
  induction todo generalizing s whole with
  | nil => exact ⟨s, .refl s, by rwa [List.append_nil], rfl⟩
  | cons p rest ih =>
      obtain ⟨t, hst, ht, hsent⟩ := h.leads_packet
      obtain ⟨u, htu, hu, hsent'⟩ := ih ht
      rw [List.append_assoc] at hu
      exact ⟨u, hst.trans htu, hu, hsent'.trans hsent⟩

/-- **Boundaries do not drift.**  However the stream is cut, the receiver has obtained a
beginning of the sequence of packets sent, each with its type and its payload, and has
taken off the connection the bytes of these packets and what the call in progress has.
A receiver that can take nothing more has obtained the whole sequence, and its own steps
lead there from everywhere. -/
theorem packets_received {s : PacketStream} (hs : system.ReachableVia Small s) :
    (∃ whole todo, s.sent = whole ++ todo ∧ s.received = whole.map content ∧
      s.consumed = bytesOf whole ++ inHand s.pc ∧ s.consumed ++ s.wire = bytesOf s.sent) ∧
    ((∀ k, s.recv k = none) → s.receiveReturns = none →
      s.received = s.sent.map content ∧ s.consumed = bytesOf s.sent) ∧
    ∃ t, system.Leads s t ∧ t.sent = s.sent ∧ t.received = s.sent.map content ∧
      t.consumed = bytesOf s.sent ∧ t.wire = [] := by
  obtain ⟨whole, todo, h⟩ := framed_of_reachable hs
  refine ⟨⟨whole, todo, h.sent, h.received, h.consumed, ?_⟩, ?_, ?_⟩
  · rw [h.consumed, List.append_assoc, h.wire, h.sent, bytesOf_append]
  · intro hrecv hreturns
    obtain rfl := h.todo_nil hrecv hreturns
    obtain ⟨hhand, -⟩ : inHand s.pc = [] ∧ s.wire = [] := List.append_eq_nil_iff.mp h.wire
    rw [h.received, h.consumed, h.sent, hhand, List.append_nil, List.append_nil]
    exact ⟨rfl, rfl⟩
  · obtain ⟨t, hst, ht, hsent⟩ := h.leads_all
    obtain ⟨hhand, hwire⟩ : inHand t.pc = [] ∧ t.wire = [] :=
      List.append_eq_nil_iff.mp ht.wire
    refine ⟨t, hst, hsent, ?_, ?_, hwire⟩
    · rw [ht.received, h.sent]
    · rw [ht.consumed, hhand, List.append_nil, h.sent]

/-- A packet without a payload and a string, cut within the header of the first and
across the boundary that follows. -/
theorem packets_received_split :
    ∃ s : PacketStream, s.received = [(1, []), (5, [1, 97])] ∧ s.wire = [] ∧
      (∃ whole todo, s.sent = whole ++ todo ∧ s.received = whole.map content ∧
        s.consumed = bytesOf whole ++ inHand s.pc ∧ s.consumed ++ s.wire = bytesOf s.sent) ∧
      ((∀ k, s.recv k = none) → s.receiveReturns = none →
        s.received = s.sent.map content ∧ s.consumed = bytesOf s.sent) ∧
      ∃ t, system.Leads s t ∧ t.sent = s.sent ∧ t.received = s.sent.map content ∧
        t.consumed = bytesOf s.sent ∧ t.wire = [] := by
  obtain ⟨s, hrun, hreceived, hwire⟩ : ∃ s, system.runVia Small system.init
      [.send (.packet .decodeAccept []), .send (.output true [97]), .recv 3, .recv 5, .received,
        .received, .recv 1, .recv 7, .received, .recv 1, .recv 1, .received] = some s ∧
      s.received = [(1, []), (5, [1, 97])] ∧ s.wire = [] := ⟨_, rfl, rfl, rfl⟩
  exact ⟨s, hreceived, hwire, packets_received (Transition.System.ReachableVia.init.run hrun)⟩

end PacketStream

end ThreadedServer
