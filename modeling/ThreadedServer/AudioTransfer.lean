import ThreadedServer.Exchange
import ThreadedServer.Socket

/-!
# Audio from the client to the server

`RemoteAudioSource::Read` asks the client for as many samples as `data` holds and
waits for a packet of them; `speechclient` sends what it has, at most as many as
are asked for, and moves its position on by what was asked for.  The position and
the request are counted in samples, the length of the packet in bytes; there are
conversions between `int` and `size_t` on both sides.

The two programs take steps in any order, the bytes of a packet arrive in any
pieces, and outputs of the decoder travel to the client between the requests.
Still the blocks that `Read` stores are the wave cut at the sums of the requests.
-/

namespace ThreadedServer

/-- A `Read` that has returned. -/
structure AudioBlock where
  /-- `data->Dim()` -/
  requested : Nat
  /-- the samples stored in `data`, from its front on -/
  samples : List Sample
  returned : Int
  deriving DecidableEq, Repr

/-- The samples stored, cut to the count returned. -/
def AudioBlock.stored (b : AudioBlock) : List Sample := b.samples.take b.returned.toNat

/-- Control points of `Read`. -/
inductive ReadPc
  /-- not called -/
  | idle
  /-- receiving the header, for `n` samples -/
  | header (n : Nat) (r : Receiving)
  /-- receiving the payload -/
  | payload (n : Nat) (payloadLength : Int) (r : Receiving)
  /-- `exit(1)`: wrong packet type -/
  | exited
  deriving DecidableEq, Repr

/-- The client's `pos`, what is on its way, the server in or outside `Read`, and what
has happened, the last first: the requests handled by the client, those issued, and the
blocks read. -/
structure AudioTransfer where
  pos : Int
  toClient : List ServerPacket
  toServer : List Byte
  pc : ReadPc
  handled : List Nat
  issued : List Nat
  blocks : List AudioBlock
  deriving DecidableEq, Repr

inductive AudioLabel
  /-- an iteration of the client's loop -/
  | client
  /-- the server sends an output -/
  | output (endUtterance : Bool)
  /-- `Read` is called for `n` samples -/
  | read (n : Nat)
  /-- `recv` returns, with at most `k` bytes -/
  | recv (k : Nat)
  /-- `Receive` returns -/
  | received
  deriving DecidableEq, Repr

namespace AudioTransfer

def create : AudioTransfer where
  pos := 0
  toClient := []
  toServer := []
  pc := .idle
  handled := []
  issued := []
  blocks := []

/-- The client is in its loop. -/
def Inside (wave : List Sample) (s : AudioTransfer) : Prop := s.pos < wave.length

instance (wave : List Sample) (s : AudioTransfer) : Decidable (s.Inside wave) :=
  inferInstanceAs (Decidable (_ < _))

/-- `min(length-pos, req.num_samples) * sizeof(float)`, passed as an `int`. -/
def payloadLength (length : Nat) (pos : Int) (numSamples : Nat) : Int :=
  toInt32 (toSizeT (toSizeT (min (length - pos) numSamples) * sizeofFloat))

/-- An iteration of the client's loop. -/
def client (wave : List Sample) (s : AudioTransfer) : Option AudioTransfer :=
  if s.Inside wave then
    match s.toClient with
    | [] => none
    | .dataWaveRequest n :: rest =>
        some { s with
          toClient := rest
          toServer := s.toServer ++ sendPacket .dataWave (payloadLength wave.length s.pos n)
            ((sampleBytes wave).drop (sizeofFloat * s.pos.toNat))
          pos := toInt32 (s.pos + n)
          handled := n :: s.handled }
    | .decodeOutput _ :: rest => some { s with toClient := rest }
  else none

/-- The server sends an output; it does so between its calls of `Read`. -/
def output (s : AudioTransfer) (endUtterance : Bool) : Option AudioTransfer :=
  if s.pc = .idle then
    some { s with toClient := s.toClient ++ [.decodeOutput endUtterance] }
  else none

/-- `Read` sends its request and calls `Receive` for the header. -/
def read (s : AudioTransfer) (n : Nat) : Option AudioTransfer :=
  if s.pc = .idle then
    some { s with
      toClient := s.toClient ++ [.dataWaveRequest n]
      pc := .header n (.start PacketHeader.size)
      issued := n :: s.issued }
  else none

/-- `recv` in one of the calls of `Receive`. -/
def recv (s : AudioTransfer) (k : Nat) : Option AudioTransfer :=
  match s.pc with
  | .header n r => (r.recv (s.toServer.take k)).map fun r' =>
      { s with toServer := s.toServer.drop k, pc := .header n r' }
  | .payload n payloadLength r => (r.recv (s.toServer.take k)).map fun r' =>
      { s with toServer := s.toServer.drop k, pc := .payload n payloadLength r' }
  | _ => none

/-- `header.payload_length / sizeof(BaseFloat)`, returned as an `int32`. -/
def samplesReturned (payloadLength : Int) : Int := payloadSamples payloadLength

/-- A call of `Receive` returns. -/
def received (s : AudioTransfer) : Option AudioTransfer :=
  match s.pc with
  | .header n r =>
      if r.Waiting then none
      else
        let header := PacketHeader.ofBytes r.received
        if header.type ≠ PacketType.dataWave.code then some { s with pc := .exited }
        else some { s with
          pc := .payload n header.payloadLength (.start header.payloadLength) }
  | .payload n payloadLength r =>
      if r.Waiting then none
      else some { s with
        pc := .idle
        blocks := ⟨n, bytesSamples r.received, samplesReturned payloadLength⟩ :: s.blocks }
  | _ => none

def step (wave : List Sample) (s : AudioTransfer) : AudioLabel → Option AudioTransfer
  | .client => s.client wave
  | .output endUtterance => s.output endUtterance
  | .read n => s.read n
  | .recv k => s.recv k
  | .received => s.received

/-- The client with its wave and the server, under all orders of their steps. -/
def system (wave : List Sample) : Transition.System AudioTransfer AudioLabel where
  init := create
  step := step wave

/-- The requests are positive, and small enough to be counted in bytes. -/
def Small (wave : List Sample) (_ : AudioTransfer) : AudioLabel → Prop
  | .read n => 0 < n ∧ wave.length + n < 2 ^ 29
  | _ => True

instance (wave : List Sample) (s : AudioTransfer) (l : AudioLabel) :
    Decidable (Small wave s l) :=
  match l with
  | .read _ => inferInstanceAs (Decidable (_ ∧ _))
  | .client | .output _ | .recv _ | .received => inferInstanceAs (Decidable True)

/-! ## The packet of a request -/

/-- What the client sends in answer to a request of `n` samples at `start`. -/
def packet (wave : List Sample) (start n : Nat) : List Byte :=
  (PacketHeader.mk ↑(sizeofFloat * min (wave.length - start) n) PacketType.dataWave.code).bytes ++
    sampleBytes ((wave.drop start).take n)

theorem payloadLength_eq {length start n : Nat} (hstart : start < length)
    (hsmall : length + n < 2 ^ 29) :
    payloadLength length start n = ↑(sizeofFloat * min (length - start) n) := by
  have hmin : min ((length : Int) - start) n = ↑(min (length - start) n) := by omega
  have hproduct : ((min (length - start) n : Nat) : Int) * (sizeofFloat : Nat) =
      ↑(sizeofFloat * min (length - start) n) := by
    rw [Int.natCast_mul, Int.mul_comm]
  have hbound : sizeofFloat * min (length - start) n < 2 ^ 31 := by
    rw [sizeofFloat]
    omega
  rw [payloadLength, hmin, toSizeT_eq (by omega), hproduct, toSizeT_eq (by omega),
    toInt32_eq (by omega) (by omega)]

theorem sendPacket_eq {wave : List Sample} {start n : Nat} (hstart : start < wave.length)
    (hsmall : wave.length + n < 2 ^ 29) :
    sendPacket .dataWave (payloadLength wave.length start n)
        ((sampleBytes wave).drop (sizeofFloat * (start : Int).toNat)) =
      packet wave start n := by
  have hcut : (wave.drop start).take (min (wave.length - start) n) =
      (wave.drop start).take n := by
    rw [← List.length_drop, Nat.min_comm, ← List.take_take, List.take_length]
  rw [sendPacket, payloadLength_eq hstart hsmall, Int.toNat_natCast, Int.toNat_natCast,
    sampleBytes_drop, sampleBytes_take, hcut, packet]

theorem samplesReturned_eq {m : Nat} (h : sizeofFloat * m < 2 ^ 31) :
    samplesReturned ↑(sizeofFloat * m) = m := by
  rw [sizeofFloat] at h ⊢
  rw [samplesReturned, payloadSamples_eq (by omega) (by omega)]
  omega

/-! ## The invariant -/

/-- The sizes asked for by the Reads that have returned. -/
def requested (blocks : List AudioBlock) : List Nat := blocks.map AudioBlock.requested

/-- The wave cut at the sums of the requests; there was something left for each
block. -/
def Cut (wave : List Sample) : List AudioBlock → Prop
  | [] => True
  | b :: older => (requested older).sum < wave.length ∧
      b.samples = (wave.drop (requested older).sum).take b.requested ∧
      b.returned = b.samples.length ∧ Cut wave older

theorem Cut.cons {wave : List Sample} {older : List AudioBlock} {n : Nat}
    {samples : List Sample} {returned : Int} (h : Cut wave older)
    (hstart : (requested older).sum < wave.length)
    (hsamples : samples = (wave.drop (requested older).sum).take n)
    (hreturned : returned = samples.length) : Cut wave (⟨n, samples, returned⟩ :: older) :=
  ⟨hstart, hsamples, hreturned, h⟩

/-- The requests on their way to the client. -/
def requests (toClient : List ServerPacket) : List Nat :=
  toClient.filterMap fun
    | .dataWaveRequest n => some n
    | .decodeOutput _ => none

/-- Where the `Read` in progress is.  `done` are the requests of those that have
returned. -/
inductive Link (wave : List Sample) (done : List Nat) :
    ReadPc → List Nat → List Byte → List Nat → List Nat → Prop
  | idle : Link wave done .idle [] [] done done
  /-- the request has not reached the client's loop -/
  | asked (n : Nat) :
      Link wave done (.header n (.start PacketHeader.size)) [n] [] done (n :: done)
  /-- its answer is partly received and partly on its way -/
  | answered (n : Nat) (r : Receiving) (toServer : List Byte)
      (hstart : done.sum < wave.length) (hr : r.Bounded) (hlen : r.length = PacketHeader.size)
      (hbytes : r.received ++ toServer = packet wave done.sum n) :
      Link wave done (.header n r) [] toServer (n :: done) (n :: done)
  | storing (n : Nat) (p : Int) (r : Receiving) (toServer : List Byte)
      (hstart : done.sum < wave.length) (hr : r.Bounded)
      (hp : p = ↑(sizeofFloat * min (wave.length - done.sum) n)) (hlen : r.length = p)
      (hbytes : r.received ++ toServer = sampleBytes ((wave.drop done.sum).take n)) :
      Link wave done (.payload n p r) [] toServer (n :: done) (n :: done)

/-- What holds of the client and the server in every run with small requests. -/
structure Linked (wave : List Sample) (s : AudioTransfer) : Prop where
  small : ∀ n ∈ s.issued, 0 < n ∧ wave.length + n < 2 ^ 29
  pos : s.pos = s.handled.sum
  handled : s.handled.sum < 2 ^ 29
  cut : Cut wave s.blocks
  link : Link wave (requested s.blocks) s.pc (requests s.toClient) s.toServer s.handled s.issued

theorem linked_create (wave : List Sample) : Linked wave create where
  small := by simp [create]
  pos := rfl
  handled := by simp [create]
  cut := trivial
  link := .idle

theorem requests_append (p q : List ServerPacket) :
    requests (p ++ q) = requests p ++ requests q :=
  List.filterMap_append

/-- The client has taken a packet off its connection. -/
theorem client_cases {wave : List Sample} {s s' : AudioTransfer}
    (h : s.client wave = some s') :
    s.Inside wave ∧
      ((∃ n rest, s.toClient = .dataWaveRequest n :: rest ∧
        s' = { s with
          toClient := rest
          toServer := s.toServer ++ sendPacket .dataWave (payloadLength wave.length s.pos n)
            ((sampleBytes wave).drop (sizeofFloat * s.pos.toNat))
          pos := toInt32 (s.pos + n)
          handled := n :: s.handled }) ∨
      ∃ e rest, s.toClient = .decodeOutput e :: rest ∧ s' = { s with toClient := rest }) := by
  rw [client] at h
  obtain ⟨hinside, h⟩ := Option.ite_none_right_eq_some.mp h
  refine ⟨hinside, ?_⟩
  split at h
  case h_1 => cases h
  case h_2 n rest hpackets => exact Or.inl ⟨n, rest, hpackets, (Option.some.inj h).symm⟩
  case h_3 e rest hpackets => exact Or.inr ⟨e, rest, hpackets, (Option.some.inj h).symm⟩

section Link

variable {wave : List Sample} {done rs handled issued : List Nat} {toServer : List Byte}

/-- A request on its way is the only one, and nothing is on the way back. -/
theorem Link.pending {pc : ReadPc} {n : Nat}
    (h : Link wave done pc (n :: rs) toServer handled issued) :
    pc = .header n (.start PacketHeader.size) ∧ rs = [] ∧ toServer = [] ∧ handled = done ∧
      issued = n :: done := by
  cases h
  exact ⟨rfl, rfl, rfl, rfl, rfl⟩

theorem Link.of_idle (h : Link wave done .idle rs toServer handled issued) :
    rs = [] ∧ toServer = [] ∧ handled = done ∧ issued = done := by
  cases h
  exact ⟨rfl, rfl, rfl, rfl⟩

theorem Link.of_header {n : Nat} {r : Receiving}
    (h : Link wave done (.header n r) rs toServer handled issued) :
    issued = n :: done ∧
      (r = .start PacketHeader.size ∧ rs = [n] ∧ toServer = [] ∧ handled = done ∨
        rs = [] ∧ handled = n :: done ∧ done.sum < wave.length ∧ r.Bounded ∧
          r.length = PacketHeader.size ∧ r.received ++ toServer = packet wave done.sum n) := by
  cases h with
  | asked => exact ⟨rfl, Or.inl ⟨rfl, rfl, rfl, rfl⟩⟩
  | answered _ _ _ hstart hr hlen hbytes =>
      exact ⟨rfl, Or.inr ⟨rfl, rfl, hstart, hr, hlen, hbytes⟩⟩

theorem Link.of_payload {n : Nat} {p : Int} {r : Receiving}
    (h : Link wave done (.payload n p r) rs toServer handled issued) :
    rs = [] ∧ handled = n :: done ∧ issued = n :: done ∧ done.sum < wave.length ∧
      r.Bounded ∧ p = ↑(sizeofFloat * min (wave.length - done.sum) n) ∧ r.length = p ∧
      r.received ++ toServer = sampleBytes ((wave.drop done.sum).take n) := by
  cases h with
  | storing _ _ _ _ hstart hr hp hlen hbytes =>
      exact ⟨rfl, rfl, rfl, hstart, hr, hp, hlen, hbytes⟩

end Link

theorem Linked.client {wave : List Sample} {s s' : AudioTransfer} (h : Linked wave s)
    (hs : s.client wave = some s') : Linked wave s' := by
  obtain ⟨hinside, ⟨n, rest, hpackets, rfl⟩ | ⟨e, rest, hpackets, rfl⟩⟩ := client_cases hs
  · have hlink := h.link
    have hrequests : requests s.toClient = n :: requests rest := by rw [hpackets]; rfl
    rw [hrequests] at hlink
    obtain ⟨hpc, hrest, hserver, hhandled, hissued⟩ := hlink.pending
    obtain ⟨hn, hsmall⟩ := h.small n (by rw [hissued]; exact List.mem_cons_self)
    have hpos := h.pos
    have hstart : (requested s.blocks).sum < wave.length := by
      rw [Inside, hpos, hhandled] at hinside
      exact Int.ofNat_lt.mp hinside
    have hsum : (n :: s.handled).sum = n + s.handled.sum := List.sum_cons
    rw [← hhandled] at hstart
    refine ⟨h.small, ?_, ?_, h.cut, ?_⟩
    · show toInt32 (s.pos + n) = ↑(n :: s.handled).sum
      rw [toInt32_eq (by omega) (by omega)]
      omega
    · show (n :: s.handled).sum < 2 ^ 29
      omega
    · show Link wave (requested s.blocks) s.pc (requests rest) (s.toServer ++ _) (n :: s.handled)
        s.issued
      rw [hpc, hrest, hserver, hissued, hpos, sendPacket_eq hstart hsmall, hhandled]
      rw [hhandled] at hstart
      exact .answered n _ _ hstart (Receiving.bounded_start _) rfl rfl
  · have hlink := h.link
    rw [hpackets] at hlink
    exact ⟨h.small, h.pos, h.handled, h.cut, hlink⟩

theorem Linked.output {wave : List Sample} {s s' : AudioTransfer} {e : Bool}
    (h : Linked wave s) (hs : s.output e = some s') : Linked wave s' := by
  obtain ⟨-, hs⟩ := Option.ite_none_right_eq_some.mp hs
  obtain rfl := Option.some.inj hs
  refine ⟨h.small, h.pos, h.handled, h.cut, ?_⟩
  have hsame : requests (s.toClient ++ [.decodeOutput e]) = requests s.toClient := by
    rw [requests_append]
    exact List.append_nil _
  show Link wave (requested s.blocks) s.pc (requests (s.toClient ++ [.decodeOutput e]))
    s.toServer s.handled s.issued
  rw [hsame]
  exact h.link

theorem Linked.read {wave : List Sample} {s s' : AudioTransfer} {n : Nat}
    (h : Linked wave s) (hn : 0 < n) (hsmall : wave.length + n < 2 ^ 29)
    (hs : s.read n = some s') : Linked wave s' := by
  obtain ⟨hidle, hs⟩ := Option.ite_none_right_eq_some.mp hs
  obtain rfl := Option.some.inj hs
  have hlink := h.link
  rw [hidle] at hlink
  obtain ⟨hrequests, hserver, hhandled, hissued⟩ := hlink.of_idle
  refine ⟨fun m hm => ?_, h.pos, h.handled, h.cut, ?_⟩
  · rcases List.mem_cons.mp hm with rfl | hm
    · exact ⟨hn, hsmall⟩
    · exact h.small m hm
  · have hasked : requests (s.toClient ++ [.dataWaveRequest n]) = [n] := by
      rw [requests_append, hrequests]
      rfl
    show Link wave (requested s.blocks) (.header n (.start PacketHeader.size))
      (requests (s.toClient ++ [.dataWaveRequest n])) s.toServer s.handled (n :: s.issued)
    rw [hasked, hserver, hhandled, hissued]
    exact .asked n

/-- `recv` takes bytes off the connection, in one of the two calls of `Receive`. -/
theorem recv_cases {s s' : AudioTransfer} {k : Nat} (h : s.recv k = some s') :
    (∃ n r r', s.pc = .header n r ∧ r.recv (s.toServer.take k) = some r' ∧
      s' = { s with toServer := s.toServer.drop k, pc := .header n r' }) ∨
    ∃ n p r r', s.pc = .payload n p r ∧ r.recv (s.toServer.take k) = some r' ∧
      s' = { s with toServer := s.toServer.drop k, pc := .payload n p r' } := by
  rw [recv] at h
  split at h
  case h_1 n r hpc =>
    obtain ⟨r', hr', rfl⟩ := Option.map_eq_some_iff.mp h
    exact Or.inl ⟨n, r, r', hpc, hr', rfl⟩
  case h_2 n p r hpc =>
    obtain ⟨r', hr', rfl⟩ := Option.map_eq_some_iff.mp h
    exact Or.inr ⟨n, p, r, r', hpc, hr', rfl⟩
  case h_3 => cases h

theorem Linked.recv {wave : List Sample} {s s' : AudioTransfer} {k : Nat}
    (h : Linked wave s) (hs : s.recv k = some s') : Linked wave s' := by
  have hlink := h.link
  rcases recv_cases hs with ⟨n, r, r', hpc, hr', rfl⟩ | ⟨n, p, r, r', hpc, hr', rfl⟩
  · rw [hpc] at hlink
    obtain ⟨hissued, ⟨rfl, -, hserver, -⟩ |
      ⟨hrequests, hhandled, hstart, -, hlen, hbytes⟩⟩ := hlink.of_header
    · -- there is nothing to receive yet
      obtain ⟨-, hpos, -, -⟩ := Receiving.recv_cases hr'
      rw [hserver, List.take_nil] at hpos
      exact absurd hpos (Nat.lt_irrefl 0)
    · have hbounded := Receiving.recv_bounded hr'
      obtain ⟨-, -, -, rfl⟩ := Receiving.recv_cases hr'
      refine ⟨h.small, h.pos, h.handled, h.cut, ?_⟩
      show Link wave (requested s.blocks) (.header n _) (requests s.toClient)
        (s.toServer.drop k) s.handled s.issued
      rw [hrequests, hhandled, hissued]
      refine .answered n _ _ hstart hbounded hlen ?_
      rw [List.append_assoc, List.take_append_drop]
      exact hbytes
  · rw [hpc] at hlink
    obtain ⟨hrequests, hhandled, hissued, hstart, -, hp, hlen, hbytes⟩ := hlink.of_payload
    have hbounded := Receiving.recv_bounded hr'
    obtain ⟨-, -, -, rfl⟩ := Receiving.recv_cases hr'
    refine ⟨h.small, h.pos, h.handled, h.cut, ?_⟩
    show Link wave (requested s.blocks) (.payload n p _) (requests s.toClient)
      (s.toServer.drop k) s.handled s.issued
    rw [hrequests, hhandled, hissued]
    refine .storing n p _ _ hstart hbounded hp hlen ?_
    rw [List.append_assoc, List.take_append_drop]
    exact hbytes

/-- `Receive` returns when it has all its bytes. -/
theorem received_cases {s s' : AudioTransfer} (h : s.received = some s') :
    (∃ n r, s.pc = .header n r ∧ ¬ r.Waiting ∧
      s' = { s with
        pc := if (PacketHeader.ofBytes r.received).type ≠ PacketType.dataWave.code then .exited
          else .payload n (PacketHeader.ofBytes r.received).payloadLength
            (.start (PacketHeader.ofBytes r.received).payloadLength) }) ∨
    ∃ n p r, s.pc = .payload n p r ∧ ¬ r.Waiting ∧
      s' = { s with
        pc := .idle
        blocks := ⟨n, bytesSamples r.received, samplesReturned p⟩ :: s.blocks } := by
  rw [received] at h
  split at h
  case h_1 n r hpc =>
    obtain ⟨hdone, h⟩ := Option.ite_none_left_eq_some.mp h
    refine Or.inl ⟨n, r, hpc, hdone, ?_⟩
    simp only at h
    split at h <;> rename_i htype
    · rw [if_pos htype]
      exact (Option.some.inj h).symm
    · rw [if_neg htype]
      exact (Option.some.inj h).symm
  case h_2 n p r hpc =>
    obtain ⟨hdone, h⟩ := Option.ite_none_left_eq_some.mp h
    exact Or.inr ⟨n, p, r, hpc, hdone, (Option.some.inj h).symm⟩
  case h_3 => cases h

theorem Linked.received {wave : List Sample} {s s' : AudioTransfer} (h : Linked wave s)
    (hs : s.received = some s') : Linked wave s' := by
  have hlink := h.link
  rcases received_cases hs with ⟨n, r, hpc, hdone, rfl⟩ | ⟨n, p, r, hpc, hdone, rfl⟩
  · rw [hpc] at hlink
    obtain ⟨hissued, ⟨rfl, -⟩ | ⟨hrequests, hhandled, hstart, hr, hlen, hbytes⟩⟩ :=
      hlink.of_header
    · exact absurd (by decide) hdone
    · -- the header has arrived and is the one the client sent
      have hsmall := (h.small n (by rw [hissued]; exact List.mem_cons_self)).2
      have hreceived := hr.length_eq hdone
      rw [hlen] at hreceived
      obtain ⟨hheader, hserver⟩ := List.append_inj hbytes hreceived
      have hbound : sizeofFloat * min (wave.length - (requested s.blocks).sum) n < 2 ^ 31 := by
        rw [sizeofFloat]
        omega
      have hparse := @PacketHeader.ofBytes_bytes
        ⟨↑(sizeofFloat * min (wave.length - (requested s.blocks).sum) n),
          PacketType.dataWave.code⟩ (toInt32_eq (by simp only; omega) (by simp only; omega))
        (show 2 < 2 ^ 32 by decide)
      rw [← hheader] at hparse
      refine ⟨h.small, h.pos, h.handled, h.cut, ?_⟩
      show Link wave (requested s.blocks) (if _ then _ else _) (requests s.toClient) s.toServer
        s.handled s.issued
      rw [hparse, if_neg (by simp), hrequests, hhandled, hissued, hserver]
      exact .storing n _ _ _ hstart (Receiving.bounded_start _) rfl rfl rfl
  · rw [hpc] at hlink
    obtain ⟨hrequests, hhandled, hissued, hstart, hr, hp, hlen, hbytes⟩ := hlink.of_payload
    have hsmall := (h.small n (by rw [hissued]; exact List.mem_cons_self)).2
    have hblock : ((wave.drop (requested s.blocks).sum).take n).length =
        min (wave.length - (requested s.blocks).sum) n := by
      rw [List.length_take, List.length_drop, Nat.min_comm]
    have hreceived := hr.length_eq hdone
    rw [hlen, hp, Int.toNat_natCast, ← hblock, ← sampleBytes_length] at hreceived
    obtain ⟨hstored, hserver⟩ := List.append_inj (hbytes.trans (List.append_nil _).symm) hreceived
    have hbound : sizeofFloat * min (wave.length - (requested s.blocks).sum) n < 2 ^ 31 := by
      rw [sizeofFloat]
      omega
    have hsamples : bytesSamples r.received = (wave.drop (requested s.blocks).sum).take n := by
      rw [hstored, bytesSamples_sampleBytes]
    have hreturned : samplesReturned p = ((bytesSamples r.received).length : Int) := by
      rw [hsamples, hblock, hp, samplesReturned_eq hbound]
    refine ⟨h.small, h.pos, h.handled, h.cut.cons hstart hsamples hreturned, ?_⟩
    · show Link wave (n :: requested s.blocks) .idle (requests s.toClient) s.toServer s.handled
        s.issued
      rw [hrequests, hhandled, hissued, hserver]
      exact .idle

theorem Linked.step {wave : List Sample} {s s' : AudioTransfer} {l : AudioLabel}
    (h : Linked wave s) (hok : Small wave s l) (hs : (system wave).step s l = some s') :
    Linked wave s' := by
  cases l with
  | client => exact h.client hs
  | output e => exact h.output hs
  | read n => exact h.read hok.1 hok.2 hs
  | recv k => exact h.recv hs
  | received => exact h.received hs

theorem linked_of_reachable {wave : List Sample} {s : AudioTransfer}
    (h : (system wave).ReachableVia (Small wave) s) : Linked wave s :=
  h.invariant (Linked wave) (linked_create wave) fun _ _ _ _ hok hi hs => hi.step hok hs

/-! ## What has been stored -/

theorem Cut.older {wave : List Sample} {newer older : List AudioBlock}
    (h : Cut wave (newer ++ older)) : Cut wave older := by
  induction newer with
  | nil => exact h
  | cons b newer ih => exact ih h.2.2.2

theorem Cut.stored {wave : List Sample} {older : List AudioBlock} {b : AudioBlock}
    (h : Cut wave (b :: older)) :
    b.stored = (wave.drop (requested older).sum).take b.requested := by
  obtain ⟨-, hsamples, hreturned, -⟩ := h
  rw [AudioBlock.stored, hreturned, Int.toNat_natCast, List.take_length, hsamples]

/-- The blocks make up the beginning of the wave. -/
theorem Cut.concat {wave : List Sample} {blocks : List AudioBlock} (h : Cut wave blocks) :
    blocks.reverse.flatMap AudioBlock.stored = wave.take (requested blocks).sum := by
  induction blocks with
  | nil => rfl
  | cons b older ih =>
      have hsum : (requested (b :: older)).sum = (requested older).sum + b.requested := by
        rw [requested, List.map_cons, List.sum_cons, Nat.add_comm]
        rfl
      rw [List.reverse_cons, List.flatMap_append, List.flatMap_singleton, ih h.2.2.2, h.stored,
        hsum, List.take_add]

/-- A block with another one behind it is full. -/
theorem Cut.full {wave : List Sample} {newer older : List AudioBlock} {b : AudioBlock}
    (h : Cut wave (newer ++ b :: older)) (hnewer : newer ≠ []) :
    b.stored.length = b.requested := by
  obtain ⟨front, c, rfl⟩ : ∃ front c, newer = front ++ [c] :=
    ⟨newer.dropLast, newer.getLast hnewer, (List.dropLast_append_getLast hnewer).symm⟩
  rw [List.append_assoc] at h
  have hleft : (requested (b :: older)).sum < wave.length := h.older.1
  have hcut : Cut wave (b :: older) := h.older.2.2.2
  have hsum : (requested (b :: older)).sum = b.requested + (requested older).sum := List.sum_cons
  rw [hcut.stored, List.length_take, List.length_drop]
  omega

theorem take_min_length (wave : List Sample) (n : Nat) :
    wave.take (min wave.length n) = wave.take n := by
  rw [Nat.min_comm, ← List.take_take, List.take_length]

/-! ## A request is answered while the wave lasts -/

section Answer

variable {wave : List Sample} {s : AudioTransfer}

theorem leads_step {t : AudioTransfer} {l : AudioLabel} (h : step wave s l = some t) :
    (system wave).Leads s t :=
  .head h (.refl t)

theorem client_enabled (hinside : s.Inside wave) (hpackets : s.toClient ≠ []) :
    ∃ t, s.client wave = some t := by
  rw [client, if_pos hinside]
  cases hq : s.toClient with
  | nil => exact absurd hq hpackets
  | cons p rest =>
      cases p with
      | dataWaveRequest n => exact ⟨_, rfl⟩
      | decodeOutput e => exact ⟨_, rfl⟩

/-- The client works its way through the outputs to the request. -/
theorem leads_answered {n : Nat} {r : Receiving} (h : Linked wave s)
    (hinside : s.Inside wave) (hpc : s.pc = .header n r) (hasked : requests s.toClient = [n]) :
    ∃ t, (system wave).Leads s t ∧ Linked wave t ∧ t.pc = .header n r ∧
      requests t.toClient = [] ∧ t.issued = s.issued := by
  generalize hq : s.toClient = q
  induction q generalizing s with
  | nil =>
      rw [hq] at hasked
      cases hasked
  | cons p rest ih =>
      obtain ⟨t, ht⟩ := client_enabled hinside (by rw [hq]; exact List.cons_ne_nil p rest)
      have hlinked := h.client ht
      have hstep : (system wave).step s .client = some t := ht
      obtain ⟨-, ⟨m, rest', hpackets, rfl⟩ | ⟨e, rest', hpackets, rfl⟩⟩ := client_cases ht
      · refine ⟨_, .head hstep (.refl _), hlinked, hpc, ?_, rfl⟩
        rw [hpackets] at hasked
        exact (List.cons.inj hasked).2
      · rw [hpackets] at hasked
        obtain rfl : rest' = rest := by
          rw [hpackets] at hq
          exact (List.cons.inj hq).2
        obtain ⟨u, hleads, hrest⟩ := ih hlinked hinside hpc hasked rfl
        exact ⟨u, .head hstep hleads, hrest⟩

/-- The rest of what one of the calls of `Receive` waits for is received. -/
theorem leads_full {r : Receiving} (pc : Receiving → ReadPc) (h : Linked wave s)
    (hpc : s.pc = pc r)
    (hrecv : ∀ k r', r.recv (s.toServer.take k) = some r' →
      s.recv k = some { s with toServer := s.toServer.drop k, pc := pc r' })
    (henough : r.length ≤ (r.received ++ s.toServer).length) :
    ∃ u r', (system wave).Leads s u ∧ Linked wave u ∧ u.pc = pc r' ∧ ¬ r'.Waiting ∧
      u.issued = s.issued := by
  by_cases hwait : r.Waiting
  · obtain ⟨k, r', hr', -, hdone, -⟩ := Receiving.recv_rest hwait henough
    have hstep := hrecv k r' hr'
    exact ⟨_, r', leads_step (l := .recv k) hstep, h.recv hstep, rfl, hdone, rfl⟩
  · exact ⟨s, r, .refl s, h, hpc, hwait, rfl⟩

/-- The header is received. -/
theorem leads_payload {n : Nat} {r : Receiving} (h : Linked wave s)
    (hpc : s.pc = .header n r) (hasked : requests s.toClient = []) :
    ∃ t p r', (system wave).Leads s t ∧ Linked wave t ∧ t.pc = .payload n p r' ∧
      t.issued = s.issued := by
  have henough : r.length ≤ (r.received ++ s.toServer).length := by
    have hlink := h.link
    rw [hpc, hasked] at hlink
    obtain ⟨-, ⟨-, hno, -⟩ | ⟨-, -, -, -, hlen, hbytes⟩⟩ := hlink.of_header
    · cases hno
    · rw [hbytes, hlen, packet, List.length_append, PacketHeader.bytes_length]
      omega
  have hrecv : ∀ k r', r.recv (s.toServer.take k) = some r' →
      s.recv k = some { s with toServer := s.toServer.drop k, pc := .header n r' } := by
    intro k r' hr'
    rw [recv, hpc]
    simp only [hr', Option.map_some]
  obtain ⟨u, r', hleads, hu, hpc', hdone, hissued⟩ :=
    leads_full (.header n) h hpc hrecv henough
  obtain ⟨t, ht⟩ : ∃ t, u.received = some t := by
    rw [received, hpc']
    simp only [hdone, if_false]
    split <;> exact ⟨_, rfl⟩
  have hstep : (system wave).step u .received = some t := ht
  have hlinked := hu.received ht
  rcases received_cases ht with ⟨m, r'', hsame, -, rfl⟩ | ⟨m, p, r'', hother, -, -⟩
  · obtain ⟨rfl, rfl⟩ : m = n ∧ r'' = r' := by
      rw [hpc'] at hsame
      cases hsame
      exact ⟨rfl, rfl⟩
    have hpc'' := hlinked.link
    generalize htype : PacketHeader.ofBytes r''.received = header at hpc'' hlinked hstep
    by_cases hwrong : header.type ≠ PacketType.dataWave.code
    · simp only [if_pos hwrong] at hpc''
      cases hpc''
    · simp only [if_neg hwrong] at hstep hlinked
      exact ⟨_, _, _, hleads.trans (.head hstep (.refl _)), hlinked, rfl, hissued⟩
  · rw [hpc'] at hother
    cases hother

/-- The payload is received, and `Read` returns. -/
theorem leads_idle {n : Nat} {p : Int} {r : Receiving} (h : Linked wave s)
    (hpc : s.pc = .payload n p r) :
    ∃ t, (system wave).Leads s t ∧ Linked wave t ∧ t.pc = .idle ∧ t.issued = s.issued := by
  have henough : r.length ≤ (r.received ++ s.toServer).length := by
    have hlink := h.link
    rw [hpc] at hlink
    obtain ⟨-, -, -, -, -, hp, hlen, hbytes⟩ := hlink.of_payload
    apply Int.le_of_eq
    rw [hbytes, hlen, hp, sampleBytes_length, List.length_take, List.length_drop, Nat.min_comm]
  have hrecv : ∀ k r', r.recv (s.toServer.take k) = some r' →
      s.recv k = some { s with toServer := s.toServer.drop k, pc := .payload n p r' } := by
    intro k r' hr'
    rw [recv, hpc]
    simp only [hr', Option.map_some]
  obtain ⟨u, r', hleads, hu, hpc', hdone, hissued⟩ :=
    leads_full (.payload n p) h hpc hrecv henough
  have hstep : u.received = some { u with
      pc := .idle
      blocks := ⟨n, bytesSamples r'.received, samplesReturned p⟩ :: u.blocks } := by
    rw [received, hpc']
    simp only [hdone, if_false]
  exact ⟨_, hleads.trans (leads_step (l := .received) hstep), hu.received hstep, rfl, hissued⟩

/-- A `Read` in progress returns, unless the requests before it cover the wave. -/
theorem leads_returned (h : Linked wave s) :
    ∃ t, (system wave).Leads s t ∧ Linked wave t ∧ t.issued = s.issued ∧
      (t.pc = .idle ∨ wave.length ≤ (requested t.blocks).sum) := by
  have hlink := h.link
  cases hpc : s.pc with
  | idle => exact ⟨s, .refl s, h, rfl, Or.inl hpc⟩
  | exited =>
      rw [hpc] at hlink
      cases hlink
  | header n r =>
      rw [hpc] at hlink
      obtain ⟨-, ⟨-, hasked, -, hhandled⟩ | ⟨hasked, -⟩⟩ := hlink.of_header
      · by_cases hinside : s.Inside wave
        · obtain ⟨t, hst, ht, hpct, hnone, hissued⟩ := leads_answered h hinside hpc hasked
          obtain ⟨u, p, r', htu, hu, hpcu, hissued'⟩ := leads_payload ht hpct hnone
          obtain ⟨v, huv, hv, hidle, hissued''⟩ := leads_idle hu hpcu
          exact ⟨v, (hst.trans htu).trans huv, hv,
            (hissued''.trans hissued').trans hissued, Or.inl hidle⟩
        · refine ⟨s, .refl s, h, rfl, Or.inr ?_⟩
          rw [Inside, h.pos, hhandled] at hinside
          omega
      · obtain ⟨u, p, r', hsu, hu, hpcu, hissued⟩ := leads_payload h hpc hasked
        obtain ⟨v, huv, hv, hidle, hissued'⟩ := leads_idle hu hpcu
        exact ⟨v, hsu.trans huv, hv, hissued'.trans hissued, Or.inl hidle⟩
  | payload n p r =>
      obtain ⟨v, hsv, hv, hidle, hissued⟩ := leads_idle h hpc
      exact ⟨v, hsv, hv, hissued, Or.inl hidle⟩

end Answer

/-- The client has handled the requests of the Reads that have returned, and of the
one in progress perhaps. -/
theorem Linked.suffixes {wave : List Sample} {s : AudioTransfer} (h : Linked wave s) :
    requested s.blocks <:+ s.handled ∧ s.handled <:+ s.issued := by
  have hlink := h.link
  generalize s.pc = pc, requests s.toClient = rs, s.toServer = bytes, s.handled = handled,
    s.issued = issued at hlink ⊢
  cases hlink with
  | idle => exact ⟨List.suffix_refl _, List.suffix_refl _⟩
  | asked n => exact ⟨List.suffix_refl _, List.suffix_cons n _⟩
  | answered n => exact ⟨List.suffix_cons n _, List.suffix_refl _⟩
  | storing n => exact ⟨List.suffix_cons n _, List.suffix_refl _⟩

theorem sum_le_of_suffix {xs ys : List Nat} (h : xs <:+ ys) : xs.sum ≤ ys.sum := by
  obtain ⟨front, rfl⟩ := h
  rw [List.sum_append]
  exact Nat.le_add_left _ _

/-- **No sample is lost, repeated or reordered.**  In every order of the steps of the
client and the server, the blocks stored so far, each cut to the count returned, make
up the beginning of the wave; each count is the number of samples stored, and all
blocks but the last have the size requested.  The client is in its loop as long as
the requests it has handled leave some of the wave.  Reads in progress return, unless
the wave has been read to its end before; then the blocks are the wave cut at the sum
of all requests issued. -/
theorem blocks_concat {wave : List Sample} {s : AudioTransfer}
    (hs : (system wave).ReachableVia (Small wave) s) :
    s.blocks.reverse.flatMap AudioBlock.stored =
        wave.take (min wave.length (requested s.blocks).sum) ∧
      (∀ b ∈ s.blocks, b.returned = b.samples.length) ∧
      (∀ newer b older, s.blocks = newer ++ b :: older → newer ≠ [] →
        b.stored.length = b.requested) ∧
      (requested s.blocks <:+ s.handled ∧ s.handled <:+ s.issued) ∧
      (s.Inside wave ↔ s.handled.sum < wave.length) ∧
      ∃ t, (system wave).Leads s t ∧ t.issued = s.issued ∧
        (t.pc = .idle ∨ wave.length ≤ (requested t.blocks).sum) ∧
        t.blocks.reverse.flatMap AudioBlock.stored =
          wave.take (min wave.length s.issued.sum) := by
  have h := linked_of_reachable hs
  refine ⟨?_, ?_, ?_, h.suffixes, ?_, ?_⟩
  · rw [take_min_length]
    exact h.cut.concat
  · intro b hb
    obtain ⟨newer, older, hsplit⟩ := List.append_of_mem hb
    have hcut := h.cut
    rw [hsplit] at hcut
    exact hcut.older.2.2.1
  · intro newer b older hsplit hnewer
    have hcut := h.cut
    rw [hsplit] at hcut
    exact hcut.full hnewer
  · rw [Inside, h.pos]
    exact Int.ofNat_lt
  · obtain ⟨t, hleads, ht, hissued, hend⟩ := leads_returned h
    refine ⟨t, hleads, hissued, hend, ?_⟩
    rw [take_min_length, ht.cut.concat, ← hissued]
    rcases hend with hidle | hcovered
    · have hlink := ht.link
      rw [hidle] at hlink
      obtain ⟨-, -, hhandled, hsame⟩ := hlink.of_idle
      rw [hsame]
    · have hle := sum_le_of_suffix (ht.suffixes.1.trans ht.suffixes.2)
      rw [List.take_of_length_le hcovered, List.take_of_length_le (hcovered.trans hle)]

/-- Three samples, asked for two at a time: the second block is the last sample. -/
theorem blocks_concat_three :
    ∃ (s : AudioTransfer) (late early : AudioBlock), s.blocks = [late, early] ∧
      early.stored ++ late.stored = [1, 2, 3] ∧ early.stored.length = 2 ∧
      ¬ s.Inside [1, 2, 3] := by
  have hrun : ∃ s late early, (system [1, 2, 3]).runVia (Small [1, 2, 3]) create
      [.read 2, .client, .recv 5, .recv 3, .received, .recv 8, .received,
        .output false, .client, .read 2, .client, .recv 8, .received, .recv 4, .received] =
        some s ∧ s.blocks = [late, early] ∧ early.requested = 2 ∧ late.requested = 2 ∧
        s.handled = [2, 2] :=
    ⟨_, _, _, rfl, rfl, rfl, rfl, rfl⟩
  obtain ⟨s, late, early, hs, hblocks, hearly, hlate, hhandled⟩ := hrun
  have hreach := Transition.System.ReachableVia.init.run hs
  obtain ⟨hconcat, -, hfull, -, hinside, -⟩ := blocks_concat hreach
  refine ⟨s, late, early, hblocks, ?_, ?_, ?_⟩
  · have hsum : (requested s.blocks).sum = 4 := by
      simp [hblocks, requested, hearly, hlate]
    rw [hsum, hblocks] at hconcat
    simpa using hconcat
  · rw [hfull [late] early [] hblocks (by simp), hearly]
  · rw [hinside, hhandled]
    decide

end AudioTransfer

end ThreadedServer
