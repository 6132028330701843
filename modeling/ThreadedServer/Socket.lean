import Mathlib.Algebra.Order.Ring.Int
import Mathlib.Data.List.Basic

/-!
# Bytes on a connection

A connection carries bytes.  `SendPacket` writes a header of two words, the
length of the payload and the type of the packet, and then the payload;
`Socket::Receive` asks for a number of bytes and calls `recv` until it has them,
however they arrive.  The structs are sent as they lie in memory: a word is four
bytes, the lowest first, and a sample is a word.

Lengths change their type on the way.  They are `int` in the header and in
`Receive`, and `size_t` wherever a `sizeof` takes part in the arithmetic.
-/

namespace ThreadedServer

abbrev Byte := BitVec 8

/-- The bytes of a word in memory. -/
def wordBytes (w : BitVec 32) : List Byte :=
  [w.extractLsb' 0 8, w.extractLsb' 8 8, w.extractLsb' 16 8, w.extractLsb' 24 8]

/-- The word in four bytes of memory. -/
def bytesWord : List Byte → BitVec 32
  | [a, b, c, d] => d ++ c ++ b ++ a
  | _ => 0

@[simp] theorem wordBytes_length (w : BitVec 32) : (wordBytes w).length = 4 := rfl

@[simp] theorem bytesWord_wordBytes (w : BitVec 32) : bytesWord (wordBytes w) = w := by
  simp only [bytesWord, wordBytes]
  ext i hi
  simp
  grind

/-! ## Conversions -/

/-- The conversion to `int`. -/
def toInt32 (x : Int) : Int := x.bmod (2 ^ 32)

/-- The conversion to `size_t`. -/
def toSizeT (x : Int) : Nat := (x % 2 ^ 64).toNat

theorem toInt32_eq {x : Int} (hlo : -2 ^ 31 ≤ x) (hhi : x < 2 ^ 31) : toInt32 x = x :=
  Int.bmod_eq_of_le (by omega) (by omega)

theorem toSizeT_eq {n : Nat} (h : n < 2 ^ 64) : toSizeT n = n := by
  rw [toSizeT]
  omega

/-- `sizeof(BaseFloat)` and `sizeof(float)`. -/
def sizeofFloat : Nat := 4

/-- `header.payload_length / sizeof(float)` where an `int` is wanted. -/
def payloadSamples (payloadLength : Int) : Int := toInt32 ↑(toSizeT payloadLength / sizeofFloat)

/-- A negative length becomes a huge `size_t`; the quotient is cut to an `int` again,
and it comes out as if it had been rounded down. -/
theorem payloadSamples_eq {p : Int} (hlo : -2 ^ 31 ≤ p) (hhi : p < 2 ^ 31) :
    payloadSamples p = p / 4 := by
  by_cases hneg : p < 0
  · have hquot : ((toSizeT p / sizeofFloat : Nat) : Int) =
        p / 4 + 2 ^ 30 * ((2 ^ 32 : Nat) : Int) := by
      rw [toSizeT, sizeofFloat]
      omega
    rw [payloadSamples, hquot, toInt32, Int.add_mul_bmod_self_right]
    exact toInt32_eq (by omega) (by omega)
  · have hquot : ((toSizeT p / sizeofFloat : Nat) : Int) = p / 4 := by
      rw [toSizeT, sizeofFloat]
      omega
    rw [payloadSamples, hquot, toInt32_eq (by omega) (by omega)]

/-! ## Packets -/

/-- The types of packets, with the values of the enumeration. -/
inductive PacketType
  | decodeRequest
  | decodeAccept
  | dataWave
  | dataWaveRequest
  | dataFeature
  | decodeOutput
  deriving DecidableEq, Repr

def PacketType.code : PacketType → Nat
  | decodeRequest => 0
  | decodeAccept => 1
  | dataWave => 2
  | dataWaveRequest => 3
  | dataFeature => 4
  | decodeOutput => 5

/-- `PacketHeader`.  The other side can send any word as the type. -/
structure PacketHeader where
  payloadLength : Int
  type : Nat
  deriving DecidableEq, Repr

namespace PacketHeader

/-- `sizeof(PacketHeader)` -/
def size : Nat := 8

def bytes (h : PacketHeader) : List Byte :=
  wordBytes (BitVec.ofInt 32 h.payloadLength) ++ wordBytes (BitVec.ofNat 32 h.type)

/-- The header in eight bytes received. -/
def ofBytes (bs : List Byte) : PacketHeader where
  payloadLength := (bytesWord (bs.take 4)).toInt
  type := (bytesWord (bs.drop 4)).toNat

@[simp] theorem bytes_length (h : PacketHeader) : h.bytes.length = size := rfl

theorem ofBytes_bytes {h : PacketHeader} (hlen : toInt32 h.payloadLength = h.payloadLength)
    (htype : h.type < 2 ^ 32) : ofBytes h.bytes = h := by
  have hfirst : h.bytes.take 4 = wordBytes (BitVec.ofInt 32 h.payloadLength) := rfl
  have hsecond : h.bytes.drop 4 = wordBytes (BitVec.ofNat 32 h.type) := rfl
  have hword : (BitVec.ofInt 32 h.payloadLength).toInt = h.payloadLength := by
    rw [BitVec.toInt_ofInt]
    exact hlen
  rw [ofBytes, hfirst, hsecond, bytesWord_wordBytes, bytesWord_wordBytes, hword,
    BitVec.toNat_ofNat, Nat.mod_eq_of_lt htype]

end PacketHeader

/-- What `SendPacket` writes: the header and `payload_length` bytes from the
payload on. -/
def sendPacket (type : PacketType) (payloadLength : Int) (payload : List Byte) : List Byte :=
  (PacketHeader.mk payloadLength type.code).bytes ++ payload.take payloadLength.toNat

/-! ## Receiving -/

/-- A call of `Socket::Receive`: the length asked for and what has arrived. -/
structure Receiving where
  length : Int
  received : List Byte
  deriving DecidableEq, Repr

namespace Receiving

/-- `Receive` is called. -/
def start (length : Int) : Receiving := ⟨length, []⟩

/-- `received < length`: the loop goes on. -/
def Waiting (r : Receiving) : Prop := (r.received.length : Int) < r.length

instance (r : Receiving) : Decidable r.Waiting := inferInstanceAs (Decidable (_ < _))

/-- `recv` returns some of the bytes that are missing, and at least one. -/
def recv (r : Receiving) (bytes : List Byte) : Option Receiving :=
  if r.Waiting ∧ 0 < bytes.length ∧ (r.received.length + bytes.length : Int) ≤ r.length then
    some { r with received := r.received ++ bytes }
  else none

/-- The call never has more than it asked for. -/
def Bounded (r : Receiving) : Prop := r.received.length ≤ r.length.toNat

theorem bounded_start (length : Int) : (start length).Bounded := Nat.zero_le _

theorem recv_cases {r r' : Receiving} {bytes : List Byte} (h : r.recv bytes = some r') :
    r.Waiting ∧ 0 < bytes.length ∧ (r.received.length + bytes.length : Int) ≤ r.length ∧
      r' = { r with received := r.received ++ bytes } := by
  rw [recv] at h
  obtain ⟨⟨hwait, hpos, hle⟩, h⟩ := Option.ite_none_right_eq_some.mp h
  exact ⟨hwait, hpos, hle, (Option.some.inj h).symm⟩

theorem recv_bounded {r r' : Receiving} {bytes : List Byte} (h : r.recv bytes = some r') :
    r'.Bounded := by
  obtain ⟨-, -, hle, rfl⟩ := recv_cases h
  show (r.received ++ bytes).length ≤ r.length.toNat
  rw [List.length_append]
  omega

/-- When the loop ends, exactly the bytes asked for have arrived. -/
theorem Bounded.length_eq {r : Receiving} (h : r.Bounded) (hdone : ¬ r.Waiting) :
    r.received.length = r.length.toNat := by
  rw [Waiting] at hdone
  rw [Bounded] at h
  omega

/-- Where enough bytes have been sent, the loop can end. -/
theorem recv_rest {r : Receiving} {bytes : List Byte} (hwait : r.Waiting)
    (henough : r.length ≤ (r.received ++ bytes).length) :
    ∃ k r', r.recv (bytes.take k) = some r' ∧ r'.length = r.length ∧ ¬ r'.Waiting ∧
      r'.received ++ bytes.drop k = r.received ++ bytes := by
  have hlt : (r.received.length : Int) < r.length := hwait
  rw [List.length_append] at henough
  have hlen : (bytes.take (r.length - r.received.length).toNat).length =
      (r.length - r.received.length).toNat := by
    rw [List.length_take]
    omega
  refine ⟨(r.length - r.received.length).toNat,
    { r with received := r.received ++ bytes.take (r.length - r.received.length).toNat },
    if_pos ⟨hwait, by omega, by omega⟩, rfl, ?_, ?_⟩
  · show ¬ ((r.received ++ bytes.take (r.length - r.received.length).toNat).length : Int) <
      r.length
    rw [List.length_append]
    omega
  · rw [List.append_assoc, List.take_append_drop]

/-- The loop has ended, or `recv` goes on. -/
theorem returns_or_recv {r : Receiving} {bytes : List Byte}
    (henough : r.length ≤ (r.received ++ bytes).length) :
    ¬ r.Waiting ∨ ∃ k r', r.recv (bytes.take k) = some r' := by
  by_cases hwait : r.Waiting
  · obtain ⟨k, r', hr', -⟩ := recv_rest hwait henough
    exact Or.inr ⟨k, r', hr'⟩
  · exact Or.inl hwait

end Receiving

/-! ## Samples -/

/-- The bits of a `BaseFloat`. -/
abbrev Sample := BitVec 32

/-- The bytes of samples that lie one after the other. -/
def sampleBytes (wave : List Sample) : List Byte := wave.flatMap wordBytes

/-- The whole samples in the bytes received. -/
def bytesSamples : List Byte → List Sample
  | a :: b :: c :: d :: rest => bytesWord [a, b, c, d] :: bytesSamples rest
  | _ => []

theorem sampleBytes_length (wave : List Sample) :
    (sampleBytes wave).length = sizeofFloat * wave.length := by
  induction wave with
  | nil => rfl
  | cons x wave ih =>
      rw [sampleBytes, List.flatMap_cons, List.length_append, wordBytes_length, List.length_cons,
        Nat.mul_add, Nat.add_comm]
      exact congrArg (· + 4) ih

theorem bytesSamples_sampleBytes (wave : List Sample) :
    bytesSamples (sampleBytes wave) = wave := by
  induction wave with
  | nil => rfl
  | cons x wave ih =>
      have hcons : sampleBytes (x :: wave) = wordBytes x ++ sampleBytes wave :=
        List.flatMap_cons
      have hfirst : bytesSamples (wordBytes x ++ sampleBytes wave) =
          bytesWord (wordBytes x) :: bytesSamples (sampleBytes wave) := rfl
      rw [hcons, hfirst, bytesWord_wordBytes, ih]

/-- The bytes of the first samples are the first bytes. -/
theorem sampleBytes_take (wave : List Sample) (n : Nat) :
    (sampleBytes wave).take (sizeofFloat * n) = sampleBytes (wave.take n) := by
  induction wave generalizing n with
  | nil => simp [sampleBytes]
  | cons x wave ih =>
      cases n with
      | zero => rfl
      | succ n =>
          have hcons : sampleBytes (x :: wave) = wordBytes x ++ sampleBytes wave :=
            List.flatMap_cons
          have hsplit : sizeofFloat * (n + 1) = (wordBytes x).length + sizeofFloat * n := by
            rw [wordBytes_length, sizeofFloat]
            omega
          rw [hcons, hsplit, List.take_length_add_append, ih]
          rfl

theorem sampleBytes_drop (wave : List Sample) (n : Nat) :
    (sampleBytes wave).drop (sizeofFloat * n) = sampleBytes (wave.drop n) := by
  have hsplit : sampleBytes wave = sampleBytes (wave.take n) ++ sampleBytes (wave.drop n) := by
    rw [sampleBytes, sampleBytes, sampleBytes, ← List.flatMap_append, List.take_append_drop]
  have hall : sampleBytes (wave.take n) ++ (sampleBytes wave).drop (sizeofFloat * n) =
      sampleBytes (wave.take n) ++ sampleBytes (wave.drop n) := by
    rw [← hsplit, ← sampleBytes_take, List.take_append_drop]
  exact List.append_cancel_left hall

end ThreadedServer
