import ThreadedServer.ClientOutput

/-!
# The words on the screen

`GetPartialResult` puts a blank behind every word, and the server sends the words of an
utterance in as many pieces as it happens to find.  The client trims each piece and puts a
blank behind it again.

So the pieces do not show: the screen is that of the words one by one, with an empty line
where an utterance has ended.  Pieces without words leave no trace at all.
-/

namespace ThreadedServer

/-- A symbol table as it is read from a text: its symbols have neither blanks nor zeros in
them.  `Find` of an id that is not there yields the empty string. -/
structure SymbolTable where
  find : Nat → List Byte
  plain : ∀ id, ∀ c ∈ find id, c ∉ blanks ∧ c ≠ 0

/-- The blank behind a word. -/
def blank : Byte := 32

namespace SymbolTable

variable (symbols : SymbolTable)

/-- The loop of `GetPartialResult` and of `SymbolsToWords`, when `result` has been put
together.  An id that is not in the table is an error in the one, and fails an assertion in
the other. -/
def appendWords (result : List Byte) : List Nat → Option (List Byte)
  | [] => some result
  | id :: words =>
      if symbols.find id = [] then none
      else appendWords (result ++ (symbols.find id ++ [blank])) words

def getPartialResult (words : List Nat) : Option (List Byte) := symbols.appendWords [] words

def symbolsToWords (words : List Nat) : Option (List Byte) := symbols.appendWords [] words

/-- A word and the blank behind it. -/
def word (id : Nat) : List Byte := symbols.find id ++ [blank]

theorem appendWords_eq_some {symbols : SymbolTable} {result str : List Byte} {words : List Nat}
    (h : symbols.appendWords result words = some str) :
    str = result ++ words.flatMap symbols.word ∧ ∀ id ∈ words, symbols.find id ≠ [] := by
  induction words generalizing result with
  | nil =>
      obtain rfl := Option.some.inj h
      simp
  | cons id words ih =>
      obtain ⟨hfound, h⟩ := Option.ite_none_left_eq_some.mp h
      obtain ⟨rfl, hall⟩ := ih h
      refine ⟨?_, ?_⟩
      · rw [List.flatMap_cons, List.append_assoc]
        rfl
      · intro id' hid
        rcases List.mem_cons.mp hid with rfl | hid
        · exact hfound
        · exact hall id' hid

/-! ## Trimming a piece -/

section Trimmed

variable {symbols : SymbolTable} {words : List Nat}

/-- The words without the blank behind the last one begin and end with letters. -/
theorem tight_words {id : Nat} (hall : ∀ x ∈ words ++ [id], symbols.find x ≠ []) :
    Trimming.Tight (fun c => c ∈ blanks) (words.flatMap symbols.word ++ symbols.find id) := by
  have hletter : ∀ x, ∀ c ∈ symbols.find x, decide (c ∈ blanks) = false :=
    fun x c hc => decide_eq_false (symbols.plain x c hc).1
  constructor
  · -- the first letter is that of the first word
    obtain ⟨x, rest, hx, hsplit⟩ : ∃ x rest, x ∈ words ++ [id] ∧
        words.flatMap symbols.word ++ symbols.find id = symbols.find x ++ rest := by
      cases words with
      | nil => exact ⟨id, [], by simp, by simp⟩
      | cons x words =>
          refine ⟨x, [blank] ++ (words.flatMap symbols.word ++ symbols.find id), by simp, ?_⟩
          simp [word]
    obtain ⟨c, letters, hfind⟩ := List.exists_cons_of_ne_nil (hall x hx)
    intro d hd
    rw [hsplit, hfind] at hd
    obtain rfl := Option.some.inj hd
    exact hletter x c (by simp [hfind])
  · -- and the last letter is that of the last word
    have hid : symbols.find id ≠ [] := hall id (by simp)
    intro d hd
    rw [List.getLast?_append_of_ne_nil _ hid] at hd
    exact hletter id d (List.mem_of_getLast? hd)

/-- Trimming takes away the last blank, which the client puts back. -/
theorem printOutput_words (hall : ∀ x ∈ words, symbols.find x ≠ []) (endUtterance : Bool) :
    printOutput (trimmed (words.flatMap symbols.word)) endUtterance =
      words.flatMap symbols.word ++ if endUtterance then [newline, newline] else [] := by
  rcases List.eq_nil_or_concat words with rfl | ⟨init, id, rfl⟩
  · rfl
  · rw [List.concat_eq_append] at hall ⊢
    have hsplit : (init ++ [id]).flatMap symbols.word =
        (init.flatMap symbols.word ++ symbols.find id) ++ [blank] := by
      simp [word]
    have htrim : trimmed ((init ++ [id]).flatMap symbols.word) =
        init.flatMap symbols.word ++ symbols.find id := by
      rw [hsplit, trimmed, Trimming.trim_append_right (by decide)]
      exact (tight_words hall).trim_eq
    have hpos : 0 < (init.flatMap symbols.word ++ symbols.find id).length := by
      have hid := List.length_pos_iff.mpr (hall id (by simp))
      rw [List.length_append]
      omega
    rw [htrim, printOutput, if_pos hpos, hsplit]
    rfl

/-- The letters of the words are no zeros, and neither are the blanks. -/
theorem plain_words (hlength : (words.flatMap symbols.word).length ≤ 65535) :
    PlainString (words.flatMap symbols.word) := by
  refine ⟨?_, hlength⟩
  intro c hc
  obtain ⟨id, -, hc⟩ := List.mem_flatMap.mp hc
  rcases List.mem_append.mp hc with hc | hc
  · exact (symbols.plain id c hc).2
  · obtain rfl := List.mem_singleton.mp hc
    decide

end Trimmed

end SymbolTable

/-! ## Sequences of outputs -/

/-- What `OnlineDecode` sends: requests for samples, and the words of tracebacks. -/
inductive Said
  | request (numSamples : Int)
  | words (endUtterance : Bool) (ids : List Nat)
  deriving DecidableEq, Repr

namespace Said

variable (symbols : SymbolTable)

/-- `DataWaveRequest` -/
def requestBytes (numSamples : Int) : List Byte :=
  wordBytes (BitVec.ofInt 32 numSamples) ++ wordBytes (BitVec.ofNat 32 sizeofFloat)

def packet : Said → Option SentPacket
  | request numSamples => some (.packet .dataWaveRequest (requestBytes numSamples))
  | words endUtterance ids => (symbols.getPartialResult ids).map (.output endUtterance)

/-- The position of the client afterwards. -/
def advance (pos : Int) : Said → Int
  | request numSamples => toInt32 (pos + toInt32 numSamples)
  | words _ _ => pos

/-- What the client comes to hear before its position has reached the length of the wave. -/
def heard (length : Int) : Int → List Said → List Said
  | _, [] => []
  | pos, x :: said =>
      if pos < length then x :: heard length (advance pos x) said else []

/-- The words one by one, and the ends of utterances. -/
def events : Said → List (Option Nat)
  | request _ => []
  | words endUtterance ids => ids.map some ++ if endUtterance then [none] else []

/-- A word on the screen, or the empty line where an utterance has ended. -/
def shown : Option Nat → List Byte
  | some id => symbols.word id
  | none => [newline, newline]

theorem numSamples_requestBytes (n : Int) : numSamples (requestBytes n) = toInt32 n := by
  have htake : (requestBytes n).take 4 = wordBytes (BitVec.ofInt 32 n) := rfl
  rw [numSamples, htake, bytesWord_wordBytes, BitVec.toInt_ofInt]
  rfl

section Shown

variable {symbols : SymbolTable}

/-- The position of the client after a packet. -/
theorem nextPos_packet {x : Said} {p : SentPacket} (h : x.packet symbols = some p) (pos : Int) :
    nextPos pos p = advance pos x := by
  cases x with
  | request numSamples =>
      obtain rfl := Option.some.inj h
      rw [nextPos, numSamples_requestBytes, advance]
  | words endUtterance ids =>
      obtain ⟨str, -, rfl⟩ := Option.map_eq_some_iff.mp h
      rfl

/-- What the client shows of a packet is shown word by word. -/
theorem trimmedOutput_packet {x : Said} {p : SentPacket} (h : x.packet symbols = some p) :
    trimmedOutput p = (events x).flatMap (shown symbols) := by
  cases x with
  | request numSamples =>
      obtain rfl := Option.some.inj h
      rfl
  | words endUtterance ids =>
      obtain ⟨str, hstr, rfl⟩ := Option.map_eq_some_iff.mp h
      obtain ⟨rfl, hall⟩ := SymbolTable.appendWords_eq_some hstr
      have hids : (ids.map some).flatMap (shown symbols) = ids.flatMap symbols.word :=
        List.flatMap_map ..
      rw [trimmedOutput, List.nil_append, SymbolTable.printOutput_words hall, events,
        List.flatMap_append, hids]
      cases endUtterance <;> rfl

/-- A packet with words that fit into the buffer. -/
theorem plain_packet {x : Said} {p : SentPacket} (h : x.packet symbols = some p)
    (hfits : ∀ endUtterance ids, x = words endUtterance ids →
      (ids.flatMap symbols.word).length ≤ 65535) : PlainPacket p := by
  cases x with
  | request numSamples =>
      obtain rfl := Option.some.inj h
      exact ⟨rfl, rfl⟩
  | words endUtterance ids =>
      obtain ⟨str, hstr, rfl⟩ := Option.map_eq_some_iff.mp h
      obtain ⟨rfl, -⟩ := SymbolTable.appendWords_eq_some hstr
      rw [List.nil_append]
      exact SymbolTable.plain_words (hfits endUtterance ids rfl)

/-- The packets of a sequence are those of its members. -/
theorem packets_cons {x : Said} {said : List Said} {packets : List SentPacket}
    (h : (x :: said).mapM (packet symbols) = some packets) :
    ∃ p rest, x.packet symbols = some p ∧ said.mapM (packet symbols) = some rest ∧
      packets = p :: rest := by
  rw [List.mapM_cons] at h
  obtain ⟨p, hp, h⟩ := Option.bind_eq_some_iff.mp h
  obtain ⟨rest, hrest, h⟩ := Option.bind_eq_some_iff.mp h
  exact ⟨p, rest, hp, hrest, (Option.some.inj h).symm⟩

theorem plain_packets {said : List Said} {packets : List SentPacket}
    (h : said.mapM (packet symbols) = some packets)
    (hfits : ∀ endUtterance ids, words endUtterance ids ∈ said →
      (ids.flatMap symbols.word).length ≤ 65535) : ∀ p ∈ packets, PlainPacket p := by
  induction said generalizing packets with
  | nil =>
      obtain rfl := Option.some.inj h
      intro p hp
      cases hp
  | cons x said ih =>
      obtain ⟨p, rest, hp, hrest, rfl⟩ := packets_cons h
      intro q hq
      rcases List.mem_cons.mp hq with rfl | hq
      · apply plain_packet hp
        rintro endUtterance ids rfl
        exact hfits endUtterance ids List.mem_cons_self
      · apply ih hrest _ q hq
        intro endUtterance ids hmem
        exact hfits endUtterance ids (List.mem_cons_of_mem x hmem)

/-- The packets that are shown are those that are heard. -/
theorem trimmedOutputs_packets {said : List Said} {packets : List SentPacket}
    (h : said.mapM (packet symbols) = some packets) (length pos : Int) :
    trimmedOutputs length pos packets =
      ((heard length pos said).flatMap events).flatMap (shown symbols) := by
  induction said generalizing pos packets with
  | nil =>
      obtain rfl := Option.some.inj h
      rfl
  | cons x said ih =>
      obtain ⟨p, rest, hp, hrest, rfl⟩ := packets_cons h
      rw [trimmedOutputs, heard]
      by_cases hpos : pos < length
      · rw [if_pos hpos, if_pos hpos, trimmedOutput_packet hp, nextPos_packet hp, ih hrest,
          List.flatMap_cons, List.flatMap_append]
      · rw [if_neg hpos, if_neg hpos]
        rfl

end Shown

/-- **The pieces do not show.**  Whatever requests and tracebacks follow each other, and
whatever the buffer of the client held before, its screen is that of the words one by one,
each with a blank behind it, and of an empty line for each end of an utterance, up to where
the client leaves. -/
theorem words_shown (symbols : SymbolTable) {said : List Said} {packets : List SentPacket}
    (hpackets : said.mapM (packet symbols) = some packets)
    (hfits : ∀ endUtterance ids, words endUtterance ids ∈ said →
      (ids.flatMap symbols.word).length ≤ 65535)
    (length : Int) (buffer : OutputBuffer) (rest : List Byte) :
    ∃ c, OnlineClient.loop length packets.length
        ⟨buffer, 0, packets.flatMap SentPacket.bytes ++ rest, []⟩ = some c ∧
      c.printed = ((heard length 0 said).flatMap events).flatMap (shown symbols) := by
  obtain ⟨c, hloop, hprinted⟩ := loop_shows length (plain_packets hpackets hfits) buffer 0 rest []
  refine ⟨c, hloop, ?_⟩
  rw [hprinted, List.nil_append, trimmedOutputs_packets hpackets]

/-- The words `1 2` in two pieces, the second of which ends the utterance, and a request
behind which the client leaves. -/
def twoPieces : List Said := [.words false [1], .words true [2], .request 8, .words true [1]]

/-- A table of two words of one letter. -/
def letters : SymbolTable where
  find id := if id = 1 then [98] else if id = 2 then [99] else []
  plain := by
    intro id c hc
    have hletter : c = 98 ∨ c = 99 := by
      by_cases hone : id = 1
      · simp_all
      · by_cases htwo : id = 2 <;> simp_all
    rcases hletter with rfl | rfl <;> decide

theorem words_shown_two :
    ∃ packets, twoPieces.mapM (packet letters) = some packets ∧
      ∃ c, OnlineClient.loop 8 packets.length
          ⟨ClientRun.zeros, 0, packets.flatMap SentPacket.bytes ++ [], []⟩ = some c ∧
        c.printed = [98, 32, 99, 32, 10, 10] := by
  have hpackets : twoPieces.mapM (packet letters) = some [.output false [98, 32],
      .output true [99, 32], .packet .dataWaveRequest (requestBytes 8), .output true [98, 32]] :=
    rfl
  have hfits : ∀ endUtterance ids, words endUtterance ids ∈ twoPieces →
      (ids.flatMap letters.word).length ≤ 65535 := by
    intro endUtterance ids hmem
    have hids : ids = [1] ∨ ids = [2] := by
      simp only [twoPieces, List.mem_cons] at hmem
      grind
    rcases hids with rfl | rfl <;> decide
  obtain ⟨c, hloop, hprinted⟩ := words_shown letters hpackets hfits 8 ClientRun.zeros []
  refine ⟨_, hpackets, c, hloop, ?_⟩
  rw [hprinted]
  decide

end Said

end ThreadedServer
