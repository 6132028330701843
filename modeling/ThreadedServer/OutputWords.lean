import ThreadedServer.OnlineDecoder
import ThreadedServer.Traceback

/-!
# The words that are sent

`OnlineDecode` sends the words of an utterance in pieces: those between two
immortal tokens whenever a batch has ended and a new one is found, and the rest
when the utterance has ended.  Here the frames of the decoder go together with
the tokens of the search, of which only this is assumed: `ProcessEmitting`
replaces the active tokens by successors of them over emitting arcs, and
`ProcessNonemitting` by descendants of them over other arcs.
-/

namespace ThreadedServer

open OnlineTraceback

/-- A session of `OnlineDecode` with its tokens.  `returned` says that `Decode` has
returned and nothing has been traced back yet; `batches` are the active tokens at
each `kEndBatch` of the utterance, the latest first, and `sent` the words of its
partial outputs. -/
structure OutputSession (V : Type) where
  session : DecodeSession
  tokens : Tokens V
  returned : Bool
  batches : List (List (Token V))
  sent : List Nat
  deriving DecidableEq

/-- The steps of a session. -/
inductive OutputLabel (V : Type)
  /-- `Decode` is called; after `ProcessNonemitting` these tokens are active -/
  | call (toks : List (Token V))
  /-- a frame; the active tokens after `ProcessEmitting` and `ProcessNonemitting` -/
  | score (e : Scoring) (emitted toks : List (Token V))
  /-- the loop of `Decode` ends -/
  | finish
  /-- `PartialTraceback` or `FinishTraceBack` -/
  | traceback

namespace OutputSession

variable {V : Type}

/-- What `ProcessEmitting` may make of the active tokens. -/
def Emitted (toks emitted : List (Token V)) : Prop :=
  ∀ tok ∈ emitted, ∃ prev ∈ toks, tok.tail = prev ∧ tok.head?.any Token.isEmitting = true

/-- What `ProcessNonemitting` may make of the active tokens. -/
def Nonemitted (toks reached : List (Token V)) : Prop :=
  ∀ tok ∈ reached, ∃ prev ∈ toks, prev <:+ tok ∧
    (Token.piece prev tok).all (fun n => !Token.isEmitting n) = true

instance [DecidableEq V] (toks emitted : List (Token V)) : Decidable (Emitted toks emitted) := by
  unfold Emitted; infer_instance

instance [DecidableEq V] (toks reached : List (Token V)) :
    Decidable (Nonemitted toks reached) := by
  unfold Nonemitted; infer_instance

/-- `batch_size` in `OnlineDecode`. -/
def batchSize : Nat := 27

variable [LinearOrder V] [Add V] [Zero V]

def create (d : FasterDecoder V) : OutputSession V where
  session := .create
  tokens := .resetDecoder d.toDecodingGraph
  returned := false
  batches := []
  sent := []

/-- The beginning of `Decode`, for a new utterance. -/
def beginUtterance (d : FasterDecoder V) (s : OutputSession V) : OutputSession V :=
  if s.session.decoder.newUtterance then
    { s with tokens := .resetDecoder d.toDecodingGraph, batches := [], sent := [] }
  else s

/-- What `OnlineDecode` does after `Decode`. -/
def traceback (d : FasterDecoder V) (s : OutputSession V) : Option (OutputSession V) :=
  if s.session.decoder.state = .endBatch then
    (s.tokens.partialTraceback d.toDecodingGraph).map fun (tokens, out) =>
      { s with
        tokens
        returned := false
        batches := s.tokens.toks :: s.batches
        sent := s.sent ++ out.elim [] OnlineTraceback.wordIds }
  else (finishTraceBack d s.tokens).map fun _ => { s with returned := false }

/-- One step of a session. -/
def step (d : FasterDecoder V) (s : OutputSession V) :
    OutputLabel V → Option (OutputSession V)
  | .call toks =>
      let s := s.beginUtterance d
      if s.returned = false ∧ Nonemitted s.tokens.toks toks then
        (s.session.step batchSize .call).map fun session =>
          { s with session, tokens := { s.tokens with toks } }
      else none
  | .score e emitted toks =>
      if Emitted s.tokens.toks emitted ∧ Nonemitted emitted toks ∧
          (emitted ≠ [] → e.asked) ∧ (e.asked → s.tokens.toks ≠ []) then
        (s.session.step batchSize (.score e)).map fun session =>
          { s with
            session
            tokens := { s.tokens with toks }
            returned := session.pc == .outside }
      else none
  | .finish =>
      (s.session.step batchSize .finish).map fun session => { s with session, returned := true }
  | .traceback => if s.returned then s.traceback d else none

/-- The sessions of a decoder. -/
def system (d : FasterDecoder V) : Transition.System (OutputSession V) (OutputLabel V) where
  init := create d
  step := step d

end OutputSession

/-! ## The active tokens and their ancestors -/

section Aligned

variable {V : Type} [Zero V]

/-- After `k` frames of an utterance: the active tokens have `k` emitting tokens on
their chains, and descend from the immortal token, as this from the one before. -/
structure Aligned (g : DecodingGraph V) (k : Nat) (d : Tokens V) : Prop where
  level : ∀ tok ∈ d.toks, Ancestry.level Token.isEmitting tok = k
  descend : ∀ tok ∈ d.toks, d.immortalTok <:+ tok
  start : dummyToken g <:+ d.immortalTok
  prev : d.prevImmortalTok <:+ d.immortalTok
  marked : Ancestry.Marked Token.isEmitting d.immortalTok ∨
    d.immortalTok = dummyToken g ∧ d.prevImmortalTok = dummyToken g
  below : Ancestry.level Token.isEmitting d.immortalTok ≤ k

theorem aligned_resetDecoder (g : DecodingGraph V) : Aligned g 0 (Tokens.resetDecoder g) := by
  have hactive : ∀ tok ∈ (Tokens.resetDecoder g).toks, tok = dummyToken g :=
    fun tok htok => List.mem_singleton.mp htok
  refine ⟨fun tok htok => ?_, fun tok htok => ?_, List.suffix_rfl, List.suffix_rfl,
    Or.inr ⟨rfl, rfl⟩, Nat.le_refl _⟩
  · rw [hactive tok htok]
    rfl
  · rw [hactive tok htok]
    exact List.suffix_rfl

theorem Aligned.nonemitted {g : DecodingGraph V} {k : Nat} {d : Tokens V} (h : Aligned g k d)
    {toks : List (Token V)} (hr : OutputSession.Nonemitted d.toks toks) :
    Aligned g k { d with toks } := by
  refine ⟨?_, ?_, h.start, h.prev, h.marked, h.below⟩
  · intro tok htok
    obtain ⟨prev, hprev, ⟨nodes, rfl⟩, hnone⟩ := hr tok htok
    rw [Token.piece_append, List.all_eq_true] at hnone
    have hzero : nodes.countP Token.isEmitting = 0 := by
      refine List.countP_eq_zero.mpr fun n hn hemit => ?_
      have := hnone n hn
      rw [hemit] at this
      cases this
    rw [Ancestry.level, List.countP_append, hzero, Nat.zero_add]
    exact h.level prev hprev
  · intro tok htok
    obtain ⟨prev, hprev, hsuffix, -⟩ := hr tok htok
    exact (h.descend prev hprev).trans hsuffix

theorem Aligned.emitted {g : DecodingGraph V} {k : Nat} {d : Tokens V} (h : Aligned g k d)
    {emitted : List (Token V)} (he : OutputSession.Emitted d.toks emitted) :
    Aligned g (k + 1) { d with toks := emitted } := by
  refine ⟨?_, ?_, h.start, h.prev, h.marked, Nat.le_succ_of_le h.below⟩
  · intro tok htok
    obtain ⟨prev, hprev, htail, hhead⟩ := he tok htok
    cases tok with
    | nil => cases hhead
    | cons n rest =>
        obtain rfl : rest = prev := htail
        have hemit : Token.isEmitting n = true := by simpa using hhead
        have hlevel := h.level rest hprev
        rw [Ancestry.level] at hlevel
        rw [Ancestry.level, List.countP_cons_of_pos hemit, hlevel]
  · intro tok htok
    obtain ⟨prev, hprev, htail, -⟩ := he tok htok
    rw [← htail] at hprev
    exact (h.descend _ hprev).trans (List.tail_suffix tok)

theorem Aligned.ne_nil {g : DecodingGraph V} {k : Nat} {d : Tokens V} (h : Aligned g k d) :
    d.immortalTok ≠ [] := by
  intro hnil
  have hle := h.start.length_le
  rw [hnil] at hle
  cases hle

/-- The immortal token is an ancestor of every later one. -/
theorem Aligned.immortal_suffix {g : DecodingGraph V} {k : Nat} {d : Tokens V}
    (h : Aligned g k d) (hne : d.toks ≠ []) {tok : Token V}
    (htok : Ancestry.LatestCommon Token.isEmitting d.toks tok) : d.immortalTok <:+ tok := by
  rcases h.marked with hmarked | ⟨hstart, -⟩
  · exact htok.latest _ hmarked h.descend
  · obtain ⟨c, hc⟩ := List.exists_mem_of_ne_nil _ hne
    refine List.suffix_of_suffix_length_le (h.descend c hc) (htok.common c hc) ?_
    rw [hstart]
    exact List.length_pos_iff.mpr htok.marked.ne_nil

/-- `PartialTraceback` with a new immortal token. -/
theorem Aligned.move {g : DecodingGraph V} {k : Nat} {d : Tokens V} (h : Aligned g k d)
    (hne : d.toks ≠ []) {tok : Token V}
    (htok : Ancestry.LatestCommon Token.isEmitting d.toks tok) :
    Aligned g k { d with prevImmortalTok := d.immortalTok, immortalTok := tok } := by
  have hle := h.immortal_suffix hne htok
  refine ⟨h.level, htok.common, h.start.trans hle, hle, Or.inl htok.marked, ?_⟩
  obtain ⟨c, hc⟩ := List.exists_mem_of_ne_nil _ hne
  rw [← h.level c hc]
  exact Ancestry.level_mono (htok.common c hc)

end Aligned

/-! ## The pieces -/

section Pieces

variable {V : Type} [Zero V]

/-- The places at which the chain of an utterance is cut: the start token, and what the
active tokens shared last when a batch ended. -/
def Cut (g : DecodingGraph V) (batches : List (List (Token V))) (c : Token V) : Prop :=
  c = dummyToken g ∨ ∃ toks ∈ batches, Ancestry.LatestCommon Token.isEmitting toks c

/-- These are the words on the chain of a token, and no cut has lost one of them; or a
cut has, and words are missing. -/
def Told (g : DecodingGraph V) (batches : List (List (Token V))) (tok : Token V)
    (said : List Nat) : Prop :=
  said = Token.words (dummyToken g) tok ∧
      (∀ c, Cut g batches c → ¬ Token.WordIntoStart g.start c tok) ∨
    (∃ c, Cut g batches c ∧ Token.WordIntoStart g.start c tok) ∧
      said.length < (Token.words (dummyToken g) tok).length

/-- What has been sent of the chain of the immortal token. -/
structure Streamed (g : DecodingGraph V) (immortal : Token V)
    (batches : List (List (Token V))) (sent : List Nat) : Prop where
  start : dummyToken g <:+ immortal
  cuts : ∀ c, Cut g batches c → c <:+ immortal
  cut : Cut g batches immortal
  told : Told g batches immortal sent

theorem Told.iff {g : DecodingGraph V} {batches : List (List (Token V))} {tok : Token V}
    {said : List Nat} (h : Told g batches tok said) :
    said = Token.words (dummyToken g) tok ↔
      ∀ c, Cut g batches c → ¬ Token.WordIntoStart g.start c tok := by
  rcases h with ⟨heq, hno⟩ | ⟨⟨c, hc, hlost⟩, hlt⟩
  · exact ⟨fun _ => hno, fun _ => heq⟩
  · constructor
    · intro heq
      rw [heq] at hlt
      exact absurd hlt (Nat.lt_irrefl _)
    · intro hno
      exact absurd hlost (hno c hc)

/-- What is told of a chain, together with the piece behind the immortal token. -/
theorem Streamed.extend {g : DecodingGraph V} {immortal tok : Token V}
    {batches : List (List (Token V))} {sent out : List Nat}
    (h : Streamed g immortal batches sent) (htok : immortal <:+ tok)
    (hyes : ¬ Token.WordIntoStart g.start immortal tok → out = Token.words immortal tok)
    (hno : Token.WordIntoStart g.start immortal tok →
      out.length < (Token.words immortal tok).length) :
    Told g batches tok (sent ++ out) := by
  have hwords := Token.words_trans h.start htok
  have hlift : ∀ c, Cut g batches c → c ≠ immortal →
      (Token.WordIntoStart g.start c tok ↔ Token.WordIntoStart g.start c immortal) :=
    fun c hc hne => Token.wordIntoStart_iff_of_suffix (h.cuts c hc) hne htok
  rw [Told, hwords, List.length_append, List.length_append]
  rcases h.told with ⟨hsent, hclean⟩ | ⟨⟨c, hc, hlost⟩, hlt⟩
  · by_cases hword : Token.WordIntoStart g.start immortal tok
    · refine Or.inr ⟨⟨immortal, h.cut, hword⟩, ?_⟩
      have := hno hword
      rw [hsent]
      omega
    · refine Or.inl ⟨?_, fun c hc => ?_⟩
      · rw [hsent, hyes hword]
      · by_cases heq : c = immortal
        · rwa [heq]
        · exact fun hlost => hclean c hc ((hlift c hc heq).mp hlost)
  · have hne : c ≠ immortal := by
      rintro rfl
      exact Token.not_wordIntoStart_self c hlost
    refine Or.inr ⟨⟨c, hc, (hlift c hc hne).mpr hlost⟩, ?_⟩
    have hle : out.length ≤ (Token.words immortal tok).length := by
      by_cases hword : Token.WordIntoStart g.start immortal tok
      · exact (hno hword).le
      · exact (congrArg List.length (hyes hword)).le
    omega

theorem streamed_dummyToken (g : DecodingGraph V) : Streamed g (dummyToken g) [] [] := by
  have honly : ∀ c, Cut g [] c → c = dummyToken g := by
    rintro c (rfl | ⟨toks, htoks, -⟩)
    · rfl
    · cases htoks
  refine ⟨List.suffix_rfl, fun c hc => ?_, Or.inl rfl, Or.inl ⟨?_, fun c hc => ?_⟩⟩
  · exact honly c hc ▸ List.suffix_rfl
  · rw [Token.words_self]
  · rw [honly c hc]
    exact Token.not_wordIntoStart_self _

/-- A batch ends at which the immortal token moves on, or stays. -/
theorem Streamed.batch {g : DecodingGraph V} {immortal tok : Token V}
    {batches : List (List (Token V))} {sent out : List Nat} {toks : List (Token V)}
    (h : Streamed g immortal batches sent) (htok : immortal <:+ tok)
    (hyes : ¬ Token.WordIntoStart g.start immortal tok → out = Token.words immortal tok)
    (hno : Token.WordIntoStart g.start immortal tok →
      out.length < (Token.words immortal tok).length)
    (hlatest : ∀ c, Ancestry.LatestCommon Token.isEmitting toks c → c = tok)
    (hcut : Cut g (toks :: batches) tok) :
    Streamed g tok (toks :: batches) (sent ++ out) := by
  have hold : ∀ c, Cut g (toks :: batches) c → Cut g batches c ∨ c = tok := by
    rintro c (hc | ⟨earlier, hmem, hc⟩)
    · exact Or.inl (Or.inl hc)
    · rcases List.mem_cons.mp hmem with rfl | hmem
      · exact Or.inr (hlatest c hc)
      · exact Or.inl (Or.inr ⟨earlier, hmem, hc⟩)
  have hnew : ∀ c, Cut g batches c → Cut g (toks :: batches) c := by
    rintro c (hc | ⟨earlier, hmem, hc⟩)
    · exact Or.inl hc
    · exact Or.inr ⟨earlier, List.mem_cons_of_mem _ hmem, hc⟩
  refine ⟨h.start.trans htok, fun c hc => ?_, hcut, ?_⟩
  · rcases hold c hc with hc | rfl
    · exact (h.cuts c hc).trans htok
    · exact List.suffix_rfl
  · rcases h.extend htok hyes hno with ⟨hsaid, hclean⟩ | ⟨⟨c, hc, hlost⟩, hlt⟩
    · refine Or.inl ⟨hsaid, fun c hc => ?_⟩
      rcases hold c hc with hc | rfl
      · exact hclean c hc
      · exact Token.not_wordIntoStart_self _
    · exact Or.inr ⟨⟨c, hnew c hc, hlost⟩, hlt⟩

end Pieces

/-! ## A batch has ended -/

section PartialTraceback

variable {V : Type} [DecidableEq V] [Zero V]

/-- **A batch has ended.**  `PartialTraceback` is defined, keeps the active tokens, and
tells the piece up to their latest common emitting ancestor. -/
theorem Aligned.partialTraceback {g : DecodingGraph V} {k : Nat} {d : Tokens V}
    (h : Aligned g k d) (hk : 0 < k) :
    ∃ d' out, d.partialTraceback g = some (d', out) ∧ Aligned g k d' ∧ d'.toks = d.toks ∧
      (d.toks ≠ [] → ∀ batches sent, Streamed g d.immortalTok batches sent →
        Streamed g d'.immortalTok (d.toks :: batches) (sent ++ out.elim [] wordIds)) := by
  rcases Tokens.updateImmortalToken_spec h.level hk with ⟨hupdate, hnone⟩ |
    ⟨tok, hne, htok, hupdate⟩
  case inl =>
    have hno : d.toks ≠ [] → ∀ c, ¬ Ancestry.LatestCommon Token.isEmitting d.toks c :=
      fun hne c hc => hnone.resolve_left hne c hc.marked hc.common
    by_cases hsame : d.immortalTok = d.prevImmortalTok
    · refine ⟨d, none, ?_, h, rfl, fun hne batches sent hs => ?_⟩
      · rw [Tokens.partialTraceback, hupdate, Option.bind_some, if_pos hsame]
      · refine hs.batch List.suffix_rfl (fun _ => (Token.words_self _).symm)
          (fun hword => absurd hword (Token.not_wordIntoStart_self _))
          (fun c hc => absurd hc (hno hne c)) ?_
        rcases hs.cut with hstart | ⟨earlier, hmem, hc⟩
        · exact Or.inl hstart
        · exact Or.inr ⟨earlier, List.mem_cons_of_mem _ hmem, hc⟩
    · obtain ⟨out, hout, -⟩ := makeLattice_words g h.prev fun heq => hsame heq.symm
      obtain ⟨lattice, hlattice, -⟩ := Option.map_eq_some_iff.mp hout
      refine ⟨d, some lattice, ?_, h, rfl, fun hne => ?_⟩
      · rw [Tokens.partialTraceback, hupdate, Option.bind_some, if_neg hsame, hlattice]
        rfl
      · have hmarked := h.marked.resolve_right fun hstart =>
          hsame (hstart.1.trans hstart.2.symm)
        exact absurd h.descend (hnone.resolve_left hne _ hmarked)
  case inr =>
    have hle := h.immortal_suffix hne htok
    have hlatest : ∀ c, Ancestry.LatestCommon Token.isEmitting d.toks c → c = tok :=
      fun c hc => hc.unique htok
    have hcut : ∀ batches, Cut g (d.toks :: batches) tok :=
      fun batches => Or.inr ⟨d.toks, List.mem_cons_self, htok⟩
    by_cases hsame : tok = d.immortalTok
    · refine ⟨_, none, ?_, h.move hne htok, rfl, fun _ batches sent hs => ?_⟩
      · rw [Tokens.partialTraceback, hupdate, Option.bind_some, if_pos hsame]
      · refine hs.batch hle (fun _ => ?_) (fun hword => ?_) hlatest (hcut batches)
        · rw [hsame, Token.words_self]
          rfl
        · rw [hsame] at hword
          exact absurd hword (Token.not_wordIntoStart_self _)
    · obtain ⟨out, hout, hyes, hno⟩ := makeLattice_words g hle fun heq => hsame heq.symm
      obtain ⟨lattice, hlattice, rfl⟩ := Option.map_eq_some_iff.mp hout
      refine ⟨_, some lattice, ?_, h.move hne htok, rfl, fun _ batches sent hs =>
        hs.batch hle hyes hno hlatest (hcut batches)⟩
      rw [Tokens.partialTraceback, hupdate, Option.bind_some, if_neg hsame, hlattice]
      rfl

end PartialTraceback

/-! ## Sessions -/

namespace OutputSession

variable {V : Type} [LinearOrder V] [Add V] [Zero V]

/-- The immortal token is not among the active ones, unless it is the start token. -/
def Behind (g : DecodingGraph V) (k : Nat) (d : Tokens V) : Prop :=
  d.immortalTok = dummyToken g ∨ Ancestry.level Token.isEmitting d.immortalTok < k

/-- What holds after `k` frames of the current utterance. -/
structure Inv (d : FasterDecoder V) (k : Nat) (s : OutputSession V) : Prop where
  aligned : Aligned d.toDecodingGraph k s.tokens
  streamed : s.tokens.toks ≠ [] →
    Streamed d.toDecodingGraph s.tokens.immortalTok s.batches s.sent
  inLoop : ∀ batchFrame, s.session.pc = .loop batchFrame → s.returned = false ∧
    batchFrame ≤ k ∧
    (Behind d.toDecodingGraph k s.tokens ∨
      batchFrame = 0 ∧ s.session.decoder.state = .endBatch)
  ended : s.returned = true → s.session.decoder.state ≠ .endBatch →
    Behind d.toDecodingGraph k s.tokens
  batch : s.returned = true → s.session.decoder.state = .endBatch → 0 < k

omit [LinearOrder V] [Add V] [Zero V] in
theorem Nonemitted.ne_nil {toks reached : List (Token V)} (h : Nonemitted toks reached)
    (hne : reached ≠ []) : toks ≠ [] := by
  obtain ⟨tok, htok⟩ := List.exists_mem_of_ne_nil _ hne
  obtain ⟨prev, hprev, -⟩ := h tok htok
  exact List.ne_nil_of_mem hprev

omit [LinearOrder V] [Add V] [Zero V] in
theorem Emitted.ne_nil {toks emitted : List (Token V)} (h : Emitted toks emitted)
    (hne : emitted ≠ []) : toks ≠ [] := by
  obtain ⟨tok, htok⟩ := List.exists_mem_of_ne_nil _ hne
  obtain ⟨prev, hprev, -⟩ := h tok htok
  exact List.ne_nil_of_mem hprev

/-- The decoder's part of a session takes its own steps. -/
theorem step_session {d : FasterDecoder V} {s s' : OutputSession V} {l : OutputLabel V}
    (h : step d s l = some s') :
    s'.session = s.session ∨ ∃ m, s.session.step batchSize m = some s'.session := by
  cases l with
  | call toks =>
      obtain ⟨-, h⟩ := Option.ite_none_right_eq_some.mp h
      obtain ⟨session, hs, rfl⟩ := Option.map_eq_some_iff.mp h
      have hsame : (s.beginUtterance d).session = s.session := by
        unfold beginUtterance
        split <;> rfl
      rw [hsame] at hs
      exact Or.inr ⟨_, hs⟩
  | score e emitted toks =>
      obtain ⟨-, h⟩ := Option.ite_none_right_eq_some.mp h
      obtain ⟨session, hs, rfl⟩ := Option.map_eq_some_iff.mp h
      exact Or.inr ⟨_, hs⟩
  | finish =>
      obtain ⟨session, hs, rfl⟩ := Option.map_eq_some_iff.mp h
      exact Or.inr ⟨_, hs⟩
  | traceback =>
      obtain ⟨-, h⟩ := Option.ite_none_right_eq_some.mp h
      unfold traceback at h
      split at h <;>
      · obtain ⟨_, -, rfl⟩ := Option.map_eq_some_iff.mp h
        exact Or.inl rfl

theorem session_reachable {d : FasterDecoder V} {s : OutputSession V}
    (h : (system d).Reachable s) : (DecodeSession.system batchSize).Reachable s.session := by
  refine h.invariant
    (fun s : OutputSession V => (DecodeSession.system batchSize).Reachable s.session) ?_ ?_
  · exact Transition.System.ReachableVia.init
  intro s l s' hs hstep
  rcases step_session hstep with heq | ⟨m, hm⟩
  · rw [heq]
    exact hs
  · exact Transition.System.ReachableVia.step hs trivial hm

theorem Inv.call {d : FasterDecoder V} {k : Nat} {s s' : OutputSession V} (h : Inv d k s)
    {toks : List (Token V)} (hs : step d s (.call toks) = some s') :
    Inv d (if s.session.decoder.newUtterance then 0 else k) s' := by
  obtain ⟨⟨hreturned, hnon⟩, hs⟩ := Option.ite_none_right_eq_some.mp hs
  obtain ⟨session, hsession, rfl⟩ := Option.map_eq_some_iff.mp hs
  unfold beginUtterance at hreturned hnon hsession ⊢
  by_cases hnew : s.session.decoder.newUtterance = true
  · simp only [hnew, if_true] at hreturned hnon hsession ⊢
    obtain ⟨-, rfl⟩ := DecodeSession.step_call hsession
    refine ⟨(aligned_resetDecoder _).nonemitted hnon, fun _ => streamed_dummyToken _, ?_,
      fun hr => ?_, fun hr => ?_⟩
    · intro batchFrame hpc
      injection hpc with hpc
      exact ⟨hreturned, hpc.symm.le, Or.inl (Or.inl rfl)⟩
    · exact absurd (hr.symm.trans hreturned) (by decide)
    · exact absurd (hr.symm.trans hreturned) (by decide)
  · rw [if_neg hnew] at hreturned hnon hsession ⊢
    rw [if_neg hnew]
    obtain ⟨-, rfl⟩ := DecodeSession.step_call hsession
    have hstate : s.session.decoder.start.state = .endBatch := by
      rw [DecodeSession.start_state]
      unfold OnlineFasterDecoder.newUtterance at hnew
      cases hstate : s.session.decoder.state with
      | endBatch => rfl
      | endFeats => exact absurd (by rw [hstate]; rfl) hnew
      | endUtt => exact absurd (by rw [hstate]; rfl) hnew
    refine ⟨h.aligned.nonemitted hnon, fun hne => h.streamed (hnon.ne_nil hne), ?_,
      fun hr => ?_, fun hr => ?_⟩
    · intro batchFrame hpc
      injection hpc with hpc
      subst hpc
      exact ⟨hreturned, Nat.zero_le _, Or.inr ⟨rfl, hstate⟩⟩
    · exact absurd (hr.symm.trans hreturned) (by decide)
    · exact absurd (hr.symm.trans hreturned) (by decide)

theorem Inv.score {d : FasterDecoder V} {k : Nat} {s s' : OutputSession V} (h : Inv d k s)
    (hphase : DecodeSession.Phase batchSize s.session) {e : Scoring}
    {emitted toks : List (Token V)} (hs : step d s (.score e emitted toks) = some s') :
    Inv d (k + 1) s' := by
  obtain ⟨⟨hemit, hnon, -⟩, hs⟩ := Option.ite_none_right_eq_some.mp hs
  obtain ⟨session, hsession, rfl⟩ := Option.map_eq_some_iff.mp hs
  obtain ⟨batchFrame, decodable, hpc, -, -, -, -, rfl⟩ :=
    DecodeSession.score_cases hphase.notForcing hsession
  have hbehind : Behind d.toDecodingGraph (k + 1) { s.tokens with toks } :=
    Or.inr (Nat.lt_succ_of_le h.aligned.below)
  refine ⟨(h.aligned.emitted hemit).nonemitted hnon,
    fun hne => h.streamed (hemit.ne_nil (hnon.ne_nil hne)), ?_, fun _ _ => hbehind,
    fun _ _ => Nat.succ_pos k⟩
  intro next hnext
  have hle := (h.inLoop batchFrame hpc).2.1
  cases hforce : e.force with
  | true => simp [hforce] at hnext
  | false =>
      simp only [hforce, Bool.false_eq_true, if_false, DecodePc.loop.injEq] at hnext
      refine ⟨by simp, ?_, Or.inl hbehind⟩
      omega

theorem Inv.finish {d : FasterDecoder V} {k : Nat} {s s' : OutputSession V} (h : Inv d k s)
    (hreach : (DecodeSession.system batchSize).Reachable s.session)
    (hs : step d s .finish = some s') : Inv d k s' := by
  obtain ⟨session, hsession, rfl⟩ := Option.map_eq_some_iff.mp hs
  obtain ⟨batchFrame, hpc, hgoes, rfl⟩ := DecodeSession.step_finish hsession
  have hphase := DecodeSession.phase_of_reachable hreach
  have hstate := DecodeSession.finish_state (hphase.batch _ hpc) hgoes
  obtain ⟨-, hle, hwhere⟩ := h.inLoop batchFrame hpc
  refine ⟨h.aligned, h.streamed, ?_, fun _ hne => ?_, fun _ hend => ?_⟩
  · intro next hnext
    dsimp only at hnext
    split at hnext <;> cases hnext
  · rcases hwhere with hbehind | ⟨rfl, hbatch⟩
    · exact hbehind
    · have hlast := DecodeSession.not_last_of_endBatch hreach (Or.inr hpc) hbatch
      rw [if_neg (by rw [hlast]; decide)] at hstate
      exact absurd hstate hne
  · by_cases hlast : s.session.decodable.isLastFrame
        ((s.session.decoder.frame : Int) - 1) = true
    · rw [if_pos hlast] at hstate
      exact absurd (hstate.symm.trans hend) (by decide)
    · have hfull : ¬ batchFrame < batchSize := by
        simpa [OnlineFasterDecoder.goesOn, hlast] using hgoes
      unfold batchSize at hfull
      omega

theorem Inv.traceback {d : FasterDecoder V} {k : Nat} {s s' : OutputSession V}
    (h : Inv d k s) (hs : step d s .traceback = some s') : Inv d k s' := by
  obtain ⟨hreturned, hs⟩ := Option.ite_none_right_eq_some.mp hs
  have hout : ∀ batchFrame, s.session.pc ≠ .loop batchFrame := by
    intro batchFrame hpc
    exact absurd ((h.inLoop batchFrame hpc).1.symm.trans hreturned) (by decide)
  unfold OutputSession.traceback at hs
  split at hs
  case isTrue hbatch =>
    obtain ⟨d', out, htraced, haligned, htoks, hstreamed⟩ :=
      h.aligned.partialTraceback (h.batch hreturned hbatch)
    rw [htraced] at hs
    obtain rfl := Option.some.inj hs
    refine ⟨haligned, ?_, fun batchFrame hpc => absurd hpc (hout batchFrame), ?_, ?_⟩
    · intro hne
      rw [htoks] at hne
      exact hstreamed hne _ _ (h.streamed hne)
    · intro hr
      cases hr
    · intro hr
      cases hr
  case isFalse =>
    obtain ⟨_, -, rfl⟩ := Option.map_eq_some_iff.mp hs
    refine ⟨h.aligned, h.streamed, fun batchFrame hpc => absurd hpc (hout batchFrame), ?_, ?_⟩
    · intro hr
      cases hr
    · intro hr
      cases hr

omit [LinearOrder V] [Add V] in
theorem inv_create (d : FasterDecoder V) : Inv d 0 (create d) := by
  refine ⟨aligned_resetDecoder _, fun _ => streamed_dummyToken _, ?_, ?_, ?_⟩
  · intro _ hpc
    cases hpc
  · intro hr
    cases hr
  · intro hr
    cases hr

theorem inv_of_reachable {d : FasterDecoder V} {s : OutputSession V}
    (h : (system d).Reachable s) : ∃ k, Inv d k s := by
  refine Transition.System.ReachableVia.invariant (fun s => ∃ k, Inv d k s) ?_ ?_ h
  · exact ⟨0, inv_create d⟩
  intro s l s' hreach _ hinv hs
  obtain ⟨k, hinv⟩ := hinv
  have hsession := session_reachable hreach
  replace hs : step d s l = some s' := hs
  cases l with
  | call toks => exact ⟨_, hinv.call hs⟩
  | score e emitted toks =>
      exact ⟨k + 1, hinv.score (DecodeSession.phase_of_reachable hsession) hs⟩
  | finish => exact ⟨k, hinv.finish hsession hs⟩
  | traceback => exact ⟨k, hinv.traceback hs⟩

/-! ## The end of an utterance -/

/-- The words of an utterance that is about to end: those sent already, and those of
`FinishTraceBack`. -/
def allWords (d : FasterDecoder V) (s : OutputSession V) : Option (List Nat) :=
  (finishTraceBack d s.tokens).map fun lattice => s.sent ++ wordIds lattice

omit [LinearOrder V] [Add V] in
/-- The best token is behind the immortal one, unless no frame has been decoded. -/
theorem Inv.immortal_ne_best {d : FasterDecoder V} {k : Nat} {s : OutputSession V}
    (h : Inv d k s) (hbehind : Behind d.toDecodingGraph k s.tokens) {best : Token V}
    (hmem : best ∈ s.tokens.toks) (hne : best ≠ dummyToken d.toDecodingGraph) :
    s.tokens.immortalTok ≠ best := by
  rintro rfl
  rcases hbehind with hstart | hlt
  · exact hne hstart
  · have := h.aligned.level _ hmem
    omega

/-- **No word is lost and none is sent twice.**  When `Decode` has ended an utterance, the
words that have been sent and those of `FinishTraceBack` are exactly the words on the
chain of the best token, if and only if there is an active token, the best one is
not the start token itself, and at no cut of the chain, the start included, the
next arc enters the start state with a word on it. -/
theorem words_once_iff {d : FasterDecoder V} (hfinal : d.FinalReached) {s : OutputSession V}
    (h : (system d).Reachable s) (hreturned : s.returned = true)
    (hended : s.session.decoder.state ≠ .endBatch) :
    (bestTok d s.tokens.toks ≠ [] ∧
        s.allWords d =
          some (Token.words (dummyToken d.toDecodingGraph) (bestTok d s.tokens.toks))) ↔
      s.tokens.toks ≠ [] ∧ bestTok d s.tokens.toks ≠ dummyToken d.toDecodingGraph ∧
        ∀ c, Cut d.toDecodingGraph s.batches c →
          ¬ Token.WordIntoStart d.start c (bestTok d s.tokens.toks) := by
  obtain ⟨k, hinv⟩ := inv_of_reachable h
  have hbehind := hinv.ended hreturned hended
  have hnull : [] ∉ s.tokens.toks := by
    intro hmem
    exact hinv.aligned.ne_nil (List.suffix_nil.mp (hinv.aligned.descend [] hmem))
  rw [bestTok_ne_nil_iff hfinal hnull]
  refine and_congr_right fun hne => ?_
  have hmem := bestTok_mem d ((bestTok_ne_nil_iff hfinal hnull).mpr hne)
  have hsuffix := hinv.aligned.descend _ hmem
  have hstreamed := hinv.streamed hne
  generalize hbest : bestTok d s.tokens.toks = best at *
  by_cases hstart : best = dummyToken d.toDecodingGraph
  · have himmortal : s.tokens.immortalTok = best := by
      refine hsuffix.eq_of_length_le ?_
      rw [hstart]
      exact hstreamed.start.length_le
    have hundefined : s.allWords d = none := by
      have hself := makeLattice_self d.toDecodingGraph hinv.aligned.ne_nil
      rw [allWords, finishTraceBack, hbest, ← himmortal, hself]
      rfl
    rw [hundefined]
    constructor
    · intro heq
      cases heq
    · intro hcond
      exact absurd hstart hcond.1
  · obtain ⟨out, hout, hyes, hno⟩ := makeLattice_words d.toDecodingGraph hsuffix
      (hinv.immortal_ne_best hbehind hmem hstart)
    obtain ⟨lattice, hlattice, rfl⟩ := Option.map_eq_some_iff.mp hout
    have hall : s.allWords d = some (s.sent ++ wordIds lattice) := by
      rw [allWords, finishTraceBack, hbest, hlattice]
      rfl
    rw [hall, Option.some_inj, (hstreamed.extend hsuffix hyes hno).iff]
    exact ⟨fun hclean => ⟨hstart, hclean⟩, fun hcond => hcond.2⟩

/-- A graph whose start state is `0`, and a search that never reaches a final state. -/
def smallDecoder : FasterDecoder Nat where
  start := 0
  final := fun _ => ⊤
  less := fun _ _ => false
  reachedFinal := fun _ => false

theorem smallDecoder_finalReached : smallDecoder.FinalReached := by
  intro toks h
  cases h

/-- The token after so many frames, each over an arc with the word `5`. -/
def frames (k : Nat) : Token Nat :=
  List.replicate k ⟨1, ⟨1, 5, 1⟩, 0⟩ ++ dummyToken smallDecoder.toDecodingGraph

/-- The active tokens at the end of a batch, which share all arcs but the last. -/
def branches : List (Token Nat) := [frames 27, ⟨2, ⟨1, 6, 1⟩, 0⟩ :: frames 26]

/-- The only token one frame later. -/
def lastToken : Token Nat := ⟨1, ⟨1, 7, 1⟩, 0⟩ :: frames 27

/-- An utterance of a batch and one frame more, up to the end of `Decode`. -/
def twoBatches : List (OutputLabel Nat) :=
  [.call [frames 0], .score ⟨true, some (28, false), false⟩ [frames 1] [frames 1]] ++
    (List.range 25).map (fun k => .score ⟨true, none, false⟩ [frames (k + 2)] [frames (k + 2)]) ++
      [.score ⟨true, none, false⟩ branches branches, .finish, .traceback, .call branches,
        .score ⟨true, none, false⟩ [lastToken] [lastToken], .finish]

/-- The words are sent in two pieces, cut where the branches part. -/
theorem words_once_two_batches : ∃ s : OutputSession Nat,
    s.batches = [branches] ∧ s.sent = List.replicate 26 5 ∧
      bestTok smallDecoder s.tokens.toks ≠ [] ∧
        s.allWords smallDecoder =
          some (Token.words (dummyToken smallDecoder.toDecodingGraph)
            (bestTok smallDecoder s.tokens.toks)) := by
  have hrun : ∃ s, (system smallDecoder).runFrom (create smallDecoder) twoBatches = some s ∧
      s.returned = true ∧ s.session.decoder.state = .endFeats ∧ s.tokens.toks = [lastToken] ∧
      s.batches = [branches] ∧ s.sent = List.replicate 26 5 :=
    ⟨_, rfl, rfl, rfl, rfl, rfl, rfl⟩
  obtain ⟨s, hs, hreturned, hstate, htoks, hbatches, hsent⟩ := hrun
  refine ⟨s, hbatches, hsent, (words_once_iff smallDecoder_finalReached
    (Transition.System.reachable_of_run hs) hreturned (by rw [hstate]; decide)).mpr ?_⟩
  rw [htoks]
  exact ⟨List.cons_ne_nil _ _, by decide, fun c _ => Token.not_wordIntoStart_of_forall (by decide)⟩

/-- The token after one frame, over a loop on the start state with the word `5`. -/
def wordToken : Token Nat := ⟨1, ⟨1, 5, 0⟩, 0⟩ :: dummyToken smallDecoder.toDecodingGraph

/-- The session after this frame. -/
def oneFrameEnd : OutputSession Nat where
  session := ⟨⟨.endFeats, 1, 1, false⟩, ⟨0, 1, true⟩, .left, true, [0], false⟩
  tokens := { Tokens.resetDecoder smallDecoder.toDecodingGraph with toks := [wordToken] }
  returned := true
  batches := []
  sent := []

theorem oneFrame_reachable : (system smallDecoder).Reachable oneFrameEnd := by
  have hrun : (system smallDecoder).runFrom (create smallDecoder)
      [.call [frames 0], .score ⟨true, some (1, false), false⟩ [wordToken] [wordToken],
        .finish] = some oneFrameEnd := by
    decide
  exact Transition.System.reachable_of_run hrun

/-- The word is lost if its arc is a loop on the start state. -/
theorem word_lost :
    ¬ ∀ d : FasterDecoder Nat, d.FinalReached → ∀ s, (system d).Reachable s →
      s.returned = true → s.session.decoder.state ≠ .endBatch → s.tokens.toks ≠ [] →
        s.allWords d =
          some (Token.words (dummyToken d.toDecodingGraph) (bestTok d s.tokens.toks)) := by
  intro hall
  have hbad := hall smallDecoder smallDecoder_finalReached _ oneFrame_reachable rfl
    (by decide) (by decide)
  exact absurd hbad (by decide)

end OutputSession

end ThreadedServer
