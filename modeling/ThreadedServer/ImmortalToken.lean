import ThreadedServer.OutputWords

/-!
# The immortal token

The forest of tokens that the search grows: `ResetDecoder` plants the start token,
`ProcessEmitting` takes every active token one frame on, `ProcessNonemitting` adds
arcs without input, and tokens are dropped on the way.  Between the frames of an
utterance `PartialTraceback` moves the immortal token, as often as it likes.

All active tokens have the same number of emitting tokens on their chains, whatever
else is on them (`Aligned`).  From this the search of `UpdateImmortalToken` never
falls off a chain, and what it finds stays behind every token that is active later:
`immortal_ancestor`.  The sessions of `OnlineDecode` grow their tokens in this way
(`OutputSession.search_of_reachable`).

When a token is freed is decided by `FasterDecoder`, which is not in the repository;
here a chain is a value, which stays what it is.
-/

namespace ThreadedServer

namespace OnlineTraceback

variable {V : Type}

/-! ## The loop of the search -/

section Loop

variable [DecidableEq V]

/-- The `while (1)` of `UpdateImmortalToken`, entered with this set of emitting
tokens, ends with this `the_one`. -/
inductive SearchEnds : List (Token V) → Option (Token V) → Prop
  | one (tok : Token V) : SearchEnds [tok] (some tok)
  | none : SearchEnds [] none
  | back {first second : Token V} {rest : List (Token V)} {found : Option (Token V)}
      (h : SearchEnds (prevEmitting (first :: second :: rest)) found) :
      SearchEnds (first :: second :: rest) found

/-- `UpdateImmortalToken`, called with these tokens, follows no `NULL` pointer and
returns with those. -/
def UpdateReturns (before after : Tokens V) : Prop :=
  ∃ emitting found, emittingSet before.toks = some emitting ∧ SearchEnds emitting found ∧
    after = found.elim before fun tok =>
      { before with prevImmortalTok := before.immortalTok, immortalTok := tok }

/-- A round goes back on every chain. -/
theorem length_prevEmitting {emitting : List (Token V)} {levels : Nat}
    (hlength : ∀ t ∈ emitting, t.length ≤ levels + 1) :
    ∀ t ∈ prevEmitting emitting, t.length ≤ levels := by
  intro t ht
  obtain ⟨hmem, -⟩ := mem_prevEmitting.mp ht
  obtain ⟨c, hc, rfl⟩ := List.mem_map.mp hmem
  have hskip := (Ancestry.skip_suffix (p := Token.isEmitting) c.tail).length_le
  have htail := List.length_tail (l := c)
  have hle := hlength c hc
  rw [Ancestry.previous]
  omega

/-- **The loop ends.**  As many rounds as the longest chain has nodes are enough, and
the search with that many levels tells how it ends. -/
theorem searchEnds_theOne {levels : Nat} {emitting : List (Token V)}
    (hnull : [] ∉ emitting) (hlength : ∀ t ∈ emitting, t.length ≤ levels) :
    SearchEnds emitting (theOne levels emitting) := by
  induction levels generalizing emitting with
  | zero =>
      have hempty : emitting = [] := by
        refine List.eq_nil_iff_forall_not_mem.mpr fun t ht => ?_
        have hnil := List.length_eq_zero_iff.mp (Nat.le_zero.mp (hlength t ht))
        exact hnull (hnil ▸ ht)
      subst hempty
      exact SearchEnds.none
  | succ levels ih =>
      match emitting with
      | [] => exact SearchEnds.none
      | [tok] => exact SearchEnds.one tok
      | first :: second :: rest =>
          apply SearchEnds.back
          apply ih
          · intro hmem
            exact (mem_prevEmitting.mp hmem).2 rfl
          · exact length_prevEmitting hlength

/-- The update as it is computed is what the loops of the source return. -/
theorem updateReturns_of_some {before after : Tokens V}
    (h : before.updateImmortalToken = some after) : UpdateReturns before after := by
  obtain ⟨found, hsearch, hafter⟩ := Option.map_eq_some_iff.mp h
  obtain ⟨emitting, hset, rfl⟩ := Option.map_eq_some_iff.mp hsearch
  refine ⟨emitting, theOne (before.toks.map List.length).sum emitting, hset, ?_, ?_⟩
  · obtain ⟨hnull, hset⟩ := Option.ite_none_left_eq_some.mp hset
    obtain rfl := Option.some.inj hset
    apply searchEnds_theOne
    · intro hmem
      exact hnull (List.mem_dedup.mp hmem)
    · intro t ht
      obtain ⟨c, hc, rfl⟩ := List.mem_map.mp (List.mem_dedup.mp ht)
      have hle := (Ancestry.skip_suffix (p := Token.isEmitting) c).length_le
      exact hle.trans (List.le_sum_of_mem (List.mem_map_of_mem hc))
  · rw [← hafter]
    cases theOne (before.toks.map List.length).sum emitting <;> rfl

end Loop

/-! ## The walk of `MakeLattice` -/

section Walk

variable [DecidableEq V]

/-- From a token the walk meets each of its ancestors. -/
theorem arcsReverse_of_suffix {stop start : Token V} (h : stop <:+ start) :
    ∃ arcs, arcsReverse stop start = some arcs := by
  obtain ⟨nodes, rfl⟩ := h
  exact ⟨_, arcsReverse_append nodes stop⟩

/-- The words of a lattice are the last ones of the piece. -/
theorem makeLattice_suffix {g : DecodingGraph V} {stop start : Token V} {lattice : List Arc}
    (h : stop <:+ start) (hlattice : makeLattice g start stop = some lattice) :
    wordIds lattice <:+ Token.words stop start := by
  obtain ⟨nodes, rfl⟩ := h
  rcases List.eq_nil_or_concat nodes with rfl | ⟨later, n, rfl⟩
  · cases stop with
    | nil =>
        obtain rfl : [] = lattice := Option.some.inj hlattice
        exact List.nil_suffix
    | cons m rest =>
        rw [List.nil_append, makeLattice_self g (List.cons_ne_nil m rest)] at hlattice
        cases hlattice
  · rw [List.concat_eq_append] at hlattice ⊢
    rw [Token.words_append, Token.outputLabels_append]
    rw [List.append_assoc, List.singleton_append, makeLattice_append] at hlattice
    obtain rfl := Option.some.inj hlattice
    rw [wordIds_reverse]
    split
    · exact List.suffix_append _ _
    · rw [Token.outputLabels_append]

/-- The words of a lattice between two tokens are on every chain behind the second. -/
theorem wordIds_infix {g : DecodingGraph V} {first stop start tok : Token V}
    {lattice : List Arc} (hfirst : first <:+ stop) (hstop : stop <:+ start)
    (hstart : start <:+ tok) (hlattice : makeLattice g start stop = some lattice) :
    wordIds lattice <:+: Token.words first tok := by
  obtain ⟨lost, hlost⟩ := makeLattice_suffix hstop hlattice
  have hwords : Token.words first tok =
      Token.words first stop ++ lost ++ wordIds lattice ++ Token.words start tok := by
    calc Token.words first tok
        = Token.words first stop ++ Token.words stop tok :=
          Token.words_trans hfirst (hstop.trans hstart)
      _ = Token.words first stop ++ (Token.words stop start ++ Token.words start tok) := by
          rw [Token.words_trans hstop hstart]
      _ = Token.words first stop ++ lost ++ wordIds lattice ++ Token.words start tok := by
          rw [← hlost, List.append_assoc, List.append_assoc, List.append_assoc]
  exact ⟨Token.words first stop ++ lost, Token.words start tok, hwords.symm⟩

end Walk

end OnlineTraceback

open OnlineTraceback

/-! ## The forest of an utterance -/

/-- The tokens of a search, `utt_frames_` frames after `ResetDecoder`. -/
structure TokenSearch (V : Type) where
  tokens : Tokens V
  uttFrames : Nat
  deriving DecidableEq

/-- What happens to the tokens. -/
inductive SearchLabel (V : Type)
  | resetDecoder
  /-- a frame; the active tokens after `ProcessEmitting` -/
  | processEmitting (emitted : List (Token V))
  /-- the active tokens after `ProcessNonemitting` -/
  | processNonemitting (reached : List (Token V))
  /-- only these of the active tokens are kept -/
  | prune (kept : List (Token V))
  | partialTraceback

namespace TokenSearch

section Forest

variable {V : Type} [DecidableEq V] [Zero V]

/-- One step of a search; without a successor where `NULL` is dereferenced. -/
def step (g : DecodingGraph V) (s : TokenSearch V) : SearchLabel V → Option (TokenSearch V)
  | .resetDecoder => some { tokens := .resetDecoder g, uttFrames := 0 }
  | .processEmitting emitted =>
      if OutputSession.Emitted s.tokens.toks emitted then
        some { tokens := { s.tokens with toks := emitted }, uttFrames := s.uttFrames + 1 }
      else none
  | .processNonemitting reached =>
      if OutputSession.Nonemitted s.tokens.toks reached then
        some { s with tokens := { s.tokens with toks := reached } }
      else none
  | .prune kept =>
      if kept ⊆ s.tokens.toks then some { s with tokens := { s.tokens with toks := kept } }
      else none
  | .partialTraceback =>
      (s.tokens.partialTraceback g).map fun (tokens, _) => { s with tokens }

/-- The searches of a decoder. -/
def system (g : DecodingGraph V) : Transition.System (TokenSearch V) (SearchLabel V) where
  init := { tokens := .resetDecoder g, uttFrames := 0 }
  step := step g

/-- What holds of the tokens at all times. -/
structure Inv (g : DecodingGraph V) (s : TokenSearch V) : Prop where
  aligned : Aligned g s.uttFrames s.tokens
  root : dummyToken g <:+ s.tokens.prevImmortalTok

omit [DecidableEq V] [Zero V] in
/-- Tokens that are kept are reached over no arc. -/
theorem nonemitted_of_subset {toks kept : List (Token V)} (h : kept ⊆ toks) :
    OutputSession.Nonemitted toks kept := by
  intro tok htok
  refine ⟨tok, h htok, List.suffix_rfl, ?_⟩
  have hpiece := Token.piece_append [] tok
  rw [List.nil_append] at hpiece
  rw [hpiece]
  rfl

omit [Zero V] in
/-- Before the first frame the search finds nothing. -/
theorem searchImmortal_ne_of_level_zero {toks : List (Token V)}
    (hlevel : ∀ tok ∈ toks, Ancestry.level Token.isEmitting tok = 0) (tok : Token V) :
    searchImmortal toks ≠ some (some tok) := by
  intro hsearch
  obtain ⟨emitting, hset, hone⟩ := Option.map_eq_some_iff.mp hsearch
  obtain ⟨hnull, -⟩ := Option.ite_none_left_eq_some.mp hset
  cases toks with
  | nil => cases hone
  | cons first rest =>
      have hskip := Ancestry.skip_of_level_zero (hlevel first List.mem_cons_self)
      apply hnull
      rw [← hskip]
      exact List.mem_cons_self

/-- **An update.**  Whenever it returns, the immortal token stays where it is or moves
on, to what the active tokens share last. -/
theorem update_cases {g : DecodingGraph V} {k : Nat} {before after : Tokens V}
    (h : Aligned g k before) (hu : before.updateImmortalToken = some after) :
    after = before ∨ ∃ tok, Ancestry.LatestCommon Token.isEmitting before.toks tok ∧
      before.toks ≠ [] ∧
      after = { before with prevImmortalTok := before.immortalTok, immortalTok := tok } := by
  rcases Nat.eq_zero_or_pos k with rfl | hk
  · obtain ⟨found, hsearch, rfl⟩ := Option.map_eq_some_iff.mp hu
    cases found with
    | none => exact Or.inl rfl
    | some tok => exact absurd hsearch (searchImmortal_ne_of_level_zero h.level tok)
  · rcases Tokens.updateImmortalToken_spec h.level hk with ⟨hsame, -⟩ | ⟨tok, hne, htok, hmoved⟩
    · exact Or.inl (Option.some.inj (hu.symm.trans hsame))
    · exact Or.inr ⟨tok, htok, hne, Option.some.inj (hu.symm.trans hmoved)⟩

omit [Zero V] in
/-- `PartialTraceback` updates the immortal token and keeps the active ones. -/
theorem partialTraceback_update {g : DecodingGraph V} {before after : Tokens V}
    {out : Option (List Arc)} (h : before.partialTraceback g = some (after, out)) :
    before.updateImmortalToken = some after ∧
      ∀ lattice, out = some lattice →
        makeLattice g after.immortalTok after.prevImmortalTok = some lattice := by
  obtain ⟨tokens, hu, h⟩ := Option.bind_eq_some_iff.mp h
  split at h
  · cases h
    refine ⟨hu, fun lattice hout => ?_⟩
    cases hout
  · obtain ⟨lattice, hlattice, heq⟩ := Option.map_eq_some_iff.mp h
    cases heq
    refine ⟨hu, fun lattice' hout => ?_⟩
    cases hout
    exact hlattice

/-- An update keeps the active tokens in order. -/
theorem Inv.update {g : DecodingGraph V} {s : TokenSearch V} (h : Inv g s)
    {after : Tokens V} (hu : s.tokens.updateImmortalToken = some after) :
    Inv g { s with tokens := after } ∧ after.toks = s.tokens.toks ∧
      s.tokens.immortalTok <:+ after.immortalTok := by
  rcases update_cases h.aligned hu with rfl | ⟨tok, htok, hne, rfl⟩
  · exact ⟨h, rfl, List.suffix_rfl⟩
  · exact ⟨⟨h.aligned.move hne htok, h.aligned.start⟩, rfl,
      h.aligned.immortal_suffix hne htok⟩

/-- **One step.**  Unless it starts the next utterance, it keeps the active tokens in
order and leaves the immortal token behind. -/
theorem Inv.step {g : DecodingGraph V} {s t : TokenSearch V} (h : Inv g s)
    {l : SearchLabel V} (hl : l ≠ .resetDecoder) (hs : step g s l = some t) :
    Inv g t ∧ s.tokens.immortalTok <:+ t.tokens.immortalTok := by
  cases l with
  | resetDecoder => exact absurd rfl hl
  | processEmitting emitted =>
      obtain ⟨hemit, hs⟩ := Option.ite_none_right_eq_some.mp hs
      obtain rfl := Option.some.inj hs
      exact ⟨⟨h.aligned.emitted hemit, h.root⟩, List.suffix_rfl⟩
  | processNonemitting reached =>
      obtain ⟨hnon, hs⟩ := Option.ite_none_right_eq_some.mp hs
      obtain rfl := Option.some.inj hs
      exact ⟨⟨h.aligned.nonemitted hnon, h.root⟩, List.suffix_rfl⟩
  | prune kept =>
      obtain ⟨hkept, hs⟩ := Option.ite_none_right_eq_some.mp hs
      obtain rfl := Option.some.inj hs
      exact ⟨⟨h.aligned.nonemitted (nonemitted_of_subset hkept), h.root⟩, List.suffix_rfl⟩
  | partialTraceback =>
      obtain ⟨⟨after, out⟩, hpart, rfl⟩ := Option.map_eq_some_iff.mp hs
      obtain ⟨hu, -⟩ := partialTraceback_update hpart
      obtain ⟨hinv, -, hle⟩ := h.update hu
      exact ⟨hinv, hle⟩

theorem inv_init (g : DecodingGraph V) : Inv g (system g).init :=
  ⟨aligned_resetDecoder g, List.suffix_rfl⟩

theorem inv_of_reachable {g : DecodingGraph V} {s : TokenSearch V}
    (h : (system g).Reachable s) : Inv g s := by
  refine h.invariant (Inv g) (inv_init g) ?_
  intro s l t hs hstep
  by_cases hl : l = .resetDecoder
  · subst hl
    obtain rfl := Option.some.inj hstep
    exact inv_init g
  · exact (hs.step hl hstep).1

/-- **A run.**  Until the next utterance the immortal token is left behind. -/
theorem Inv.run {g : DecodingGraph V} {s t : TokenSearch V} (h : Inv g s)
    {ls : List (SearchLabel V)} (hls : .resetDecoder ∉ ls)
    (hrun : (system g).runFrom s ls = some t) :
    Inv g t ∧ s.tokens.immortalTok <:+ t.tokens.immortalTok := by
  induction ls generalizing s with
  | nil =>
      obtain rfl : s = t := Option.some.inj hrun
      exact ⟨h, List.suffix_rfl⟩
  | cons l ls ih =>
      obtain ⟨u, hu, hrest⟩ := Option.bind_eq_some_iff.mp hrun
      rw [List.mem_cons, not_or] at hls
      obtain ⟨hinv, hle⟩ := h.step (fun heq => hls.1 heq.symm) hu
      obtain ⟨hend, hlast⟩ := ih hinv hls.2 hrest
      exact ⟨hend, hle.trans hlast⟩

/-! ## What is sent stays on the best path -/

/-- What `UpdateImmortalToken` leaves behind. -/
structure Updated (before after : Tokens V) : Prop where
  toks : after.toks = before.toks
  ancestor : Ancestry.Common after.toks after.immortalTok
  prev : after.prevImmortalTok <:+ after.immortalTok
  /-- either it finds nothing, for want of a shared emitting token, or the latest -/
  latest : after = before ∧
      (before.toks = [] ∨
        ∀ tok, Ancestry.Marked Token.isEmitting tok → ¬ Ancestry.Common before.toks tok) ∨
    after.prevImmortalTok = before.immortalTok ∧
      Ancestry.LatestCommon Token.isEmitting before.toks after.immortalTok

/-- **An update before which a frame was processed returns.** -/
theorem Inv.updated {g : DecodingGraph V} {s : TokenSearch V} (h : Inv g s)
    (hframe : 0 < s.uttFrames) :
    ∃ after, s.tokens.updateImmortalToken = some after ∧ Updated s.tokens after := by
  rcases Tokens.updateImmortalToken_spec h.aligned.level hframe with ⟨hsame, hnone⟩ |
    ⟨tok, hne, htok, hmoved⟩
  · exact ⟨s.tokens, hsame, rfl, h.aligned.descend, h.aligned.prev, Or.inl ⟨rfl, hnone⟩⟩
  · exact ⟨_, hmoved, rfl, htok.common, h.aligned.immortal_suffix hne htok,
      Or.inr ⟨rfl, htok⟩⟩

end Forest

section Sent

variable {V : Type} [LinearOrder V] [Add V] [Zero V]

/-- Both walks of `MakeLattice` meet their end tokens: back from the immortal token, and
back from the best one. -/
structure WalksMeet (d : FasterDecoder V) (tokens : Tokens V) : Prop where
  partialTraceback : ∃ arcs,
    arcsReverse tokens.prevImmortalTok tokens.immortalTok = some arcs
  finishTraceBack : bestTok d tokens.toks ≠ [] →
    ∃ arcs, arcsReverse tokens.immortalTok (bestTok d tokens.toks) = some arcs

/-- What an update, and the lattice that was sent after it, still mean later. -/
structure Lasting (d : FasterDecoder V) (after : Tokens V) (out : Option (List Arc))
    (later : Tokens V) : Prop where
  ancestor : Ancestry.Common later.toks after.immortalTok
  immortal : after.immortalTok <:+ later.immortalTok
  walks : WalksMeet d later
  words : bestTok d later.toks ≠ [] → ∀ lattice, out = some lattice →
    wordIds lattice <:+: Token.words (dummyToken d.toDecodingGraph) (bestTok d later.toks)

theorem Inv.walksMeet {d : FasterDecoder V} {s : TokenSearch V}
    (h : Inv d.toDecodingGraph s) : WalksMeet d s.tokens := by
  refine ⟨arcsReverse_of_suffix h.aligned.prev, fun hbest => ?_⟩
  apply arcsReverse_of_suffix
  exact h.aligned.descend _ (bestTok_mem d hbest)

/-- **The immortal token.**  In every state of the search, a frame at least after
`ResetDecoder`, `UpdateImmortalToken` returns without following a `NULL` pointer.  What
it sets is the latest emitting token that all active ones share; however the search
goes on until the next `ResetDecoder`, the immortal token is an ancestor of all that
become active, what `PartialTraceback` sent is on the best path, and `MakeLattice`
meets the token it walks to. -/
theorem immortal_ancestor (d : FasterDecoder V) {s : TokenSearch V}
    (h : (system d.toDecodingGraph).Reachable s) (hframe : 0 < s.uttFrames) :
    WalksMeet d s.tokens ∧
      ∃ after out, UpdateReturns s.tokens after ∧ Updated s.tokens after ∧
        s.tokens.partialTraceback d.toDecodingGraph = some (after, out) ∧
        ∀ (ls : List (SearchLabel V)) (t : TokenSearch V), .resetDecoder ∉ ls →
          (system d.toDecodingGraph).runFrom { s with tokens := after } ls = some t →
            Lasting d after out t.tokens := by
  have hinv := inv_of_reachable h
  obtain ⟨after, hupdate, hupdated⟩ := hinv.updated hframe
  obtain ⟨tokens, out, hpart, -⟩ := hinv.aligned.partialTraceback hframe
  obtain ⟨hsame, hlattice⟩ := partialTraceback_update hpart
  obtain rfl : after = tokens := Option.some.inj (hupdate.symm.trans hsame)
  refine ⟨hinv.walksMeet, after, out, updateReturns_of_some hupdate, hupdated, hpart, ?_⟩
  intro ls t hls hrun
  have hafter := (hinv.update hupdate).1
  obtain ⟨hlater, hle⟩ := hafter.run hls hrun
  refine ⟨fun tok htok => hle.trans (hlater.aligned.descend tok htok), hle,
    hlater.walksMeet, fun hbest lattice hout => ?_⟩
  have hdescend := hlater.aligned.descend _ (bestTok_mem d hbest)
  exact wordIds_infix hafter.root hafter.aligned.prev (hle.trans hdescend)
    (hlattice lattice hout)

/-- The token after one frame and an arc without input. -/
def silentToken : Token Nat := ⟨2, ⟨0, 0, 2⟩, 0⟩ :: OutputSession.frames 1

/-- Two frames: both the token of the first frame and one that a silent arc leads to
are active after it, and are taken on. -/
def forkedSteps : List (SearchLabel Nat) :=
  [.processEmitting [OutputSession.frames 1],
    .processNonemitting [OutputSession.frames 1, silentToken],
    .processEmitting [⟨3, ⟨1, 0, 1⟩, 0⟩ :: OutputSession.frames 1,
      ⟨4, ⟨1, 7, 3⟩, 0⟩ :: silentToken]]

/-- The search after these steps. -/
def forked : TokenSearch Nat where
  tokens :=
    { Tokens.resetDecoder OutputSession.smallDecoder.toDecodingGraph with
      toks := [⟨3, ⟨1, 0, 1⟩, 0⟩ :: OutputSession.frames 1,
        ⟨4, ⟨1, 7, 3⟩, 0⟩ :: silentToken] }
  uttFrames := 2

/-- Of the two, the token of the first frame is sent. -/
theorem immortal_ancestor_forked :
    ∃ after, UpdateReturns forked.tokens after ∧ Updated forked.tokens after ∧
      after.immortalTok = OutputSession.frames 1 := by
  have hrun : (system OutputSession.smallDecoder.toDecodingGraph).runFrom
      (system OutputSession.smallDecoder.toDecodingGraph).init forkedSteps = some forked := by
    decide
  obtain ⟨-, after, out, hreturns, hupdated, hpart, -⟩ := immortal_ancestor
    OutputSession.smallDecoder (Transition.System.reachable_of_run hrun) (by decide)
  refine ⟨after, hreturns, hupdated, ?_⟩
  have hfirst : forked.tokens.updateImmortalToken.map Tokens.immortalTok =
      some (OutputSession.frames 1) := by decide
  rw [(partialTraceback_update hpart).1] at hfirst
  exact Option.some.inj hfirst

end Sent

end TokenSearch

/-! ## The sessions of `OnlineDecode` -/

namespace OutputSession

variable {V : Type} [LinearOrder V] [Add V] [Zero V]

/-- `Decode` is called: what its beginning does to the tokens. -/
theorem search_call {d : FasterDecoder V} {s s' : OutputSession V} {toks : List (Token V)}
    {k : Nat} (hk : (TokenSearch.system d.toDecodingGraph).Reachable ⟨s.tokens, k⟩)
    (hs : step d s (.call toks) = some s') :
    (TokenSearch.system d.toDecodingGraph).Reachable
      ⟨s'.tokens, if s.session.decoder.newUtterance then 0 else k⟩ := by
  obtain ⟨⟨-, hnon⟩, hs⟩ := Option.ite_none_right_eq_some.mp hs
  obtain ⟨session, -, rfl⟩ := Option.map_eq_some_iff.mp hs
  unfold beginUtterance at hnon ⊢
  split at hnon
  case isTrue hnew =>
    rw [if_pos hnew, if_pos hnew]
    have hreset := Transition.System.ReachableVia.step (e := .resetDecoder) hk trivial rfl
    exact hreset.step (e := .processNonemitting toks) trivial (if_pos hnon)
  case isFalse hold =>
    rw [if_neg hold, if_neg hold]
    exact hk.step (e := .processNonemitting toks) trivial (if_pos hnon)

/-- **The tokens of a session.**  Whatever `OnlineDecode` does, its tokens are those of a
search, and the frames of the utterance are the frames of the search. -/
theorem search_of_reachable {d : FasterDecoder V} {s : OutputSession V}
    (h : (system d).Reachable s) :
    ∃ k, Inv d k s ∧ (TokenSearch.system d.toDecodingGraph).Reachable ⟨s.tokens, k⟩ := by
  refine Transition.System.ReachableVia.invariant (fun s => ∃ k, Inv d k s ∧
    (TokenSearch.system d.toDecodingGraph).Reachable ⟨s.tokens, k⟩) ?_ ?_ h
  · exact ⟨0, inv_create d, Transition.System.ReachableVia.init⟩
  intro s l s' hreach _ hinv hs
  obtain ⟨k, hinv, hk⟩ := hinv
  have hsession := session_reachable hreach
  replace hs : step d s l = some s' := hs
  cases l with
  | call toks => exact ⟨_, hinv.call hs, search_call hk hs⟩
  | score e emitted toks =>
      refine ⟨k + 1, hinv.score (DecodeSession.phase_of_reachable hsession) hs, ?_⟩
      obtain ⟨⟨hemit, hnon, -⟩, hs⟩ := Option.ite_none_right_eq_some.mp hs
      obtain ⟨session, -, rfl⟩ := Option.map_eq_some_iff.mp hs
      have hframe : (TokenSearch.system d.toDecodingGraph).Reachable
          ⟨{ s.tokens with toks := emitted }, k + 1⟩ :=
        hk.step (e := .processEmitting emitted) trivial (if_pos hemit)
      exact hframe.step (e := .processNonemitting toks) trivial (if_pos hnon)
  | finish =>
      refine ⟨k, hinv.finish hsession hs, ?_⟩
      obtain ⟨session, -, rfl⟩ := Option.map_eq_some_iff.mp hs
      exact hk
  | traceback =>
      refine ⟨k, hinv.traceback hs, ?_⟩
      obtain ⟨-, hs⟩ := Option.ite_none_right_eq_some.mp hs
      unfold traceback at hs
      split at hs
      · obtain ⟨⟨after, out⟩, hpart, rfl⟩ := Option.map_eq_some_iff.mp hs
        refine hk.step (e := .partialTraceback) trivial ?_
        exact Option.map_eq_some_iff.mpr ⟨_, hpart, rfl⟩
      · obtain ⟨_, -, rfl⟩ := Option.map_eq_some_iff.mp hs
        exact hk

/-- `OnlineDecode` calls `PartialTraceback` only when a frame has been processed since
`ResetDecoder`. -/
theorem traceback_after_frame {d : FasterDecoder V} {s : OutputSession V}
    (h : (system d).Reachable s) (hreturned : s.returned = true)
    (hbatch : s.session.decoder.state = .endBatch) :
    ∃ k, 0 < k ∧ (TokenSearch.system d.toDecodingGraph).Reachable ⟨s.tokens, k⟩ := by
  obtain ⟨k, hinv, hk⟩ := search_of_reachable h
  exact ⟨k, hinv.batch hreturned hbatch, hk⟩

end OutputSession

end ThreadedServer
