import Mathlib.Data.List.TakeWhile
import ThreadedServer.PhoneSplit
import ThreadedServer.Traceback

/-!
# The end of an utterance

`EndOfUtterance` asks whether the best hypothesis ends with enough silence.  It goes
back from the best active token until it has seen enough emitting arcs, cuts their
transitions into phones, and looks up one transition of each part among the silence
phones.  The silence that is asked for gets shorter as the utterance gets longer.

`RemoveEpsLocal` and `GetLinearSymbolSequence` leave the input labels of the traced
arcs without the epsilons.
-/

namespace ThreadedServer

namespace OnlineTraceback

open TransitionModel

variable {V : Type} [DecidableEq V]

/-- The options that `EndOfUtterance` reads. -/
structure UtteranceOpts where
  interUttSil : Int := 200
  maxUttLen : Int := 1500

/-- `inter_utt_sil / (1 + utt_frames_ / max_utt_len_)`; `none` is a division by zero. -/
def silFrm (opts : UtteranceOpts) (uttFrames : Int) : Option Int :=
  if opts.maxUttLen = 0 then none
  else if 1 + uttFrames.tdiv opts.maxUttLen = 0 then none
  else some (opts.interUttSil.tdiv (1 + uttFrames.tdiv opts.maxUttLen))

/-- The loop of `TracebackNFrames`: `arcs_reverse`. -/
def tracedArcs : Int → Token V → List Arc
  | nframes, n :: prev =>
      if 0 < nframes then
        n.arc :: tracedArcs (if n.arc.ilabel ≠ 0 then nframes - 1 else nframes) prev
      else []
  | _, [] => []

/-- `TracebackNFrames`; `none` is `arcs_reverse.back()` of an empty vector. -/
def tracebackNFrames (d : FasterDecoder V) (toks : List (Token V)) (nframes : Int) :
    Option (List Arc) :=
  match bestActive d [] toks with
  | [] => some []
  | best =>
      match (tracedArcs nframes best).reverse with
      | [] => none
      | first :: arcs => some (if first.nextstate = d.start then arcs else first :: arcs)

/-- The loop of `EndOfUtterance` over the parts; `none` is `split[i][0]` of an empty part. -/
def allSilence (m : TransitionModel) (silenceSet : List Nat) : List (List Nat) → Option Bool
  | [] => some true
  | part :: split => do
      let tid ← part[0]?
      if silenceSet.contains (m.transitionIdToPhone tid) then allSilence m silenceSet split
      else some false

/-- `EndOfUtterance` -/
def endOfUtterance (m : TransitionModel) (d : FasterDecoder V) (opts : UtteranceOpts)
    (silenceSet : List Nat) (uttFrames : Int) (toks : List (Token V)) : Option Bool := do
  let trace ← tracebackNFrames d toks (← silFrm opts uttFrames)
  let isymbols := (trace.map Arc.ilabel).filter (· != 0)
  let (_, split) ← m.splitToPhones isymbols
  allSilence m silenceSet split

/-- The transitions on the way back from a token, the latest first. -/
def transitions (tok : Token V) : List Nat := (tok.map fun n => n.arc.ilabel).filter (· != 0)

omit [DecidableEq V] in
theorem tracedArcs_subset {nframes : Int} {tok : Token V} {arc : Arc}
    (h : arc ∈ tracedArcs nframes tok) : ∃ n ∈ tok, n.arc = arc := by
  induction tok generalizing nframes with
  | nil => exact absurd h (by simp [tracedArcs])
  | cons n prev ih =>
      rw [tracedArcs] at h
      split at h
      case isTrue =>
        rcases List.mem_cons.mp h with rfl | h
        · exact ⟨n, List.mem_cons_self, rfl⟩
        · obtain ⟨n', hn', harc⟩ := ih h
          exact ⟨n', List.mem_cons_of_mem _ hn', harc⟩
      case isFalse => exact absurd h (by simp)

omit [DecidableEq V] in
/-- The traced arcs carry the last `nframes` transitions of the path. -/
theorem tracedArcs_ilabels {tok : Token V} :
    ∀ nframes : Int, ((tracedArcs nframes tok).map Arc.ilabel).filter (· != 0) =
      (transitions tok).take nframes.toNat := by
  induction tok with
  | nil =>
      intro nframes
      simp [tracedArcs, transitions]
  | cons n prev ih =>
      intro nframes
      rw [tracedArcs]
      split
      case isTrue hpos =>
        by_cases hemit : n.arc.ilabel = 0
        · rw [if_neg (by simp [hemit])]
          have := ih nframes
          simpa [transitions, hemit] using this
        · obtain ⟨k, hk⟩ : ∃ k : Nat, nframes = k + 1 := ⟨(nframes - 1).toNat, by omega⟩
          subst hk
          have := ih k
          rw [if_pos hemit, add_sub_cancel_right]
          have htoNat : ((k : Int) + 1).toNat = k + 1 := by omega
          rw [htoNat]
          simpa [transitions, hemit] using this
      case isFalse hpos =>
        have : nframes.toNat = 0 := by omega
        simp [this]

/-- Unless an emitting arc enters the start state, the trace carries the last `nframes`
transitions of the best path. -/
theorem mem_trace_iff {d : FasterDecoder V} {toks : List (Token V)} {nframes : Int}
    {trace : List Arc} (h : tracebackNFrames d toks nframes = some trace)
    (hstart : ∀ n ∈ bestActive d [] toks, n.arc.nextstate = d.start → n.arc.ilabel = 0)
    (tid : Nat) :
    tid ∈ (trace.map Arc.ilabel).filter (· != 0) ↔
      tid ∈ (transitions (bestActive d [] toks)).take nframes.toNat := by
  unfold tracebackNFrames at h
  split at h
  next hnull =>
    obtain rfl := Option.some.inj h
    simp [hnull, transitions]
  next hbest =>
    rw [← tracedArcs_ilabels]
    split at h
    next => exact absurd h (by simp)
    next first arcs harcs =>
      have htraced : tracedArcs nframes (bestActive d [] toks) = (first :: arcs).reverse := by
        rw [← harcs, List.reverse_reverse]
      obtain rfl := Option.some.inj h
      rw [htraced, List.map_reverse, List.filter_reverse, List.mem_reverse]
      by_cases hfirst : first.nextstate = d.start
      · have hmem : first ∈ tracedArcs nframes (bestActive d [] toks) := by
          rw [htraced]
          simp
        obtain ⟨n, hn, rfl⟩ := tracedArcs_subset hmem
        have := hstart n hn hfirst
        simp [hfirst, this]
      · rw [if_neg hfirst]

omit [DecidableEq V] in
/-- A shorter trace is the later part of a longer one. -/
theorem tracedArcs_prefix {tok : Token V} {fewer nframes : Int} (hle : fewer ≤ nframes) :
    tracedArcs fewer tok <+: tracedArcs nframes tok := by
  induction tok generalizing fewer nframes with
  | nil => exact List.prefix_rfl
  | cons n prev ih =>
      rw [tracedArcs, tracedArcs]
      by_cases hpos : 0 < fewer
      · have hle' : (if n.arc.ilabel ≠ 0 then fewer - 1 else fewer) ≤
            if n.arc.ilabel ≠ 0 then nframes - 1 else nframes := by
          split <;> omega
        rw [if_pos hpos, if_pos (Int.lt_of_lt_of_le hpos hle)]
        exact (List.prefix_cons_inj n.arc).mpr (ih hle')
      · rw [if_neg hpos]
        exact List.nil_prefix

/-- A shorter trace has no arc that the longer one has not: only the earliest arc of each may
be taken away. -/
theorem trace_subset {d : FasterDecoder V} {toks : List (Token V)} {fewer nframes : Int}
    {shorter trace : List Arc} (hle : fewer ≤ nframes)
    (hshorter : tracebackNFrames d toks fewer = some shorter)
    (htrace : tracebackNFrames d toks nframes = some trace) : shorter ⊆ trace := by
  unfold tracebackNFrames at hshorter htrace
  split at hshorter
  next =>
    obtain rfl := Option.some.inj hshorter
    exact List.nil_subset _
  next hbest =>
    split at htrace
    case h_1 hnull => exact absurd hnull hbest
    obtain ⟨earlier, hearlier⟩ : tracedArcs fewer (bestActive d [] toks) <+:
        tracedArcs nframes (bestActive d [] toks) := tracedArcs_prefix hle
    rw [← hearlier, List.reverse_append] at htrace
    generalize (tracedArcs fewer (bestActive d [] toks)).reverse = arcs at hshorter htrace
    cases arcs with
    | nil => cases hshorter
    | cons first arcs =>
        obtain rfl := Option.some.inj hshorter
        have hkept : (if first.nextstate = d.start then arcs else first :: arcs) ⊆
            first :: arcs := by
          split
          · exact List.subset_cons_self _ _
          · exact List.Subset.refl _
        cases hrev : earlier.reverse with
        | nil =>
            rw [hrev] at htrace
            obtain rfl := Option.some.inj htrace
            exact List.Subset.refl _
        | cons first' later =>
            rw [hrev] at htrace
            obtain rfl := Option.some.inj htrace
            have hlater : first :: arcs ⊆ later ++ first :: arcs :=
              List.subset_append_right _ _
            have hlonger : later ++ first :: arcs ⊆ (if first'.nextstate = d.start then
                later ++ first :: arcs else first' :: (later ++ first :: arcs)) := by
              split
              · exact List.Subset.refl _
              · exact List.subset_cons_self _ _
            exact List.Subset.trans hkept (List.Subset.trans hlater hlonger)

omit [DecidableEq V] in
/-- The silence that is asked for does not get longer with the utterance. -/
theorem silFrm_antitone {opts : UtteranceOpts} (hsil : 0 ≤ opts.interUttSil)
    (hlen : 0 < opts.maxUttLen) {uttFrames later nframes fewer : Int} (hutt : 0 ≤ uttFrames)
    (hlater : uttFrames ≤ later) (hn : silFrm opts uttFrames = some nframes)
    (hf : silFrm opts later = some fewer) : fewer ≤ nframes := by
  have hquot : ∀ frames : Int, 0 ≤ frames → 0 ≤ frames.tdiv opts.maxUttLen :=
    fun frames hframes => Int.tdiv_nonneg hframes (by omega)
  have hmono := Int.tdiv_le_tdiv hlen hlater
  have h1 := hquot uttFrames hutt
  have h2 := hquot later (by omega)
  unfold silFrm at hn hf
  rw [if_neg (by omega), if_neg (by omega)] at hn hf
  obtain rfl := Option.some.inj hn
  obtain rfl := Option.some.inj hf
  rw [Int.tdiv_eq_ediv_of_nonneg hsil, Int.tdiv_eq_ediv_of_nonneg hsil]
  refine Int.le_ediv_of_mul_le (by omega) ?_
  have hle := Int.ediv_mul_le opts.interUttSil
    (show 1 + later.tdiv opts.maxUttLen ≠ 0 by omega)
  have hnonneg : 0 ≤ opts.interUttSil / (1 + later.tdiv opts.maxUttLen) :=
    Int.ediv_nonneg hsil (by omega)
  calc opts.interUttSil / (1 + later.tdiv opts.maxUttLen) * (1 + uttFrames.tdiv opts.maxUttLen)
      ≤ opts.interUttSil / (1 + later.tdiv opts.maxUttLen) * (1 + later.tdiv opts.maxUttLen) :=
        Int.mul_le_mul_of_nonneg_left (by omega) hnonneg
    _ ≤ opts.interUttSil := hle

/-- The loop over the parts looks at one transition of each. -/
theorem allSilence_iff {m : TransitionModel} (silenceSet : List Nat) {split : List (List Nat)}
    (hsplit : ∀ part ∈ split, part ≠ [] ∧ m.OnePhone part) :
    ∃ b, allSilence m silenceSet split = some b ∧
      (b = true ↔ ∀ tid ∈ split.flatten, m.transitionIdToPhone tid ∈ silenceSet) := by
  induction split with
  | nil => exact ⟨true, rfl, by simp⟩
  | cons part split ih =>
      rw [List.forall_mem_cons] at hsplit
      obtain ⟨⟨hne, hphone⟩, hothers⟩ := hsplit
      obtain ⟨b, hb, hiff⟩ := ih hothers
      obtain ⟨tid, part, rfl⟩ := List.exists_cons_of_ne_nil hne
      have hpart : (∀ t ∈ tid :: part, m.transitionIdToPhone t ∈ silenceSet) ↔
          m.transitionIdToPhone tid ∈ silenceSet := by
        constructor
        · intro h
          exact h tid List.mem_cons_self
        · intro h t ht
          rw [hphone t ht tid List.mem_cons_self]
          exact h
      have hflatten : (∀ t ∈ ((tid :: part) :: split).flatten,
          m.transitionIdToPhone t ∈ silenceSet) ↔
          m.transitionIdToPhone tid ∈ silenceSet ∧ b = true := by
        rw [hiff, ← hpart, List.flatten_cons, List.forall_mem_append]
      by_cases hsilence : m.transitionIdToPhone tid ∈ silenceSet
      · refine ⟨b, ?_, ?_⟩
        · simp [allSilence, hsilence, hb]
        · rw [hflatten]
          simp [hsilence]
      · refine ⟨false, ?_, ?_⟩
        · simp [allSilence, hsilence]
        · rw [hflatten]
          simp [hsilence]

/-- The answer is about every transition of the trace, as each is in a part. -/
theorem endOfUtterance_trace {m : TransitionModel} {d : FasterDecoder V} {opts : UtteranceOpts}
    {silenceSet : List Nat} {uttFrames : Int} {toks : List (Token V)} {b : Bool}
    (h : endOfUtterance m d opts silenceSet uttFrames toks = some b) :
    ∃ nframes trace, silFrm opts uttFrames = some nframes ∧
      tracebackNFrames d toks nframes = some trace ∧
      (b = true ↔ ∀ tid ∈ (trace.map Arc.ilabel).filter (· != 0),
        m.transitionIdToPhone tid ∈ silenceSet) := by
  obtain ⟨nframes, hframes, h⟩ := Option.bind_eq_some_iff.mp h
  obtain ⟨trace, htrace, h⟩ := Option.bind_eq_some_iff.mp h
  obtain ⟨⟨wasOk, split⟩, hsplit, h⟩ := Option.bind_eq_some_iff.mp h
  obtain ⟨reordered, -, hsplit⟩ := Option.bind_eq_some_iff.mp hsplit
  obtain ⟨hflatten, hparts, -⟩ := splitToPhonesInternal_spec hsplit
  obtain ⟨b', hb', hiff⟩ := allSilence_iff silenceSet hparts
  obtain rfl := Option.some.inj (hb'.symm.trans h)
  rw [hflatten] at hiff
  exact ⟨nframes, trace, hframes, htrace, hiff⟩

/-- The utterance has ended just if the last transitions of the best path, as many as the
frames of silence that are asked for, are all of silence phones. -/
theorem endOfUtterance_iff {m : TransitionModel} {d : FasterDecoder V} {opts : UtteranceOpts}
    {silenceSet : List Nat} {uttFrames : Int} {toks : List (Token V)} {b : Bool}
    (hstart : ∀ n ∈ bestActive d [] toks, n.arc.nextstate = d.start → n.arc.ilabel = 0)
    (h : endOfUtterance m d opts silenceSet uttFrames toks = some b) :
    ∃ nframes, silFrm opts uttFrames = some nframes ∧
      (b = true ↔ ∀ tid ∈ (transitions (bestActive d [] toks)).take nframes.toNat,
        m.transitionIdToPhone tid ∈ silenceSet) := by
  obtain ⟨nframes, trace, hframes, htrace, hiff⟩ := endOfUtterance_trace h
  refine ⟨nframes, hframes, ?_⟩
  rw [hiff]
  exact forall_congr' fun tid => imp_congr_left (mem_trace_iff htrace hstart tid)

/-- What has been the end of an utterance is the end of a longer one. -/
theorem endOfUtterance_longer {m : TransitionModel} {d : FasterDecoder V} {opts : UtteranceOpts}
    {silenceSet : List Nat} {uttFrames later : Int} {toks : List (Token V)}
    (hsil : 0 ≤ opts.interUttSil) (hlen : 0 < opts.maxUttLen) (hutt : 0 ≤ uttFrames)
    (hlater : uttFrames ≤ later)
    (h : endOfUtterance m d opts silenceSet uttFrames toks = some true) :
    endOfUtterance m d opts silenceSet later toks ≠ some false := by
  intro hfalse
  obtain ⟨nframes, trace, hframes, htrace, hall⟩ := endOfUtterance_trace h
  obtain ⟨fewer, shorter, hfewer, hshorter, hiff⟩ := endOfUtterance_trace hfalse
  have hle : fewer ≤ nframes := silFrm_antitone hsil hlen hutt hlater hframes hfewer
  have hsubset := trace_subset hle hshorter htrace
  refine absurd (hiff.mpr ?_) (by simp)
  intro tid htid
  obtain ⟨harc, hemit⟩ := List.mem_filter.mp htid
  exact hall.mp rfl tid (List.mem_filter.mpr ⟨List.map_subset _ hsubset harc, hemit⟩)

/-! ## A short silence -/

/-- A decoder whose graph starts in state 0. -/
def silenceDecoder : FasterDecoder Nat where
  start := 0
  final _ := 0
  less _ _ := false
  reachedFinal _ := false

/-- Two frames of the first phone. -/
def silenceToken : Token Nat :=
  [⟨2, ⟨2, 0, 1⟩, 2⟩, ⟨1, ⟨1, 0, 1⟩, 1⟩, ⟨0, ⟨0, 0, 0⟩, 0⟩]

/-- A turn of the self loop and the final transition are one part. -/
theorem twoPhones_silence : twoPhones.splitToPhones [1, 2] = some (true, [[1, 2]]) := by
  have hreordered : twoPhones.isReordered [1, 2] = some false := by decide
  rw [splitToPhones, hreordered, Option.bind_eq_bind, Option.bind_some]
  show twoPhones.splitToPhonesInternal [[1, 2]].flatten false = _
  refine splitToPhonesInternal_flatten ?_ (by simp [Separated, Leaves])
  intro part hpart
  obtain rfl := List.mem_singleton.mp hpart
  exact (twoPhones_passage 0 1).phoneInstance false

/-- The two frames end the utterance. -/
theorem silence_endOfUtterance :
    endOfUtterance twoPhones silenceDecoder ⟨2, 1⟩ [0] 0 [silenceToken] = some true := by
  have htrace : (silFrm ⟨2, 1⟩ 0).bind (tracebackNFrames silenceDecoder [silenceToken]) =
      some [⟨1, 0, 1⟩, ⟨2, 0, 1⟩] := by decide
  obtain ⟨nframes, hframes, htrace⟩ := Option.bind_eq_some_iff.mp htrace
  have hturns : ([⟨1, 0, 1⟩, ⟨2, 0, 1⟩].map Arc.ilabel).filter (· != 0) = [1, 2] := by decide
  simp only [endOfUtterance, hframes, htrace, hturns, twoPhones_silence, Option.bind_eq_bind,
    Option.bind_some]
  decide

theorem endOfUtterance_iff_silence :
    ∃ nframes, silFrm ⟨2, 1⟩ 0 = some nframes ∧
      (true = true ↔ ∀ tid ∈ (transitions (bestActive silenceDecoder [] [silenceToken])).take
        nframes.toNat, twoPhones.transitionIdToPhone tid ∈ [0]) :=
  endOfUtterance_iff (by decide) silence_endOfUtterance

theorem endOfUtterance_longer_silence :
    endOfUtterance twoPhones silenceDecoder ⟨2, 1⟩ [0] 1 [silenceToken] ≠ some false :=
  endOfUtterance_longer (by decide) (by decide) (by decide) (by decide) silence_endOfUtterance

end OnlineTraceback

end ThreadedServer
