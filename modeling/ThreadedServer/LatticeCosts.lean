import Mathlib.Algebra.BigOperators.Group.List.Basic
import Mathlib.Algebra.Order.Ring.Rat
import Mathlib.Order.Bounds.Basic
import Mathlib.Tactic.Abel
import ThreadedServer.OutputWords

/-!
# The costs of the lattices

Each arc of a lattice carries two costs.  `MakeLattice` takes the graph cost from the arc of
the token, and what the weight of the token has grown by beyond it is the acoustic cost.
The costs on a lattice are thus what the weight has grown by between its two tokens, and
the lattices of an utterance, one behind the other, carry the weight of the hypothesis that
`FinishTraceBack` has chosen, which is the least one.  An arc that enters the start state at
the beginning of a lattice is taken for that of the dummy token, and its cost is lost.

The costs are exact, in an ordered group.  A weight is `Zero` where it is infinite; the
search keeps no token with such a weight.  `RemoveEpsLocal` leaves the cost of a path as it
is.
-/

namespace ThreadedServer

namespace OnlineTraceback

section Costs

variable {K : Type} [AddCommGroup K]

/-- `weight_.Value()` of a token; of `NULL` it is `0.0`. -/
def value : Token K → K
  | [] => 0
  | n :: _ => n.weight.untopD 0

/-- A `LatticeArc`. -/
structure LatticeArc (K : Type) extends Arc where
  graphCost : K
  acCost : K
  deriving DecidableEq

/-- `l_arc`; the graph cost is that of the arc of the token. -/
def latticeArc (graphCost : Node K → K) (n : Node K) (prev : Token K) : LatticeArc K :=
  let totCost := value (n :: prev) - value prev
  { n.arc with
    graphCost := graphCost n
    acCost := totCost - graphCost n }

/-- A linear lattice: its arcs and the cost of its final state. -/
structure LinearLattice (K : Type) where
  arcs : List (LatticeArc K)
  final : K
  deriving DecidableEq

variable [LinearOrder K]

/-- The cost of the final state. -/
def finalCost (g : DecodingGraph K) : Token K → K
  | [] => 0
  | n :: prev => if finalWeight g (n :: prev) ≠ ⊤ then (g.final n.arc.nextstate).untopD 0 else 0

/-- `MakeLattice`, with the costs. -/
def makeCostLattice (g : DecodingGraph K) (graphCost : Node K → K) (start stop : Token K) :
    Option (LinearLattice K) :=
  (makeLatticeOf (latticeArc graphCost) (fun a => a.nextstate) g start stop).map
    fun arcs => ⟨arcs, finalCost g start⟩

/-- The graph and acoustic costs along some arcs. -/
def pathCost (arcs : List (LatticeArc K)) : K := (arcs.map fun a => a.graphCost + a.acCost).sum

/-- The cost of the paths through some lattices, one behind the other. -/
def pathCosts (lattices : List (LinearLattice K)) : K := (lattices.map fun l => pathCost l.arcs).sum

/-- After `c` the chain of `tok` goes on with an arc that enters the start state. -/
def IntoStart (startState : Nat) (c tok : Token K) : Prop :=
  ∃ n, n :: c <:+ tok ∧ n.arc.nextstate = startState

omit [AddCommGroup K] [LinearOrder K] in
theorem IntoStart.trans {startState : Nat} {c tok later : Token K}
    (h : IntoStart startState c tok) (hle : tok <:+ later) : IntoStart startState c later := by
  obtain ⟨n, hn, hstart⟩ := h
  exact ⟨n, hn.trans hle, hstart⟩

/-! ## One lattice -/

section Arcs

variable {graphCost : Node K → K} {g : DecodingGraph K} {nodes later stop start : Token K}
  {n : Node K}

omit [LinearOrder K] in
theorem pathCost_reverse (arcs : List (LatticeArc K)) : pathCost arcs.reverse = pathCost arcs := by
  rw [pathCost, List.map_reverse, List.sum_reverse, pathCost]

omit [LinearOrder K] in
/-- The costs along a chain are what the weight has grown by. -/
theorem pathCost_arcsOf :
    pathCost (arcsOf (latticeArc graphCost) stop nodes) = value (nodes ++ stop) - value stop := by
  induction nodes with
  | nil => simp [pathCost, arcsOf]
  | cons n nodes ih =>
      have hcons : pathCost (arcsOf (latticeArc graphCost) stop (n :: nodes)) =
          value (n :: (nodes ++ stop)) - value (nodes ++ stop) +
            pathCost (arcsOf (latticeArc graphCost) stop nodes) := by
        simp [pathCost, arcsOf, latticeArc]
      rw [hcons, ih, List.cons_append]
      abel

/-- The lattice between two different tokens of a chain, whose first node is `n`. -/
theorem makeCostLattice_append :
    makeCostLattice g graphCost (nodes ++ n :: stop) stop =
      some ⟨(if n.arc.nextstate = g.start then arcsOf (latticeArc graphCost) (n :: stop) nodes
        else arcsOf (latticeArc graphCost) (n :: stop) nodes ++
          [latticeArc graphCost n stop]).reverse,
        finalCost g (nodes ++ n :: stop)⟩ := by
  rw [makeCostLattice, makeLatticeOf_append]
  rfl

/-- **One lattice.**  Between two tokens of a chain the costs are what the weight has grown
by, unless the first arc enters the start state. -/
theorem makeCostLattice_cost (graphCost : Node K → K) (hsuffix : stop <:+ start)
    (hne : stop ≠ start) (hinto : ¬ IntoStart g.start stop start) :
    ∃ lattice, makeCostLattice g graphCost start stop = some lattice ∧
      pathCost lattice.arcs = value start - value stop ∧ lattice.final = finalCost g start := by
  obtain ⟨nodes, rfl⟩ := hsuffix
  obtain ⟨later, n, rfl⟩ : ∃ later n, nodes = later ++ [n] := by
    rcases List.eq_nil_or_concat nodes with rfl | ⟨later, n, rfl⟩
    · exact absurd rfl hne
    · exact ⟨later, n, List.concat_eq_append⟩
  rw [List.append_assoc, List.singleton_append] at hinto ⊢
  have hnext : n.arc.nextstate ≠ g.start := by
    intro hstart
    exact hinto ⟨n, List.suffix_append _ _, hstart⟩
  refine ⟨_, makeCostLattice_append, ?_, rfl⟩
  have hall : arcsOf (latticeArc graphCost) (n :: stop) later ++ [latticeArc graphCost n stop] =
      arcsOf (latticeArc graphCost) stop (later ++ [n]) := by
    rw [arcsOf_append]
    rfl
  rw [if_neg hnext, pathCost_reverse, hall, pathCost_arcsOf, List.append_assoc]
  rfl

/-- Without its costs the lattice is that of `makeLattice`. -/
theorem makeCostLattice_arcs :
    (makeCostLattice g graphCost start stop).map (fun l => l.arcs.map LatticeArc.toArc) =
      makeLattice g start stop := by
  rw [makeCostLattice, Option.map_map]
  exact (makeLatticeOf_map (latticeArc graphCost) LatticeArc.toArc g start stop).symm

end Arcs

/-! ## The best token -/

/-- The weight of a token. -/
def weight : Token K → WithTop K
  | [] => ⊤
  | n :: _ => n.weight

/-- What `FasterDecoder` promises: the better token has the smaller weight, and a final state
has been reached when an active token is in one. -/
structure Ordered (d : FasterDecoder K) : Prop where
  less : ∀ a b, d.less a b = true ↔ weight b < weight a
  reachedFinal : ∀ toks, d.reachedFinal toks = true ↔
    ∃ tok ∈ toks, finalWeight d.toDecodingGraph tok ≠ ⊤

/-- The weight of the hypothesis that ends in a token: the cost of its final state is a part
of it, if there is a token in a final state. -/
def hypothesisWeight (d : FasterDecoder K) (toks : List (Token K)) (tok : Token K) : WithTop K :=
  if d.reachedFinal toks then finalWeight d.toDecodingGraph tok else weight tok

section Best

variable {d : FasterDecoder K}

theorem bestActive_le (hd : Ordered d) (best : Token K) (toks : List (Token K)) :
    weight (bestActive d best toks) ≤ weight best ∧
      ∀ tok ∈ toks, weight (bestActive d best toks) ≤ weight tok := by
  induction toks generalizing best with
  | nil => exact ⟨le_rfl, by simp⟩
  | cons tok toks ih =>
      rw [bestActive, List.forall_mem_cons]
      split
      case isTrue htake =>
        obtain ⟨hbest, hall⟩ := ih tok
        refine ⟨hbest.trans ?_, hbest, hall⟩
        rcases htake with rfl | hless
        · exact le_top
        · exact ((hd.less _ _).mp hless).le
      case isFalse hkeep =>
        obtain ⟨hbest, hall⟩ := ih best
        refine ⟨hbest, hbest.trans ?_, hall⟩
        rw [not_or, hd.less, not_lt] at hkeep
        exact hkeep.2

theorem bestFinal_le (g : DecodingGraph K) (best : Token K) (toks : List (Token K)) :
    finalWeight g (bestFinal g best (finalWeight g best) toks) ≤ finalWeight g best ∧
      ∀ tok ∈ toks, finalWeight g (bestFinal g best (finalWeight g best) toks) ≤
        finalWeight g tok := by
  induction toks generalizing best with
  | nil => exact ⟨le_rfl, by simp⟩
  | cons tok toks ih =>
      rw [bestFinal, List.forall_mem_cons]
      split
      case isTrue htake =>
        obtain ⟨hbest, hall⟩ := ih tok
        exact ⟨hbest.trans htake.2.le, hbest, hall⟩
      case isFalse hkeep =>
        obtain ⟨hbest, hall⟩ := ih best
        refine ⟨hbest, hbest.trans ?_, hall⟩
        rw [not_and_or, not_not, not_lt] at hkeep
        rcases hkeep with htop | hle
        · rw [htop]
          exact le_top
        · exact hle

/-- `FinishTraceBack` starts from a hypothesis of least weight. -/
theorem bestTok_le (hd : Ordered d) {toks : List (Token K)} {tok : Token K} (htok : tok ∈ toks) :
    hypothesisWeight d toks (bestTok d toks) ≤ hypothesisWeight d toks tok := by
  unfold hypothesisWeight bestTok
  split
  · exact (bestFinal_le d.toDecodingGraph [] toks).2 tok htok
  · exact (bestActive_le hd [] toks).2 tok htok

/-- The cost of the final state makes the weight of the token that of the hypothesis. -/
theorem hypothesisWeight_eq (hd : Ordered d) {toks : List (Token K)} {best : Token K}
    (hbest : best ∈ toks) (hfinite : weight best ≠ ⊤)
    (hreach : d.reachedFinal toks = true → finalWeight d.toDecodingGraph best ≠ ⊤) :
    ((value best + finalCost d.toDecodingGraph best : K) : WithTop K) =
      hypothesisWeight d toks best := by
  cases best with
  | nil => exact absurd rfl hfinite
  | cons n prev =>
      obtain ⟨w, hw⟩ := WithTop.ne_top_iff_exists.mp (show n.weight ≠ ⊤ from hfinite)
      unfold hypothesisWeight
      cases hfinal : d.reachedFinal toks with
      | false =>
          have htop : finalWeight d.toDecodingGraph (n :: prev) = ⊤ := by
            by_contra hne
            have := (hd.reachedFinal toks).mpr ⟨_, hbest, hne⟩
            exact absurd (this.symm.trans hfinal) (by decide)
          simp only [finalCost, htop, ne_eq, not_true_eq_false, if_false, add_zero,
            Bool.false_eq_true]
          simp [value, weight, ← hw]
      | true =>
          have hne := hreach hfinal
          obtain ⟨f, hf⟩ := WithTop.ne_top_iff_exists.mp
            (WithTop.add_ne_top.mp (show n.weight + d.final n.arc.nextstate ≠ ⊤ from hne)).2
          simp only [finalCost, if_pos hne, if_true]
          simp [value, finalWeight, ← hw, ← hf]

end Best

end Costs

end OnlineTraceback

open OnlineTraceback

/-! ## Sessions -/

/-- A session of `OnlineDecode` with the lattices of the partial outputs of its utterance. -/
structure CostSession (K : Type) where
  output : OutputSession K
  lattices : List (LinearLattice K)
  deriving DecidableEq

namespace CostSession

variable {K : Type} [AddCommGroup K] [LinearOrder K]

/-- The lattice that `PartialTraceback` makes, if any. -/
def partialLattice (g : DecodingGraph K) (graphCost : Node K → K) (tokens : Tokens K) :
    Option (Option (LinearLattice K)) :=
  tokens.updateImmortalToken.bind fun tokens =>
    if tokens.immortalTok = tokens.prevImmortalTok then some none
    else (makeCostLattice g graphCost tokens.immortalTok tokens.prevImmortalTok).map some

/-- The lattice that `FinishTraceBack` makes. -/
def finishLattice (d : FasterDecoder K) (graphCost : Node K → K) (tokens : Tokens K) :
    Option (LinearLattice K) :=
  makeCostLattice d.toDecodingGraph graphCost (bestTok d tokens.toks) tokens.immortalTok

def create (d : FasterDecoder K) : CostSession K where
  output := .create d
  lattices := []

/-- The lattices after a step. -/
def nextLattices (d : FasterDecoder K) (graphCost : Node K → K) (s : CostSession K) :
    OutputLabel K → Option (List (LinearLattice K))
  | .call _ => some (if s.output.session.decoder.newUtterance then [] else s.lattices)
  | .traceback =>
      if s.output.session.decoder.state = .endBatch then
        (partialLattice d.toDecodingGraph graphCost s.output.tokens).map fun lattice =>
          s.lattices ++ lattice.toList
      else some s.lattices
  | _ => some s.lattices

def step (d : FasterDecoder K) (graphCost : Node K → K) (s : CostSession K)
    (l : OutputLabel K) : Option (CostSession K) :=
  (s.output.step d l).bind fun output =>
    (s.nextLattices d graphCost l).map fun lattices => { output, lattices }

def system (d : FasterDecoder K) (graphCost : Node K → K) :
    Transition.System (CostSession K) (OutputLabel K) where
  init := create d
  step := step d graphCost

/-- Unless an arc at a cut enters the start state, the lattices carry the weight of the
immortal token. -/
def Priced (d : FasterDecoder K) (s : CostSession K) : Prop :=
  s.output.tokens.toks ≠ [] →
    (∀ c, Cut d.toDecodingGraph s.output.batches c →
      ¬ IntoStart d.start c s.output.tokens.immortalTok) →
    pathCosts s.lattices = value s.output.tokens.immortalTok

section Sessions

variable {d : FasterDecoder K} {graphCost : Node K → K} {s t : CostSession K}
  {l : OutputLabel K}

theorem step_cases (h : step d graphCost s l = some t) :
    s.output.step d l = some t.output ∧ s.nextLattices d graphCost l = some t.lattices := by
  obtain ⟨output, houtput, h⟩ := Option.bind_eq_some_iff.mp h
  obtain ⟨lattices, hlattices, rfl⟩ := Option.map_eq_some_iff.mp h
  exact ⟨houtput, hlattices⟩

theorem output_reachable (h : (system d graphCost).Reachable s) :
    (OutputSession.system d).Reachable s.output := by
  refine h.invariant (fun s : CostSession K => (OutputSession.system d).Reachable s.output) ?_ ?_
  · exact Transition.System.ReachableVia.init
  intro s l t hs hstep
  exact Transition.System.ReachableVia.step hs trivial (step_cases hstep).1

omit [LinearOrder K] in
theorem value_dummyToken (g : DecodingGraph K) : value (dummyToken g) = 0 := rfl

omit [LinearOrder K] in
theorem pathCosts_append (lattices more : List (LinearLattice K)) :
    pathCosts (lattices ++ more) = pathCosts lattices + pathCosts more := by
  rw [pathCosts, List.map_append, List.sum_append, pathCosts, pathCosts]

/-- **A batch has ended.**  The lattice of `PartialTraceback` costs what the weight of the
immortal token has grown by. -/
theorem partialLattice_cost {k : Nat} {tokens after : Tokens K} {out : Option (List Arc)}
    {lattice : Option (LinearLattice K)} (h : Aligned d.toDecodingGraph k tokens) (hk : 0 < k)
    (hne : tokens.toks ≠ [])
    (hpart : tokens.partialTraceback d.toDecodingGraph = some (after, out))
    (hlattice : partialLattice d.toDecodingGraph graphCost tokens = some lattice) :
    tokens.immortalTok <:+ after.immortalTok ∧
      (¬ IntoStart d.start tokens.immortalTok after.immortalTok →
        pathCosts lattice.toList = value after.immortalTok - value tokens.immortalTok) := by
  unfold Tokens.partialTraceback at hpart
  unfold partialLattice at hlattice
  rcases Tokens.updateImmortalToken_spec h.level hk with ⟨hupdate, hnone⟩ |
    ⟨tok, -, htok, hupdate⟩
  · rw [hupdate, Option.bind_some] at hpart hlattice
    have hsame : tokens.immortalTok = tokens.prevImmortalTok := by
      rcases h.marked with hmarked | ⟨himmortal, hprev⟩
      · exact absurd h.descend (hnone.resolve_left hne _ hmarked)
      · exact himmortal.trans hprev.symm
    rw [if_pos hsame] at hpart hlattice
    obtain ⟨rfl, -⟩ := Prod.mk.inj (Option.some.inj hpart)
    obtain rfl := Option.some.inj hlattice
    refine ⟨List.suffix_rfl, fun _ => ?_⟩
    rw [sub_self]
    rfl
  · have hle := h.immortal_suffix hne htok
    rw [hupdate, Option.bind_some] at hpart hlattice
    dsimp only at hpart hlattice
    by_cases hsame : tok = tokens.immortalTok
    · rw [if_pos hsame] at hpart hlattice
      obtain ⟨rfl, -⟩ := Prod.mk.inj (Option.some.inj hpart)
      obtain rfl := Option.some.inj hlattice
      refine ⟨hle, fun _ => ?_⟩
      show (0 : K) = value tok - value tokens.immortalTok
      rw [hsame, sub_self]
    · rw [if_neg hsame] at hpart hlattice
      obtain ⟨_, -, heq⟩ := Option.map_eq_some_iff.mp hpart
      obtain ⟨rfl, -⟩ := Prod.mk.inj heq
      obtain ⟨made, hmade, rfl⟩ := Option.map_eq_some_iff.mp hlattice
      refine ⟨hle, fun hinto => ?_⟩
      obtain ⟨lattice, hcost, hgrown, -⟩ := makeCostLattice_cost graphCost hle
        (fun heq => hsame heq.symm) hinto
      obtain rfl := Option.some.inj (hmade.symm.trans hcost)
      show pathCosts [made] = _
      rw [← hgrown]
      simp [pathCosts]

omit [LinearOrder K] in
theorem priced_create (d : FasterDecoder K) : Priced d (create d) := fun _ _ => rfl

/-- One step of a session. -/
theorem Priced.step (h : Priced d s) (hreach : (OutputSession.system d).Reachable s.output)
    (hs : CostSession.step d graphCost s l = some t) : Priced d t := by
  obtain ⟨hown, hlattices⟩ := step_cases hs
  obtain ⟨k, hinv⟩ := OutputSession.inv_of_reachable hreach
  intro hne hcuts
  cases l with
  | call toks =>
      obtain ⟨⟨-, hnon⟩, hown⟩ := Option.ite_none_right_eq_some.mp hown
      obtain ⟨session, -, hout⟩ := Option.map_eq_some_iff.mp hown
      obtain hlattices := Option.some.inj hlattices
      rw [← hout] at hne hcuts ⊢
      rw [← hlattices]
      unfold OutputSession.beginUtterance at hnon hne hcuts ⊢
      by_cases hnew : s.output.session.decoder.newUtterance = true
      · simp only [hnew, if_true] at hnon hne hcuts ⊢
        exact (value_dummyToken _).symm
      · rw [if_neg hnew] at hnon hcuts ⊢
        rw [if_neg hnew]
        exact h (hnon.ne_nil hne) hcuts
  | score e emitted toks =>
      obtain ⟨⟨hemit, hnon, -⟩, hown⟩ := Option.ite_none_right_eq_some.mp hown
      obtain ⟨session, -, hout⟩ := Option.map_eq_some_iff.mp hown
      obtain hlattices := Option.some.inj hlattices
      rw [← hout] at hne hcuts ⊢
      rw [← hlattices]
      exact h (hemit.ne_nil (hnon.ne_nil hne)) hcuts
  | finish =>
      obtain ⟨session, -, hout⟩ := Option.map_eq_some_iff.mp hown
      obtain hlattices := Option.some.inj hlattices
      rw [← hout] at hne hcuts ⊢
      rw [← hlattices]
      exact h hne hcuts
  | traceback =>
      obtain ⟨hreturned, hown⟩ := Option.ite_none_right_eq_some.mp hown
      unfold OutputSession.traceback at hown
      unfold nextLattices at hlattices
      by_cases hbatch : s.output.session.decoder.state = .endBatch
      · rw [if_pos hbatch] at hown hlattices
        obtain ⟨⟨after, out⟩, hpart, hout⟩ := Option.map_eq_some_iff.mp hown
        obtain ⟨lattice, hlattice, hlattices⟩ := Option.map_eq_some_iff.mp hlattices
        obtain ⟨_, _, hpart', -, htoks, hstreamed⟩ :=
          hinv.aligned.partialTraceback (hinv.batch hreturned hbatch)
        obtain ⟨rfl, rfl⟩ := Prod.mk.inj (Option.some.inj (hpart.symm.trans hpart'))
        rw [← hout] at hne hcuts ⊢
        rw [← hlattices, pathCosts_append]
        dsimp only at hne hcuts ⊢
        rw [htoks] at hne
        obtain ⟨hle, hgrown⟩ := partialLattice_cost hinv.aligned
          (hinv.batch hreturned hbatch) hne hpart hlattice
        have hnew : ∀ c, Cut d.toDecodingGraph s.output.batches c →
            Cut d.toDecodingGraph (s.output.tokens.toks :: s.output.batches) c := by
          rintro c (hc | ⟨earlier, hmem, hc⟩)
          · exact Or.inl hc
          · exact Or.inr ⟨earlier, List.mem_cons_of_mem _ hmem, hc⟩
        have hbefore : pathCosts s.lattices = value s.output.tokens.immortalTok :=
          h hne fun c hc hinto => hcuts c (hnew c hc) (hinto.trans hle)
        rw [hbefore, hgrown (hcuts _ (hnew _ (hinv.streamed hne).cut)), add_sub_cancel]
      · rw [if_neg hbatch] at hown hlattices
        obtain ⟨_, -, hout⟩ := Option.map_eq_some_iff.mp hown
        obtain hlattices := Option.some.inj hlattices
        rw [← hout] at hne hcuts ⊢
        rw [← hlattices]
        exact h hne hcuts

theorem priced_of_reachable (h : (system d graphCost).Reachable s) : Priced d s := by
  refine Transition.System.ReachableVia.invariant (Priced d) (priced_create d) ?_ h
  intro s l t hreach _ hpriced hs
  exact hpriced.step (output_reachable hreach) hs

/-- **The cost of an utterance.**  When `Decode` has ended an utterance in which some frame
has been decoded, the paths through the lattices of its outputs, that of `FinishTraceBack`
included, cost with the final state what the best hypothesis weighs, and no active token
has a hypothesis that weighs less; unless at a cut of the chain an arc enters the start
state. -/
theorem lattices_least (hd : Ordered d) (h : (system d graphCost).Reachable s)
    (hreturned : s.output.returned = true) (hended : s.output.session.decoder.state ≠ .endBatch)
    (hne : s.output.tokens.toks ≠ [])
    (hfinite : ∀ tok ∈ s.output.tokens.toks, weight tok ≠ ⊤)
    (hstart : bestTok d s.output.tokens.toks ≠ dummyToken d.toDecodingGraph)
    (hcuts : ∀ c, Cut d.toDecodingGraph s.output.batches c →
      ¬ IntoStart d.start c (bestTok d s.output.tokens.toks)) :
    ∃ last, finishLattice d graphCost s.output.tokens = some last ∧
      IsLeast {w | ∃ tok ∈ s.output.tokens.toks,
          hypothesisWeight d s.output.tokens.toks tok = w}
        ((pathCosts (s.lattices ++ [last]) + last.final : K) : WithTop K) := by
  obtain ⟨k, hinv⟩ := OutputSession.inv_of_reachable (output_reachable h)
  have hfinal : d.FinalReached := by
    intro toks hreached
    obtain ⟨tok, htok, hweight⟩ := (hd.reachedFinal toks).mp hreached
    cases tok with
    | nil => exact absurd rfl hweight
    | cons n prev =>
        obtain ⟨hn, hstate⟩ := WithTop.add_ne_top.mp
          (show n.weight + d.final n.arc.nextstate ≠ ⊤ from hweight)
        exact ⟨n, prev, htok, hn, hstate⟩
  have hnull : [] ∉ s.output.tokens.toks := fun hmem => hfinite [] hmem rfl
  have hmem := bestTok_mem d ((bestTok_ne_nil_iff hfinal hnull).mpr hne)
  have hreach : d.reachedFinal s.output.tokens.toks = true →
      finalWeight d.toDecodingGraph (bestTok d s.output.tokens.toks) ≠ ⊤ := by
    intro hreached
    obtain ⟨tok, htok, hweight⟩ := (hd.reachedFinal _).mp hreached
    have hle := bestTok_le hd htok
    unfold hypothesisWeight at hle
    rw [if_pos hreached, if_pos hreached] at hle
    exact ne_top_of_le_ne_top hweight hle
  have hweight := hypothesisWeight_eq hd hmem (hfinite _ hmem) hreach
  have hleast := fun tok (htok : tok ∈ s.output.tokens.toks) => bestTok_le hd htok
  unfold finishLattice
  generalize bestTok d s.output.tokens.toks = best at *
  have hsuffix := hinv.aligned.descend best hmem
  have himmortal := hinv.immortal_ne_best (hinv.ended hreturned hended) hmem hstart
  have hpriced := priced_of_reachable h hne fun c hc hinto => hcuts c hc (hinto.trans hsuffix)
  obtain ⟨last, hlast, hcost, hlastFinal⟩ := makeCostLattice_cost graphCost
    hsuffix himmortal (hcuts _ (hinv.streamed hne).cut)
  have htotal : pathCosts (s.lattices ++ [last]) = value best := by
    have hone : pathCosts [last] = pathCost last.arcs := by simp [pathCosts]
    rw [pathCosts_append, hpriced, hone, hcost, add_sub_cancel]
  refine ⟨last, hlast, ?_⟩
  rw [htotal, hlastFinal, hweight]
  refine ⟨⟨best, hmem, rfl⟩, ?_⟩
  rintro w ⟨tok, htok, rfl⟩
  exact hleast tok htok

end Sessions

/-! ## Two hypotheses -/

/-- A graph with the final state `2`. -/
def finalGraph : DecodingGraph ℚ where
  start := 0
  final state := if state = 2 then 3 else ⊤

def finalDecoder : FasterDecoder ℚ where
  toDecodingGraph := finalGraph
  less a b := decide (weight b < weight a)
  reachedFinal toks := toks.any fun tok => decide (finalWeight finalGraph tok ≠ ⊤)

theorem finalDecoder_ordered : Ordered finalDecoder where
  less a b := decide_eq_true_iff
  reachedFinal toks := by
    simp [finalDecoder]

/-- A token of weight `4`, and one of weight `6` in the final state. -/
def twoHypotheses : List (Token ℚ) :=
  [⟨1, ⟨1, 5, 1⟩, 4⟩ :: dummyToken finalGraph, ⟨2, ⟨2, 6, 2⟩, 6⟩ :: dummyToken finalGraph]

/-- The session after an utterance of one frame. -/
def twoHypothesesEnd : CostSession ℚ where
  output :=
    { session := ⟨⟨.endFeats, 1, 1, false⟩, ⟨0, 1, true⟩, .left, true, [0], false⟩
      tokens := { Tokens.resetDecoder finalGraph with toks := twoHypotheses }
      returned := true
      batches := []
      sent := [] }
  lattices := []

theorem twoHypotheses_reachable :
    (system finalDecoder fun n => n.address).Reachable twoHypothesesEnd := by
  have hrun : (system finalDecoder fun n => n.address).runFrom (create finalDecoder)
      [.call [dummyToken finalGraph], .score ⟨true, some (1, false), false⟩ twoHypotheses
        twoHypotheses, .finish] = some twoHypothesesEnd := by decide +kernel
  exact Transition.System.reachable_of_run hrun

/-- The one in the final state is the hypothesis, and its lattice costs `6 + 3`. -/
theorem lattices_least_two :
    ∃ last, finishLattice finalDecoder (fun n => n.address) twoHypothesesEnd.output.tokens =
        some last ∧
      IsLeast {w | ∃ tok ∈ twoHypotheses, hypothesisWeight finalDecoder twoHypotheses tok = w}
        ((pathCosts [last] + last.final : ℚ) : WithTop ℚ) := by
  refine lattices_least finalDecoder_ordered twoHypotheses_reachable rfl (by decide +kernel)
    (by decide +kernel) (by decide +kernel) (by decide +kernel) ?_
  rintro c (rfl | ⟨toks, htoks, -⟩)
  · rintro ⟨n, hn, hnext⟩
    have hbest : bestTok finalDecoder twoHypotheses =
        ⟨2, ⟨2, 6, 2⟩, 6⟩ :: dummyToken finalGraph := by decide +kernel
    have heq := hn.eq_of_length (by
      show _ = (bestTok finalDecoder twoHypotheses).length
      rw [hbest]
      rfl)
    have heq' := heq.trans hbest
    injection heq' with hnode
    rw [hnode] at hnext
    exact absurd hnext (by decide +kernel)
  · cases htoks

end CostSession

end ThreadedServer
