import Mathlib.Algebra.Order.BigOperators.Group.List
import Mathlib.Algebra.Order.Ring.Nat
import Mathlib.Algebra.Order.Ring.WithTop
import Mathlib.Data.List.Dedup
import ThreadedServer.Ancestry

/-!
# Tracing back the best path

The search keeps tokens, each with a pointer to the token it came from.  A token
is modelled as the list of nodes from it back to the first one, so that `prev_`
is the tail and `NULL` the empty list; the identifier of a node stands for its
address, so that equal lists are equal pointers.

`UpdateImmortalToken` looks for the latest emitting token that all active tokens
descend from, level by level (`Ancestry`).  `MakeLattice` writes down the arcs
between two tokens, and believes that the first of them is that of the dummy
start token whenever it enters the start state.
-/

namespace ThreadedServer

/-- An arc of the decoding graph, as far as the traceback reads it. -/
structure Arc where
  ilabel : Nat
  olabel : Nat
  nextstate : Nat
  deriving DecidableEq, Repr

/-- A `Token` without its pointer.  The weights are tropical; `⊤` is `Zero`. -/
structure Node (V : Type) where
  address : Nat
  arc : Arc
  weight : WithTop V
  deriving DecidableEq

/-- A `Token*`: the token and those before it; `[]` is `NULL`. -/
abbrev Token (V : Type) := List (Node V)

/-- The decoding graph: `fst_.Start()` and `fst_.Final(state)`. -/
structure DecodingGraph (V : Type) where
  start : Nat
  final : Nat → WithTop V

/-- What the traceback uses of `FasterDecoder`. -/
structure FasterDecoder (V : Type) extends DecodingGraph V where
  /-- `Token::operator<` -/
  less : Token V → Token V → Bool
  /-- `ReachedFinal`, for the active tokens -/
  reachedFinal : List (Token V) → Bool

/-- `ReachedFinal` tells whether an active token can be final. -/
def FasterDecoder.FinalReached {V : Type} (d : FasterDecoder V) : Prop :=
  ∀ toks, d.reachedFinal toks = true →
    ∃ node prev, node :: prev ∈ toks ∧ node.weight ≠ ⊤ ∧ d.final node.arc.nextstate ≠ ⊤

namespace Token

variable {V : Type}

/-- The arc of an emitting token has an input label. -/
def isEmitting (n : Node V) : Bool := n.arc.ilabel != 0

/-- Go back until the token is emitting or `NULL`. -/
def emitting (tok : Token V) : Token V := Ancestry.skip isEmitting tok

/-- The nodes from `start` back to `stop`, exclusive. -/
def piece (stop start : Token V) : List (Node V) := start.take (start.length - stop.length)

/-- The output labels of nodes given from the last back to the first. -/
def outputLabels (nodes : List (Node V)) : List Nat :=
  (nodes.reverse.map fun n => n.arc.olabel).filter (· != 0)

/-- The words on the chain from `stop`, exclusive, to `start`. -/
def words (stop start : Token V) : List Nat := outputLabels (piece stop start)

/-- After `c` the chain of `tok` goes on with an arc that enters the start state and
carries a word. -/
def WordIntoStart (startState : Nat) (c tok : Token V) : Prop :=
  ∃ n, n :: c <:+ tok ∧ n.arc.nextstate = startState ∧ n.arc.olabel ≠ 0

@[simp] theorem piece_append (nodes stop : Token V) : piece stop (nodes ++ stop) = nodes := by
  simp [piece]

@[simp] theorem words_append (nodes stop : Token V) :
    words stop (nodes ++ stop) = outputLabels nodes := by
  simp [words]

@[simp] theorem words_self (tok : Token V) : words tok tok = [] := words_append [] tok

theorem outputLabels_append (later earlier : List (Node V)) :
    outputLabels (later ++ earlier) = outputLabels earlier ++ outputLabels later := by
  simp [outputLabels]

/-- The words of a chain are those of its pieces. -/
theorem words_trans {a b c : Token V} (hab : a <:+ b) (hbc : b <:+ c) :
    words a c = words a b ++ words b c := by
  obtain ⟨ns, rfl⟩ := hab
  obtain ⟨ms, rfl⟩ := hbc
  rw [words_append, words_append, ← List.append_assoc, words_append, outputLabels_append]

/-- What follows a token on a chain is decided at the next one. -/
theorem wordIntoStart_iff_of_suffix {startState : Nat} {c b tok : Token V} (hcb : c <:+ b)
    (hne : c ≠ b) (hb : b <:+ tok) :
    WordIntoStart startState c tok ↔ WordIntoStart startState c b := by
  refine exists_congr fun n => and_congr_left fun _ => ⟨fun h => ?_, fun h => h.trans hb⟩
  refine List.suffix_of_suffix_length_le h hb ?_
  have hlength : c.length ≠ b.length := fun heq => hne (hcb.eq_of_length heq)
  have := hcb.length_le
  simp only [List.length_cons]
  omega

theorem not_wordIntoStart_of_forall {startState : Nat} {c tok : Token V}
    (h : ∀ n ∈ tok, n.arc.nextstate = startState → n.arc.olabel = 0) :
    ¬ WordIntoStart startState c tok := by
  rintro ⟨n, hn, hstate, hlabel⟩
  exact hlabel (h n (hn.subset List.mem_cons_self) hstate)

theorem not_wordIntoStart_self {startState : Nat} (c : Token V) :
    ¬ WordIntoStart startState c c := by
  rintro ⟨n, hn, -⟩
  have := hn.length_le
  simp only [List.length_cons] at this
  omega

end Token

namespace OnlineTraceback

variable {V : Type}

/-! ## `MakeLattice` -/

/-- The arcs from `start` back to `stop`, where `lArc n prev` is made of the token
`n :: prev`; `none` if `NULL` is dereferenced. -/
def arcsReverseOf [DecidableEq V] {A : Type} (lArc : Node V → Token V → A) (stop : Token V) :
    Token V → Option (List A)
  | [] => if [] = stop then some [] else none
  | n :: prev =>
      if n :: prev = stop then some []
      else (arcsReverseOf lArc stop prev).map fun arcs => lArc n prev :: arcs

/-- `MakeLattice`: the arcs of the linear lattice; `none` if `back` is called on an
empty vector or `NULL` is dereferenced. -/
def makeLatticeOf [DecidableEq V] {A : Type} (lArc : Node V → Token V → A) (nextstate : A → Nat)
    (g : DecodingGraph V) (start stop : Token V) : Option (List A) :=
  if start = [] then some []
  else
    (arcsReverseOf lArc stop start).bind fun arcs =>
      arcs.getLast?.map fun back =>
        (if nextstate back = g.start then arcs.dropLast else arcs).reverse

/-- The arcs without their costs. -/
def arcsReverse [DecidableEq V] : Token V → Token V → Option (List Arc) :=
  arcsReverseOf fun n _ => n.arc

/-- The lattice without its costs. -/
def makeLattice [DecidableEq V] : DecodingGraph V → Token V → Token V → Option (List Arc) :=
  makeLatticeOf (fun n _ => n.arc) Arc.nextstate

/-- `GetLinearSymbolSequence`: the words of a linear lattice. -/
def wordIds (lattice : List Arc) : List Nat := (lattice.map Arc.olabel).filter (· != 0)

theorem wordIds_reverse (nodes : List (Node V)) :
    wordIds (nodes.map Node.arc).reverse = Token.outputLabels nodes := by
  simp [wordIds, Token.outputLabels, Function.comp_def]

/-- The arcs of the nodes before `stop`. -/
def arcsOf {A : Type} (lArc : Node V → Token V → A) (stop : Token V) : List (Node V) → List A
  | [] => []
  | n :: nodes => lArc n (nodes ++ stop) :: arcsOf lArc stop nodes

section Arcs

variable {A B : Type} {lArc : Node V → Token V → A} {nodes later stop : Token V}

theorem arcsOf_append : arcsOf lArc stop (later ++ nodes) =
    arcsOf lArc (nodes ++ stop) later ++ arcsOf lArc stop nodes := by
  induction later with
  | nil => rfl
  | cons m later ih =>
      rw [List.cons_append, arcsOf, ih, List.append_assoc, arcsOf, List.cons_append]

theorem arcsOf_arc : arcsOf (fun n _ => n.arc) stop nodes = nodes.map Node.arc := by
  induction nodes with
  | nil => rfl
  | cons n nodes ih => rw [arcsOf, ih, List.map_cons]

variable [DecidableEq V]

theorem arcsReverseOf_append (lArc : Node V → Token V → A) (nodes stop : Token V) :
    arcsReverseOf lArc stop (nodes ++ stop) = some (arcsOf lArc stop nodes) := by
  induction nodes with
  | nil =>
      cases stop with
      | nil => rfl
      | cons n prev => simp [arcsReverseOf, arcsOf]
  | cons n nodes ih =>
      have hne : n :: (nodes ++ stop) ≠ stop := by
        intro heq
        have hlength := congrArg List.length heq
        simp at hlength
        omega
      rw [List.cons_append, arcsReverseOf, if_neg hne, ih]
      rfl

/-- The lattice between two different tokens of a chain, whose first node is `n`. -/
theorem makeLatticeOf_append {nextstate : A → Nat} {g : DecodingGraph V} {n : Node V} :
    makeLatticeOf lArc nextstate g (nodes ++ n :: stop) stop =
      some (if nextstate (lArc n stop) = g.start then arcsOf lArc (n :: stop) nodes
        else arcsOf lArc (n :: stop) nodes ++ [lArc n stop]).reverse := by
  have hne : nodes ++ n :: stop ≠ [] := by simp
  have harcs : arcsReverseOf lArc stop (nodes ++ n :: stop) =
      some (arcsOf lArc (n :: stop) nodes ++ [lArc n stop]) := by
    have h := arcsReverseOf_append lArc (nodes ++ [n]) stop
    rw [arcsOf_append, List.append_assoc] at h
    exact h
  rw [makeLatticeOf, if_neg hne, harcs, Option.bind_some, List.getLast?_concat, Option.map_some,
    List.dropLast_concat]

/-- Arcs made of arcs. -/
theorem arcsReverseOf_map (f : A → B) (stop start : Token V) :
    arcsReverseOf (fun n prev => f (lArc n prev)) stop start =
      (arcsReverseOf lArc stop start).map (List.map f) := by
  induction start with
  | nil =>
      rw [arcsReverseOf, arcsReverseOf]
      split <;> rfl
  | cons n prev ih =>
      rw [arcsReverseOf, arcsReverseOf]
      split
      · rfl
      · rw [ih, Option.map_map, Option.map_map]
        rfl

/-- What the arcs carry besides has no influence on the lattice. -/
theorem makeLatticeOf_map (lArc : Node V → Token V → A) (f : A → B) {nextstate : B → Nat}
    (g : DecodingGraph V) (start stop : Token V) :
    makeLatticeOf (fun n prev => f (lArc n prev)) nextstate g start stop =
      (makeLatticeOf lArc (nextstate ∘ f) g start stop).map (List.map f) := by
  rw [makeLatticeOf, makeLatticeOf, arcsReverseOf_map]
  split
  · rfl
  · cases arcsReverseOf lArc stop start with
    | none => rfl
    | some arcs =>
        rw [Option.map_some, Option.bind_some, Option.bind_some, List.getLast?_map,
          Option.map_map, Option.map_map]
        refine congrFun (congrArg Option.map (funext fun back => ?_)) _
        simp only [Function.comp_apply]
        split
        · rw [← List.map_dropLast, List.map_reverse]
        · rw [List.map_reverse]

end Arcs

section MakeLattice

variable [DecidableEq V]

theorem arcsReverse_append (nodes stop : Token V) :
    arcsReverse stop (nodes ++ stop) = some (nodes.map Node.arc) := by
  rw [arcsReverse, arcsReverseOf_append, arcsOf_arc]

theorem makeLattice_append (g : DecodingGraph V) (nodes : List (Node V)) (n : Node V)
    (stop : Token V) :
    makeLattice g (nodes ++ n :: stop) stop =
      some (((if n.arc.nextstate = g.start then nodes else nodes ++ [n]).map
        Node.arc).reverse) := by
  rw [makeLattice, makeLatticeOf_append, arcsOf_arc]
  split
  · rfl
  · rw [List.map_append]
    rfl

/-- **What a piece says.**  Between two different tokens of a chain all words are
written down, unless the first arc enters the start state and carries a word. -/
theorem makeLattice_words (g : DecodingGraph V) {stop start : Token V} (h : stop <:+ start)
    (hne : stop ≠ start) :
    ∃ out, (makeLattice g start stop).map wordIds = some out ∧
      (¬ Token.WordIntoStart g.start stop start → out = Token.words stop start) ∧
      (Token.WordIntoStart g.start stop start →
        out.length < (Token.words stop start).length) := by
  obtain ⟨nodes, rfl⟩ := h
  obtain ⟨later, n, rfl⟩ : ∃ later n, nodes = later ++ [n] := by
    rcases List.eq_nil_or_concat nodes with rfl | ⟨later, n, rfl⟩
    · exact absurd rfl hne
    · exact ⟨later, n, List.concat_eq_append⟩
  have hfirst : ∀ m, m :: stop <:+ later ++ n :: stop ↔ m = n := by
    intro m
    constructor
    · intro hm
      have hn : n :: stop <:+ later ++ n :: stop := List.suffix_append _ _
      have heq := (List.suffix_of_suffix_length_le hm hn (Nat.le_refl _)).eq_of_length rfl
      injection heq
    · rintro rfl
      exact List.suffix_append _ _
  have hword : Token.WordIntoStart g.start stop (later ++ n :: stop) ↔
      n.arc.nextstate = g.start ∧ n.arc.olabel ≠ 0 := by
    simp only [Token.WordIntoStart, hfirst, exists_eq_left]
  have hwords : Token.words stop (later ++ n :: stop) =
      (if n.arc.olabel = 0 then [] else [n.arc.olabel]) ++ Token.outputLabels later := by
    have happ := Token.words_append (later ++ [n]) stop
    rw [List.append_assoc, List.singleton_append] at happ
    rw [happ, Token.outputLabels_append]
    by_cases hzero : n.arc.olabel = 0 <;> simp [Token.outputLabels, hzero]
  rw [List.append_assoc, List.singleton_append, hword, hwords, makeLattice_append]
  refine ⟨_, rfl, ?_, ?_⟩
  · intro hno
    rw [wordIds_reverse]
    by_cases hstart : n.arc.nextstate = g.start
    · have hzero : n.arc.olabel = 0 := by
        by_contra hword
        exact hno ⟨hstart, hword⟩
      simp [hstart, hzero]
    · rw [if_neg hstart, Token.outputLabels_append]
      by_cases hzero : n.arc.olabel = 0 <;> simp [Token.outputLabels, hzero]
  · rintro ⟨hstart, hword⟩
    rw [wordIds_reverse, if_pos hstart, if_neg hword]
    simp

/-- Between a token and itself there is nothing to call `back` on. -/
theorem makeLattice_self (g : DecodingGraph V) {tok : Token V} (h : tok ≠ []) :
    makeLattice g tok tok = none := by
  have harcs := arcsReverseOf_append (fun n _ => n.arc) [] tok
  rw [List.nil_append] at harcs
  rw [makeLattice, makeLatticeOf, if_neg h, harcs]
  rfl

end MakeLattice

/-! ## `UpdateImmortalToken` -/

section UpdateImmortalToken

variable [DecidableEq V]

/-- The first set of emitting tokens; `none` if `NULL` is dereferenced. -/
def emittingSet (toks : List (Token V)) : Option (List (Token V)) :=
  let emitting := toks.map Token.emitting
  if [] ∈ emitting then none else some emitting.dedup

/-- The emitting tokens before those of a set. -/
def prevEmitting (emitting : List (Token V)) : List (Token V) :=
  ((emitting.map fun tok => Token.emitting tok.tail).filter (· != [])).dedup

/-- The search for the only emitting token of a level; the first argument bounds the
number of levels. -/
def theOne : Nat → List (Token V) → Option (Token V)
  | 0, _ => none
  | levels + 1, emitting =>
      match emitting with
      | [] => none
      | [tok] => some tok
      | first :: second :: rest => theOne levels (prevEmitting (first :: second :: rest))

/-- `UpdateImmortalToken`, its search: the new immortal token, if there is one.  No
chain has more levels than nodes. -/
def searchImmortal (toks : List (Token V)) : Option (Option (Token V)) :=
  (emittingSet toks).map (theOne (toks.map List.length).sum)

theorem mem_prevEmitting {emitting : List (Token V)} {tok : Token V} :
    tok ∈ prevEmitting emitting ↔
      tok ∈ emitting.map (Ancestry.previous Token.isEmitting) ∧ tok ≠ [] := by
  simp [prevEmitting, Token.emitting, Ancestry.previous]

/-- Before the first level there is nothing. -/
theorem prevEmitting_of_level_one {emitting : List (Token V)}
    (hmarked : ∀ t ∈ emitting, Ancestry.Marked Token.isEmitting t)
    (hlevel : ∀ t ∈ emitting, Ancestry.level Token.isEmitting t = 1) :
    prevEmitting emitting = [] := by
  rw [List.eq_nil_iff_forall_not_mem]
  intro t ht
  obtain ⟨hmem, hne⟩ := mem_prevEmitting.mp ht
  obtain ⟨c, hc, rfl⟩ := List.mem_map.mp hmem
  have hprev := (hmarked c hc).level_previous
  rw [hlevel c hc, Ancestry.previous, Ancestry.level_skip] at hprev
  exact hne (Ancestry.skip_of_level_zero (by omega))

omit [DecidableEq V] in
/-- From a later level none gets lost. -/
theorem marked_previous {c : Token V} (hmarked : Ancestry.Marked Token.isEmitting c)
    (hlevel : Ancestry.level Token.isEmitting c ≠ 1) :
    Ancestry.Marked Token.isEmitting (Ancestry.previous Token.isEmitting c) := by
  have hprev := hmarked.level_previous
  rw [Ancestry.previous, Ancestry.level_skip] at hprev
  exact Ancestry.marked_skip_iff.mpr (by omega)

theorem mem_prevEmitting_iff {emitting : List (Token V)}
    (hmarked : ∀ t ∈ emitting, Ancestry.Marked Token.isEmitting t)
    (hlevel : ∀ t ∈ emitting, Ancestry.level Token.isEmitting t ≠ 1) {tok : Token V} :
    tok ∈ prevEmitting emitting ↔ tok ∈ emitting.map (Ancestry.previous Token.isEmitting) := by
  rw [mem_prevEmitting, and_iff_left_iff_imp]
  intro htok
  obtain ⟨c, hc, rfl⟩ := List.mem_map.mp htok
  exact (marked_previous (hmarked c hc) (hlevel c hc)).ne_nil

/-- One round of the search: emitting tokens of one level, behind the first, are
followed back to emitting tokens of the level before. -/
theorem prevEmitting_front {k : Nat} {emitting : List (Token V)}
    (hmarked : ∀ t ∈ emitting, Ancestry.Marked Token.isEmitting t)
    (hlevel : ∀ t ∈ emitting, Ancestry.level Token.isEmitting t = k)
    (hne : emitting ≠ []) (hk : k ≠ 1) :
    (∀ t ∈ prevEmitting emitting, Ancestry.Marked Token.isEmitting t) ∧
      (∀ t ∈ prevEmitting emitting, Ancestry.level Token.isEmitting t = k - 1) ∧
      prevEmitting emitting ≠ [] := by
  have hlater : ∀ t ∈ emitting, Ancestry.level Token.isEmitting t ≠ 1 := by
    intro t ht
    rw [hlevel t ht]
    exact hk
  have hall : ∀ t ∈ prevEmitting emitting, ∃ c ∈ emitting,
      Ancestry.previous Token.isEmitting c = t := by
    intro t ht
    exact List.mem_map.mp ((mem_prevEmitting_iff hmarked hlater).mp ht)
  refine ⟨?_, ?_, ?_⟩
  · intro t ht
    obtain ⟨c, hc, rfl⟩ := hall t ht
    exact marked_previous (hmarked c hc) (hlater c hc)
  · intro t ht
    obtain ⟨c, hc, rfl⟩ := hall t ht
    have hprev := (hmarked c hc).level_previous
    have hthis := hlevel c hc
    omega
  · obtain ⟨first, hfirst⟩ := List.exists_mem_of_ne_nil _ hne
    exact List.ne_nil_of_mem ((mem_prevEmitting_iff hmarked hlater).mpr
      (List.mem_map_of_mem hfirst))

/-- The search finds exactly the latest common emitting ancestor. -/
theorem theOne_eq_some_iff {levels k : Nat} {emitting : List (Token V)} {tok : Token V}
    (hmarked : ∀ t ∈ emitting, Ancestry.Marked Token.isEmitting t)
    (hlevel : ∀ t ∈ emitting, Ancestry.level Token.isEmitting t = k)
    (hnodup : emitting.Nodup) (hne : emitting ≠ []) (hk : k ≤ levels) :
    theOne levels emitting = some tok ↔
      Ancestry.LatestCommon Token.isEmitting emitting tok := by
  induction levels generalizing k emitting with
  | zero =>
      obtain ⟨t, ht⟩ := List.exists_mem_of_ne_nil _ hne
      have hpos := (hmarked t ht).level_pos
      have := hlevel t ht
      omega
  | succ levels ih =>
      match emitting with
      | [] => exact absurd rfl hne
      | [t] =>
          rw [Ancestry.latestCommon_singleton (hmarked t (List.mem_singleton.mpr rfl)), theOne]
          exact ⟨fun h => (Option.some.inj h).symm, fun h => congrArg some h.symm⟩
      | first :: second :: rest =>
          have hfirst : first ∈ first :: second :: rest := List.mem_cons_self
          have hsecond : second ∈ first :: second :: rest := by simp
          have hdiff : first ≠ second := by
            rintro rfl
            simp at hnodup
          rw [theOne]
          generalize first :: second :: rest = emitting at *
          by_cases hone : k = 1
          · have hlevelOne : ∀ t ∈ emitting, Ancestry.level Token.isEmitting t = 1 :=
              fun t ht => (hlevel t ht).trans hone
            have hstuck : theOne levels ([] : List (Token V)) = none := by
              cases levels <;> rfl
            rw [prevEmitting_of_level_one hmarked hlevelOne, hstuck]
            constructor
            · intro h
              cases h
            · intro h
              exact absurd h.common (Ancestry.not_common_of_level_one hmarked hlevelOne hfirst
                hsecond hdiff h.marked)
          · have hlater : ∀ t ∈ emitting, Ancestry.level Token.isEmitting t ≠ 1 :=
              fun t ht heq => hone ((hlevel t ht).symm.trans heq)
            obtain ⟨hmarked', hlevel', hne'⟩ := prevEmitting_front hmarked hlevel hne hone
            rw [ih hmarked' hlevel' (List.nodup_dedup _) hne' (by omega)]
            refine Ancestry.latestCommon_congr fun v hv => ?_
            rw [← Ancestry.common_previous_iff hmarked hlevel hfirst hsecond hdiff hv]
            exact forall_congr' fun t => by rw [mem_prevEmitting_iff hmarked hlater]

/-- **The immortal token.**  When all active tokens have consumed the same number of
frames, one at least, the search is defined and finds their latest common emitting
ancestor. -/
theorem searchImmortal_spec {toks : List (Token V)} {k : Nat}
    (hlevel : ∀ tok ∈ toks, Ancestry.level Token.isEmitting tok = k) (hk : 0 < k) :
    ∃ found, searchImmortal toks = some found ∧
      (toks = [] → found = none) ∧
      (toks ≠ [] → ∀ tok, found = some tok ↔
        Ancestry.LatestCommon Token.isEmitting toks tok) := by
  have hmarked : ∀ t ∈ toks.map Token.emitting, Ancestry.Marked Token.isEmitting t := by
    intro t ht
    obtain ⟨tok, htok, rfl⟩ := List.mem_map.mp ht
    refine Ancestry.marked_skip_iff.mpr ?_
    rw [hlevel tok htok]
    exact hk
  have hset : emittingSet toks = some (toks.map Token.emitting).dedup := by
    refine if_neg fun hnil => ?_
    exact (hmarked [] hnil).ne_nil rfl
  refine ⟨_, by rw [searchImmortal, hset]; rfl, ?_, ?_⟩
  · rintro rfl
    rfl
  intro hne tok
  have hlevels : k ≤ (toks.map List.length).sum := by
    obtain ⟨c, hc⟩ := List.exists_mem_of_ne_nil _ hne
    rw [← hlevel c hc]
    exact List.countP_le_length.trans (List.le_sum_of_mem (List.mem_map_of_mem hc))
  rw [theOne_eq_some_iff (k := k) ?_ ?_ (List.nodup_dedup _) ?_ hlevels]
  · refine Ancestry.latestCommon_congr fun v hv => ?_
    refine Iff.trans ?_ (Ancestry.common_skip_iff hv)
    exact forall_congr' fun t => by rw [List.mem_dedup]; rfl
  · intro t ht
    exact hmarked t (List.mem_dedup.mp ht)
  · intro t ht
    obtain ⟨c, hc, rfl⟩ := List.mem_map.mp (List.mem_dedup.mp ht)
    rw [Token.emitting, Ancestry.level_skip]
    exact hlevel c hc
  · obtain ⟨c, hc⟩ := List.exists_mem_of_ne_nil _ hne
    exact List.ne_nil_of_mem (List.mem_dedup.mpr (List.mem_map_of_mem hc))

end UpdateImmortalToken

/-! ## The tokens of the decoder -/

/-- The token that `ResetDecoder` makes. -/
def dummyToken [Zero V] (g : DecodingGraph V) : Token V :=
  [{ address := 0, arc := ⟨0, 0, g.start⟩, weight := 0 }]

/-- The active tokens and the immortal ones. -/
structure Tokens (V : Type) where
  toks : List (Token V)
  immortalTok : Token V
  prevImmortalTok : Token V
  deriving DecidableEq

namespace Tokens

/-- `ResetDecoder`, its tokens. -/
def resetDecoder [Zero V] (g : DecodingGraph V) : Tokens V where
  toks := [dummyToken g]
  immortalTok := dummyToken g
  prevImmortalTok := dummyToken g

/-- `UpdateImmortalToken`. -/
def updateImmortalToken [DecidableEq V] (d : Tokens V) : Option (Tokens V) :=
  (searchImmortal d.toks).map fun found =>
    match found with
    | some tok => { d with prevImmortalTok := d.immortalTok, immortalTok := tok }
    | none => d

/-- **An update.**  After a frame at least, `UpdateImmortalToken` leaves the tokens as they
are where the active ones share no emitting token, and moves on to the latest they
share where they do. -/
theorem updateImmortalToken_spec [DecidableEq V] {d : Tokens V} {k : Nat}
    (hlevel : ∀ tok ∈ d.toks, Ancestry.level Token.isEmitting tok = k) (hk : 0 < k) :
    d.updateImmortalToken = some d ∧ (d.toks = [] ∨
        ∀ tok, Ancestry.Marked Token.isEmitting tok → ¬ Ancestry.Common d.toks tok) ∨
      ∃ tok, d.toks ≠ [] ∧ Ancestry.LatestCommon Token.isEmitting d.toks tok ∧
        d.updateImmortalToken =
          some { d with prevImmortalTok := d.immortalTok, immortalTok := tok } := by
  obtain ⟨found, hsearch, hnone, hspec⟩ := searchImmortal_spec hlevel hk
  cases found with
  | none =>
      left
      constructor
      · rw [updateImmortalToken, hsearch]
        rfl
      · by_cases hne : d.toks = []
        · exact Or.inl hne
        · right
          intro tok hmarked hcommon
          obtain ⟨latest, hlatest⟩ := Ancestry.exists_latestCommon hne hmarked hcommon
          cases (hspec hne latest).mpr hlatest
  | some tok =>
      have hne : d.toks ≠ [] := by
        intro hnil
        cases hnone hnil
      refine Or.inr ⟨tok, hne, (hspec hne tok).mp rfl, ?_⟩
      rw [updateImmortalToken, hsearch]
      rfl

/-- `PartialTraceback`: the tokens afterwards, and the lattice if it succeeded. -/
def partialTraceback [DecidableEq V] (g : DecodingGraph V) (d : Tokens V) :
    Option (Tokens V × Option (List Arc)) :=
  d.updateImmortalToken.bind fun d =>
    if d.immortalTok = d.prevImmortalTok then some (d, none)
    else (makeLattice g d.immortalTok d.prevImmortalTok).map fun lattice => (d, some lattice)

end Tokens

/-- `Times(tok->weight_, fst_.Final(tok->arc_.nextstate))` -/
def finalWeight [Add V] (g : DecodingGraph V) : Token V → WithTop V
  | [] => ⊤
  | n :: _ => n.weight + g.final n.arc.nextstate

/-- The first loop of `FinishTraceBack`, from `best_tok` on. -/
def bestActive [DecidableEq V] (d : FasterDecoder V) :
    Token V → List (Token V) → Token V
  | best, [] => best
  | best, tok :: toks =>
      bestActive d (if best = [] ∨ d.less best tok = true then tok else best) toks

/-- The second loop of `FinishTraceBack`, from `best_tok` and `best_weight` on. -/
def bestFinal [LinearOrder V] [Add V] (g : DecodingGraph V) :
    Token V → WithTop V → List (Token V) → Token V
  | best, _, [] => best
  | best, bestWeight, tok :: toks =>
      if finalWeight g tok ≠ ⊤ ∧ finalWeight g tok < bestWeight then
        bestFinal g tok (finalWeight g tok) toks
      else bestFinal g best bestWeight toks

/-- The best token of `FinishTraceBack`. -/
def bestTok [LinearOrder V] [Add V] (d : FasterDecoder V) (toks : List (Token V)) : Token V :=
  if d.reachedFinal toks then bestFinal d.toDecodingGraph [] ⊤ toks else bestActive d [] toks

/-- `FinishTraceBack`. -/
def finishTraceBack [LinearOrder V] [Add V] (d : FasterDecoder V) (tokens : Tokens V) :
    Option (List Arc) :=
  makeLattice d.toDecodingGraph (bestTok d tokens.toks) tokens.immortalTok

/-! ## The best token -/

section Best

theorem bestActive_mem [DecidableEq V] (d : FasterDecoder V) (best : Token V)
    (toks : List (Token V)) : bestActive d best toks = best ∨ bestActive d best toks ∈ toks := by
  induction toks generalizing best with
  | nil => exact Or.inl rfl
  | cons tok toks ih =>
      rw [bestActive]
      rcases ih (if best = [] ∨ d.less best tok = true then tok else best) with heq | hmem
      · rw [heq]
        split
        · exact Or.inr List.mem_cons_self
        · exact Or.inl rfl
      · exact Or.inr (List.mem_cons_of_mem _ hmem)

theorem bestActive_ne_nil [DecidableEq V] (d : FasterDecoder V) {best : Token V}
    {toks : List (Token V)} (hnull : [] ∉ toks) (h : best ≠ [] ∨ toks ≠ []) :
    bestActive d best toks ≠ [] := by
  induction toks generalizing best with
  | nil => exact h.resolve_right fun h => h rfl
  | cons tok toks ih =>
      rw [List.mem_cons, not_or] at hnull
      rw [bestActive]
      refine ih hnull.2 (Or.inl ?_)
      split
      case isTrue => exact fun heq => hnull.1 heq.symm
      case isFalse hkeep => exact fun heq => hkeep (Or.inl heq)

variable [LinearOrder V] [Add V]

theorem bestFinal_mem (g : DecodingGraph V) (best : Token V) (w : WithTop V)
    (toks : List (Token V)) : bestFinal g best w toks = best ∨ bestFinal g best w toks ∈ toks := by
  induction toks generalizing best w with
  | nil => exact Or.inl rfl
  | cons tok toks ih =>
      rw [bestFinal]
      split
      · rcases ih tok (finalWeight g tok) with heq | hmem
        · rw [heq]
          exact Or.inr List.mem_cons_self
        · exact Or.inr (List.mem_cons_of_mem _ hmem)
      · exact (ih best w).imp_right (List.mem_cons_of_mem _)

theorem bestFinal_ne_nil (g : DecodingGraph V) {best : Token V} {w : WithTop V}
    {toks : List (Token V)} (hnull : [] ∉ toks)
    (h : best ≠ [] ∨ w = ⊤ ∧ ∃ tok ∈ toks, finalWeight g tok ≠ ⊤) :
    bestFinal g best w toks ≠ [] := by
  induction toks generalizing best w with
  | nil =>
      rcases h with h | ⟨-, tok, hmem, -⟩
      · exact h
      · cases hmem
  | cons tok toks ih =>
      rw [List.mem_cons, not_or] at hnull
      rw [bestFinal]
      split
      case isTrue => exact ih hnull.2 (Or.inl fun heq => hnull.1 heq.symm)
      case isFalse hskip =>
        refine ih hnull.2 (h.imp_right ?_)
        rintro ⟨rfl, t, hmem, hfinite⟩
        refine ⟨rfl, t, ?_, hfinite⟩
        rcases List.mem_cons.mp hmem with rfl | hmem
        · exact absurd ⟨hfinite, lt_top_iff_ne_top.mpr hfinite⟩ hskip
        · exact hmem

/-- The best token is an active one. -/
theorem bestTok_mem (d : FasterDecoder V) {toks : List (Token V)}
    (h : bestTok d toks ≠ []) : bestTok d toks ∈ toks := by
  unfold bestTok at h ⊢
  split at h
  case isTrue hfinal =>
    rw [if_pos hfinal]
    exact (bestFinal_mem _ _ _ _).resolve_left h
  case isFalse hfinal =>
    rw [if_neg hfinal]
    exact (bestActive_mem _ _ _).resolve_left h

/-- As long as there are active tokens, one of them is the best. -/
theorem bestTok_ne_nil_iff {d : FasterDecoder V} (hfinal : d.FinalReached)
    {toks : List (Token V)} (hnull : [] ∉ toks) : bestTok d toks ≠ [] ↔ toks ≠ [] := by
  constructor
  · intro h
    exact List.ne_nil_of_mem (bestTok_mem d h)
  · intro hne
    unfold bestTok
    split
    case isTrue hreached =>
      obtain ⟨n, prev, hmem, hweight, hstate⟩ := hfinal toks hreached
      refine bestFinal_ne_nil _ hnull (Or.inr ⟨rfl, n :: prev, hmem, ?_⟩)
      exact WithTop.add_ne_top.mpr ⟨hweight, hstate⟩
    case isFalse => exact bestActive_ne_nil _ hnull (Or.inr hne)

end Best

end OnlineTraceback

end ThreadedServer
