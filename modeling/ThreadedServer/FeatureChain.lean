import Mathlib.Data.Rat.Sqrt
import ThreadedServer.DeltaInput
import ThreadedServer.FeatureBatches

/-!
# The chain of inputs

`OnlineDecode` puts `OnlineCmvnInput` on the features of the voice activity detector and
`OnlineLdaInput` on that, and has the decoder score the rows that come out.  Each input asks
the one below it for as many rows as it is asked for itself, and passes on what that one
says about more data and about the timeout.

Each row is normalised with its batch, by the last rows of the whole stream, and scored in
its context in the stream of normalised rows; how the stream was cut into batches shows in
the normalisation only.  An entry that is no number goes through with the others.  A batch
that goes in empty stops the program, in the normalisation; one that comes out empty, since
the window could not be filled, ends the scoring with an exception.
-/

namespace ThreadedServer

open Numerics

/-- A call of `Compute`: the rows that are asked for and the timeout, which may be the null
pointer. -/
structure FeatRequest where
  nrows : Nat
  timeout : Option Nat
  deriving DecidableEq, Repr

/-- What `Compute` leaves behind: the rows, whether there is more data, and the timeout. -/
structure Computed (Row : Type*) where
  output : List Row
  moreData : Bool
  timeout : Option Nat
  deriving DecidableEq, Repr

/-- `Compute` of an input with these members; it may stop the program. -/
abbrev OnlineFeatInputItf (σ Row : Type*) := σ → FeatRequest → Option (σ × Computed Row)

namespace OnlineFeatInputItf

variable {σ Row K V : Type*} {dim transRows left right history : Nat}

/-- One call after another. -/
def computeAll (input : OnlineFeatInputItf σ Row) (s : σ) :
    List FeatRequest → Option (σ × List (Computed Row))
  | [] => some (s, [])
  | request :: requests =>
      (input s request).bind fun r =>
        (computeAll input r.1 requests).map fun r' => (r'.1, r.2 :: r'.2)

/-- `OnlineCmvnInput::Compute`. -/
def cmvnInput (A : Arithmetic K V) (input : OnlineFeatInputItf σ (FeatureRow K dim)) :
    OnlineFeatInputItf (σ × OnlineCmn K dim) (FeatureRow V dim) := fun s request =>
  (input s.1 request).bind fun (inner, inMatrix) =>
    (s.2.applyCmvn2 A inMatrix.output).map fun (cmvn, normFeats) =>
      ((inner, cmvn), { inMatrix with output := normFeats })

/-- `OnlineLdaInput::Compute`, with its input. -/
def ldaInput [AddCommMonoid K] [Mul K] (input : OnlineFeatInputItf σ (FeatureRow K dim)) :
    OnlineFeatInputItf (σ × OnlineLdaInput K dim transRows left right) (Fin transRows → K) :=
  fun s request =>
    (input s.1 request).bind fun (inner, featIn) =>
      (s.2.compute request.nrows featIn.output).map fun (lda, output) =>
        ((inner, lda), { featIn with output := output })

/-! ## The rows that come out -/

/-- What is said beside the rows. -/
def remarks (outs : List (Computed Row)) : List (Bool × Option Nat) :=
  outs.map fun out => (out.moreData, out.timeout)

section Cmvn

variable [Field K] [DecidableEq K] (sqrt : K → K)

/-- The batches, each normalised by the last rows that have been seen with it. -/
def normalised (history : Nat) (seen : List (FeatureRow K dim)) :
    List (List (FeatureRow K dim)) → List (FeatureRow (Entry K) dim)
  | [] => []
  | batch :: batches =>
      batch.map (OnlineCmn.normaliseRow sqrt ((seen ++ batch).rtake history)) ++
        normalised history (seen ++ batch) batches

/-- What comes out of `OnlineCmvnInput` is its input's stream, normalised; no batch of it
fails the assertion. -/
theorem cmvnInput_computeAll {input : OnlineFeatInputItf σ (FeatureRow K dim)} {s : σ}
    {cmvn : OnlineCmn K dim} {seen : List (FeatureRow K dim)} {requests : List FeatRequest}
    {r : (σ × OnlineCmn K dim) × List (Computed (FeatureRow (Entry K) dim))}
    (hrecalls : cmvn.Recalls seen)
    (h : (cmvnInput (exact sqrt) input).computeAll (s, cmvn) requests = some r) :
    ∃ ins, input.computeAll s requests = some (r.1.1, ins) ∧ remarks r.2 = remarks ins ∧
      (∀ out ∈ ins, OnlineCmn.numCols out.output = dim) ∧
      r.2.flatMap Computed.output = normalised sqrt cmvn.hist seen (ins.map Computed.output) := by
  induction requests generalizing s cmvn seen r with
  | nil =>
      obtain rfl := Option.some.inj h
      exact ⟨[], rfl, rfl, by simp, rfl⟩
  | cons request requests ih =>
      obtain ⟨first, hfirst, h⟩ := Option.bind_eq_some_iff.mp h
      obtain ⟨later, hlater, rfl⟩ := Option.map_eq_some_iff.mp h
      obtain ⟨⟨inner, inMatrix⟩, hinput, hfirst⟩ := Option.bind_eq_some_iff.mp hfirst
      obtain ⟨call, hcall, rfl⟩ := Option.map_eq_some_iff.mp hfirst
      have hcols := (OnlineCmn.applyCmvn2_eq_some _ hcall).1
      obtain rfl := hrecalls.applyCmvn2_eq_some sqrt hcall
      obtain ⟨ins, hins, hremarks, hall, hrest⟩ := ih (hrecalls.cache inMatrix.output) hlater
      rw [OnlineCmn.cache_hist] at hrest
      refine ⟨inMatrix :: ins, ?_, ?_, ?_, ?_⟩
      · rw [computeAll, hinput, Option.bind_some, hins, Option.map_some]
      · exact congrArg (List.cons (inMatrix.moreData, inMatrix.timeout)) hremarks
      · exact List.forall_mem_cons.mpr ⟨hcols, hall⟩
      · rw [List.map_cons, normalised, List.flatMap_cons, hrest]

end Cmvn

section Lda

variable [AddCommMonoid K] [Mul K]

/-- The calls of `OnlineLdaInput` are those that its input's rows make. -/
theorem ldaInput_computeAll {input : OnlineFeatInputItf σ (FeatureRow K dim)} {s : σ}
    {lda : OnlineLdaInput K dim transRows left right} {requests : List FeatRequest}
    {r : (σ × OnlineLdaInput K dim transRows left right) × List (Computed (Fin transRows → K))}
    (h : (ldaInput input).computeAll (s, lda) requests = some r) :
    ∃ ins, input.computeAll s requests = some (r.1.1, ins) ∧ remarks r.2 = remarks ins ∧
      ins.length = requests.length ∧
      lda.computeAll ((requests.map FeatRequest.nrows).zip (ins.map Computed.output)) =
        some (r.1.2, r.2.map Computed.output) := by
  induction requests generalizing s lda r with
  | nil =>
      obtain rfl := Option.some.inj h
      exact ⟨[], rfl, rfl, rfl, rfl⟩
  | cons request requests ih =>
      obtain ⟨first, hfirst, h⟩ := Option.bind_eq_some_iff.mp h
      obtain ⟨later, hlater, rfl⟩ := Option.map_eq_some_iff.mp h
      obtain ⟨⟨inner, featIn⟩, hinput, hfirst⟩ := Option.bind_eq_some_iff.mp hfirst
      obtain ⟨⟨lda', output⟩, hcompute, rfl⟩ := Option.map_eq_some_iff.mp hfirst
      obtain ⟨ins, hins, hremarks, hlength, hcalls⟩ := ih hlater
      refine ⟨featIn :: ins, ?_, ?_, congrArg (· + 1) hlength, ?_⟩
      · rw [computeAll, hinput, Option.bind_some, hins, Option.map_some]
      · exact congrArg (List.cons (featIn.moreData, featIn.timeout)) hremarks
      · exact Option.bind_eq_some_iff.mpr
          ⟨_, hcompute, Option.map_eq_some_iff.mpr ⟨_, hcalls, rfl⟩⟩

/-- A first batch that is answered with rows has filled the window. -/
theorem computeAll_answered
    {transform : Matrix (Fin transRows) (Fin ((left + right + 1) * dim)) K}
    {nrows : Nat} {first : List (FeatureRow K dim)}
    {batches : List (Nat × List (FeatureRow K dim))}
    {lda : OnlineLdaInput K dim transRows left right} {out : List (Fin transRows → K)}
    {outs : List (List (Fin transRows → K))} (hout : out ≠ [])
    (h : (OnlineLdaInput.create transform).computeAll ((nrows, first) :: batches) =
      some (lda, out :: outs)) :
    (out :: outs).flatten = reference (first ++ (batches.map Prod.snd).flatten) transform := by
  obtain ⟨r, hr, hlater⟩ := Option.bind_eq_some_iff.mp h
  obtain ⟨later, -, heq⟩ := Option.map_eq_some_iff.mp hlater
  obtain rfl : r.2 = out := (List.cons.inj (Prod.mk.inj heq).2).1
  rw [compute_create] at hr
  have hkept : dropped (left + right + 1) (nrows, first) = false := by
    by_contra hdrop
    rw [Bool.not_eq_false] at hdrop
    rw [if_pos hdrop] at hr
    obtain rfl := Option.some.inj hr
    exact hout rfl
  rw [hkept, if_neg Bool.false_ne_true] at hr
  obtain ⟨window, hinit, -⟩ := Option.map_eq_some_iff.mp hr
  have hne : first ≠ [] := by
    rintro rfl
    exact Option.some_ne_none _ hinit.symm
  have hright : right ≤ first.length :=
    (initFeatWindow_isSome_iff hne).mp (Option.isSome_iff_exists.mpr ⟨window, hinit⟩)
  have hbegins : ∃ r, (OnlineLdaInput.create transform).computeAll ((nrows, first) :: batches) =
      some r ∧ r.2.flatten = reference (first ++ (batches.map Prod.snd).flatten) transform :=
    computeAll_begins transform hkept hne hright
  obtain ⟨r', hr', hreference⟩ := hbegins
  obtain rfl := Option.some.inj (h.symm.trans hr')
  exact hreference

omit [AddCommMonoid K] [Mul K] in
/-- The rows of all answers. -/
theorem flatMap_output (outs : List (Computed Row)) :
    outs.flatMap Computed.output = (outs.map Computed.output).flatten := List.flatMap_def ..

/-- A row of the reference. -/
theorem reference_getElem? {rows : List (FeatureRow K dim)}
    {transform : Matrix (Fin transRows) (Fin ((left + right + 1) * dim)) K} {t : Nat}
    {row : Fin transRows → K} (h : (reference rows transform)[t]? = some row) :
    t + right < rows.length ∧
      row = transformRow transform (splicedRow (context left right rows t)) := by
  rw [reference, List.getElem?_map] at h
  obtain ⟨k, hk, rfl⟩ := Option.map_eq_some_iff.mp h
  obtain ⟨hlt, rfl⟩ := List.getElem?_eq_some_iff.mp hk
  rw [List.length_range] at hlt
  rw [List.getElem_range]
  exact ⟨by omega, rfl⟩

/-- Where the first call is answered with rows, all of them are the reference. -/
theorem ldaInput_reference {input : OnlineFeatInputItf σ (FeatureRow K dim)} {s : σ}
    {transform : Matrix (Fin transRows) (Fin ((left + right + 1) * dim)) K}
    {requests : List FeatRequest}
    {r : (σ × OnlineLdaInput K dim transRows left right) × List (Computed (Fin transRows → K))}
    (h : (ldaInput input).computeAll (s, .create transform) requests = some r) :
    ∃ ins, input.computeAll s requests = some (r.1.1, ins) ∧ remarks r.2 = remarks ins ∧
      ((∀ out ∈ r.2.head?, out.output ≠ []) →
        (r.2.map Computed.output).flatten =
          reference (ins.flatMap Computed.output) transform) := by
  obtain ⟨ins, hins, hremarks, hlength, hcalls⟩ := ldaInput_computeAll h
  refine ⟨ins, hins, hremarks, fun hfirst => ?_⟩
  have hrows : ((requests.map FeatRequest.nrows).zip (ins.map Computed.output)).map Prod.snd =
      ins.map Computed.output := by
    apply List.map_snd_zip
    rw [List.length_map, List.length_map, hlength]
  rw [flatMap_output, ← hrows]
  obtain ⟨last, outs⟩ := r
  cases hzip : (requests.map FeatRequest.nrows).zip (ins.map Computed.output) with
  | nil =>
      rw [hzip] at hcalls
      rw [← (Prod.mk.inj (Option.some.inj hcalls)).2]
      simp [reference]
  | cons call calls =>
      rw [hzip] at hcalls
      cases outs with
      | nil =>
          obtain ⟨_, -, hlater⟩ := Option.bind_eq_some_iff.mp hcalls
          obtain ⟨_, -, heq⟩ := Option.map_eq_some_iff.mp hlater
          cases (Prod.mk.inj heq).2
      | cons out outs => exact computeAll_answered (hfirst out rfl) hcalls

end Lda

end OnlineFeatInputItf

/-! ## Batches that may be empty -/

namespace ScoreSession

open OnlineDecodableDiagGmmScaled

variable {Row ι S : Type*} {score : Row → ι → S} {batches taken : List (List Row)}
  {s t : ScoreSession Row ι S} {frame : Nat}

/-- Requests are answered, until an empty batch has come. -/
def Served (score : Row → ι → S) (batches : List (List Row)) (s : ScoreSession Row ι S) : Prop :=
  (∃ taken, Inv score batches s taken) ∨
    (s.failure = some .endOfFeatures ∧ [] ∈ batches) ∧ ∀ e ∈ s.scored, Scored score batches e

/-- A request that brings an empty batch. -/
theorem request_empty (score : Row → ι → S) {rest : List (List Row)} {frame : Nat}
    (hbeyond : s.decodable.beyond frame = true) (hmore : s.decodable.finished = false)
    (hinput : s.input = [] :: rest) (index : ι) :
    (s.request score frame index).failure = some .endOfFeatures ∧
      (s.request score frame index).scored = s.scored := by
  have hlog : logLikelihood score s.decodable s.input frame index = .error .endOfFeatures := by
    simp [logLikelihood, fetch, load, hbeyond, hmore, hinput]
  simp [request, hlog]

/-- The first frame beyond the batch that is held, whatever comes next. -/
theorem Inv.request_next (h : Inv score batches s taken)
    (htotal : batches.flatten.length < 2 ^ 31) (hmore : s.decodable.finished = false)
    (index : ι) : Served score batches (s.request score s.decodable.counters.rows index) := by
  obtain ⟨batch, rest, hinput⟩ := h.holds.next hmore
  by_cases hne : batch = []
  · subst hne
    obtain ⟨hfailure, hscored⟩ :=
      request_empty score (h.holds.beyond htotal) hmore hinput index
    have hempty : [] ∈ batches := by
      rw [h.holds.split, hinput]
      exact List.mem_append_right taken List.mem_cons_self
    refine .inr ⟨⟨hfailure, hempty⟩, ?_⟩
    rw [hscored]
    exact h.scored
  · exact .inl ⟨_, h.request_beyond htotal hmore hinput hne index⟩

theorem Served.step (h : Served score batches s) (htotal : batches.flatten.length < 2 ^ 31)
    {l : ScoreLabel ι} (hs : s.step score l = some t) : Served score batches t := by
  rcases h with ⟨taken, h⟩ | ⟨⟨hfailure, -⟩, -⟩
  · obtain ⟨frame, index, rfl, ⟨hlo, hhi⟩ | ⟨rfl, hmore⟩⟩ := h.asks htotal hs
    · exact .inl ⟨taken, h.request_within htotal hlo hhi index⟩
    · exact h.request_next htotal hmore index
  · -- nothing is asked for after the exception
    rw [(step_cases hs).1] at hfailure
    cases hfailure

theorem Served.failure (h : Served score batches s) :
    s.failure = none ∨ s.failure = some .endOfFeatures ∧ [] ∈ batches := by
  rcases h with ⟨taken, hinv⟩ | ⟨hfailure, -⟩
  · exact .inl hinv.failure
  · exact .inr hfailure

theorem Served.scored (h : Served score batches s) :
    ∀ e ∈ s.scored, Scored score batches e := by
  rcases h with ⟨taken, hinv⟩ | ⟨-, hscored⟩
  · exact hinv.scored
  · exact hscored

theorem served (hne : batches ≠ []) (htotal : batches.flatten.length < 2 ^ 31)
    (hs : (system score batches).Reachable s) : Served score batches s := by
  apply hs.invariant (Served score batches) (.inl ⟨[], inv_create hne⟩)
  intro s l t hserved hstep
  exact hserved.step htotal hstep

/-- The first request fails where the first batch is empty. -/
theorem create_step_empty {rest : List (List Row)} {l : ScoreLabel ι}
    (hs : (create ([] :: rest)).step score l = some t) :
    t.failure = some .endOfFeatures ∧ t.scored = [] := by
  obtain ⟨-, frame, index, rfl, hcurrent | ⟨rfl, -⟩⟩ := step_cases hs
  · cases hcurrent
  · have hbeyond : (create ([] :: rest) : ScoreSession Row ι S).decodable.beyond (0 : Nat) =
        true := rfl
    exact request_empty score hbeyond rfl rfl index

/-- Where the first batch is empty, nothing is scored. -/
theorem scored_of_empty {rest : List (List Row)}
    (hs : (system score ([] :: rest)).Reachable s) : s.scored = [] := by
  have hinv : s = create ([] :: rest) ∨
      s.failure = some .endOfFeatures ∧ s.scored = [] := by
    apply hs.invariant
      (fun s => s = create ([] :: rest) ∨ s.failure = some .endOfFeatures ∧ s.scored = [])
      (.inl rfl)
    intro s l t hs hstep
    rcases hs with rfl | ⟨hfailure, -⟩
    · exact .inr (create_step_empty hstep)
    · rw [(step_cases hstep).1] at hfailure
      cases hfailure
  rcases hinv with rfl | ⟨-, hscored⟩
  · rfl
  · exact hscored

end ScoreSession

/-! ## The whole chain -/

section Chain

open OnlineFeatInputItf

variable {σ ι S K : Type*} [Field K] [DecidableEq K] {dim transRows left right history : Nat}

/-- **Each frame in its context.**  However many rows the decoder asks for and whatever the
input delivers, as long as no call stops the program, with the last batch the one that says
that there is no more: no batch of the input was empty; requests are answered until a batch
comes out empty, which is the only way in which they fail; and every score is that of the
transform of `left + right + 1` rows around its frame, in the stream of all rows that the
input has delivered, each normalised by the last rows seen with its batch.  What the input
says beside its rows goes through unchanged. -/
theorem frames_scored_in_context (sqrt : K → K)
    {transform : Matrix (Fin transRows) (Fin ((left + right + 1) * dim)) (Entry K)}
    (score : FeatureRow (Entry K) transRows → ι → S)
    {input : OnlineFeatInputItf σ (FeatureRow K dim)} {s : σ} {requests : List FeatRequest}
    {r : ((σ × OnlineCmn K dim) × OnlineLdaInput (Entry K) dim transRows left right) ×
      List (Computed (FeatureRow (Entry K) transRows))} {n : Nat}
    (hhistory : 0 < history)
    (hrun : (ldaInput (cmvnInput (exact sqrt) input)).computeAll
      ((s, .create dim history), .create transform) requests = some r)
    (hends : r.2.map Computed.moreData = List.replicate n true ++ [false])
    (htotal : (r.2.flatMap Computed.output).length < 2 ^ 31)
    {session : ScoreSession (FeatureRow (Entry K) transRows) ι S}
    (hs : (ScoreSession.system score (r.2.map Computed.output)).Reachable session) :
    ∃ (ins : List (Computed (FeatureRow K dim))) (rows : List (FeatureRow (Entry K) dim)),
      input.computeAll s requests = some (r.1.1.1, ins) ∧ remarks r.2 = remarks ins ∧
      (∀ out ∈ ins, OnlineCmn.numCols out.output = dim) ∧
      rows = normalised sqrt history [] (ins.map Computed.output) ∧
      (session.failure = none ∨
        session.failure = some .endOfFeatures ∧ [] ∈ r.2.map Computed.output) ∧
      ∀ e ∈ session.scored, e.1 + right < rows.length ∧
        e.2.2 = score (transformRow transform (splicedRow (context left right rows e.1)))
          e.2.1 := by
  obtain ⟨mids, hmids, hremarks, hreference⟩ := ldaInput_reference hrun
  obtain ⟨ins, hins, hremarks', hcols, hnorm⟩ :=
    cmvnInput_computeAll sqrt (OnlineCmn.recalls_create hhistory) hmids
  have hne : r.2.map Computed.output ≠ [] := by
    intro hnil
    rw [List.map_eq_nil_iff.mp hnil] at hends
    simp at hends
  rw [flatMap_output] at htotal
  have hserved := ScoreSession.served hne htotal hs
  refine ⟨ins, mids.flatMap Computed.output, hins, hremarks.trans hremarks', hcols, hnorm,
    hserved.failure, ?_⟩
  intro e he
  have hfirst : ∀ out ∈ r.2.head?, out.output ≠ [] := by
    intro out hout hempty
    obtain ⟨outs, houts⟩ := List.head?_eq_some_iff.mp hout
    rw [houts, List.map_cons, hempty] at hs
    rw [ScoreSession.scored_of_empty hs] at he
    cases he
  obtain ⟨row, hrow, hscore⟩ := hserved.scored e he
  rw [hreference hfirst] at hrow
  obtain ⟨hlt, rfl⟩ := reference_getElem? hrow
  exact ⟨hlt, hscore⟩

end Chain

/-! ## Two batches -/

section Two

open OnlineFeatInputItf

/-- An input that delivers what it holds, whatever it is asked for. -/
def prepared {Row : Type*} : OnlineFeatInputItf (List (Computed Row)) Row
  | [], _ => none
  | out :: rest, _ => some (rest, out)

/-- The second batch is the last one. -/
def twoBatches : List (Computed (FeatureRow ℚ 1)) :=
  [⟨[fun _ => 0, fun _ => 2], true, none⟩, ⟨[fun _ => 4, fun _ => 6], false, none⟩]

/-- A transform that adds the three rows of a window. -/
def addUp {K : Type*} [One K] : Matrix (Fin 1) (Fin ((1 + 1 + 1) * 1)) (Entry K) :=
  fun _ _ => Entry.number 1

/-- The score of a row. -/
def addIndex (row : FeatureRow (Entry ℚ) 1) (index : ℚ) : Entry ℚ :=
  row (Fin.last 0) + Entry.number index

/-- What comes out when two rows are asked for twice. -/
theorem twoBatches_computeAll :
    ((ldaInput (cmvnInput (exact Rat.sqrt) prepared)).computeAll
        ((twoBatches, .create 1 2), .create addUp) [⟨2, none⟩, ⟨2, none⟩]).map
      (fun r => (r.1.1.1, r.2)) =
        some ([], [⟨[fun _ => Entry.number (-1)], true, none⟩,
          ⟨[fun _ => Entry.number (-1), fun _ => Entry.number 1], false, none⟩]) := by
  decide +kernel

/-- With a history of two rows each batch is normalised by itself. -/
theorem frames_scored_in_context_two :
    ∃ session : ScoreSession (FeatureRow (Entry ℚ) 1) ℚ (Entry ℚ),
      session.scored = [(0, 5, Entry.number (-1 + 5)), (1, 7, Entry.number (-1 + 7)),
        (2, 9, Entry.number (1 + 9))] ∧
      ∃ (ins : List (Computed (FeatureRow ℚ 1))) (rows : List (FeatureRow (Entry ℚ) 1)),
        prepared.computeAll twoBatches [⟨2, none⟩, ⟨2, none⟩] = some ([], ins) ∧
        rows = normalised Rat.sqrt 2 [] (ins.map Computed.output) ∧
        ∀ e ∈ session.scored, e.1 + 1 < rows.length ∧
          e.2.2 = addIndex (transformRow addUp (splicedRow (context 1 1 rows e.1))) e.2.1 := by
  obtain ⟨r, hrun, hr⟩ := Option.map_eq_some_iff.mp twoBatches_computeAll
  obtain ⟨hlast, houts⟩ := Prod.mk.inj hr
  obtain ⟨session, hsession, hscored⟩ :
      ∃ session : ScoreSession (FeatureRow (Entry ℚ) 1) ℚ (Entry ℚ),
        (ScoreSession.system addIndex (r.2.map Computed.output)).runFrom
          (ScoreSession.create (r.2.map Computed.output)) [.next 5, .next 7, .next 9] =
            some session ∧
        session.scored = [(0, 5, Entry.number (-1 + 5)), (1, 7, Entry.number (-1 + 7)),
          (2, 9, Entry.number (1 + 9))] := by
    rw [houts]
    exact ⟨_, rfl, rfl⟩
  obtain ⟨ins, rows, hins, -, -, hrows, -, hall⟩ := frames_scored_in_context Rat.sqrt addIndex
    (n := 1) (by decide) hrun (by rw [houts]; rfl) (by rw [houts]; decide)
    (Transition.System.reachable_of_run hsession)
  rw [hlast] at hins
  exact ⟨session, hscored, ins, rows, hins, hrows, hall⟩

end Two

end ThreadedServer
