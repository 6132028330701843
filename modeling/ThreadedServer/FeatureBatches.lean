import ThreadedServer.OnlineDecoder
import ThreadedServer.Socket

/-!
# Features in batches

`OnlineDecodableDiagGmmScaled` holds one batch of features.  A score for a frame beyond
it makes it ask its input for the next batch, and only then is the offset moved on, by
the size of the batch that is left behind.  Frames are `int32` and offsets `uint32`, and
the comparisons are unsigned: frame `-1` is beyond every row.

The batches may have any sizes.  Where the caller goes through the frames one by one and
asks before each new one whether the last one was the last, each frame is scored on its
own row of the concatenated batches.
-/

namespace ThreadedServer

/-- The conversion to `uint32`. -/
def toUint32 (x : Int) : Nat := (x % 2 ^ 32).toNat

theorem toUint32_eq {n : Nat} (h : n < 2 ^ 32) : toUint32 n = n := by
  rw [toUint32]
  omega

/-- Why a score is not returned. -/
inductive ScoreFailure
  /-- the assertion `"Out-of-bounds request"` -/
  | outOfBounds
  /-- the exception `"Unexpected end-of-features"` -/
  | endOfFeatures
  /-- the input is asked once more after it has said that there is no more -/
  | noBatch
  /-- the features of the batch do not have the row -/
  | noRow
  deriving DecidableEq, Repr

/-- The members of `OnlineDecodableDiagGmmScaled` that change. -/
structure OnlineDecodableDiagGmmScaled (Row : Type*) where
  featMatrix : List Row
  featOffset : Nat
  finished : Bool
  deriving DecidableEq, Repr

namespace OnlineDecodableDiagGmmScaled

variable {Row ι S : Type*}

/-- The constructor. -/
def create : OnlineDecodableDiagGmmScaled Row where
  featMatrix := []
  featOffset := 0
  finished := false

/-- `frame >= feat_offset_ + feat_size` -/
def beyond (d : OnlineDecodableDiagGmmScaled Row) (frame : Int) : Bool :=
  decide (toUint32 (d.featOffset + d.featMatrix.length) ≤ toUint32 frame)

/-- A new batch from the input, which has the batches of the list still to come:
`Compute` returns `false` with the last of them. -/
def load (d : OnlineDecodableDiagGmmScaled Row) (input : List (List Row)) :
    Except ScoreFailure (OnlineDecodableDiagGmmScaled Row × List (List Row)) :=
  if d.finished then .error .outOfBounds
  else
    match input with
    | [] => .error .noBatch
    | batch :: rest =>
        if batch.length = 0 then .error .endOfFeatures
        else .ok
          ({ featMatrix := batch
             featOffset := toUint32 (d.featOffset + d.featMatrix.length)
             finished := rest.isEmpty }, rest)

/-- `decodable_->LogLikelihood(frame - feat_offset_, index)` -/
def scoreRow (score : Row → ι → S) (d : OnlineDecodableDiagGmmScaled Row) (frame : Int)
    (index : ι) : Except ScoreFailure S :=
  let reqFrame := toInt32 (toUint32 (frame - d.featOffset))
  if 0 ≤ reqFrame then
    match d.featMatrix[reqFrame.toNat]? with
    | some row => .ok (score row index)
    | none => .error .noRow
  else .error .noRow

/-- The batch that has the frame. -/
def fetch (d : OnlineDecodableDiagGmmScaled Row) (input : List (List Row)) (frame : Int) :
    Except ScoreFailure (OnlineDecodableDiagGmmScaled Row × List (List Row)) :=
  if d.beyond frame then d.load input else .ok (d, input)

def logLikelihood (score : Row → ι → S) (d : OnlineDecodableDiagGmmScaled Row)
    (input : List (List Row)) (frame : Int) (index : ι) :
    Except ScoreFailure (S × OnlineDecodableDiagGmmScaled Row × List (List Row)) :=
  match d.fetch input frame with
  | .error e => .error e
  | .ok (d, input) => (d.scoreRow score frame index).map fun value => (value, d, input)

/-- `frame >= feat_offset_ + feat_matrix_.NumRows() - 1`, when the input is exhausted. -/
def isLastFrame (d : OnlineDecodableDiagGmmScaled Row) (frame : Int) : Bool :=
  d.finished &&
    decide (toUint32 (d.featOffset + d.featMatrix.length - 1) ≤ toUint32 frame)

/-! ## Without overflow -/

/-- The counters, without the features. -/
def counters (d : OnlineDecodableDiagGmmScaled Row) : OnlineDecodable where
  featOffset := d.featOffset
  featSize := d.featMatrix.length
  finished := d.finished

/-- The rows that have been received fit into an `int32`. -/
def Fits (d : OnlineDecodableDiagGmmScaled Row) : Prop := d.counters.rows < 2 ^ 31

section Counters

variable {d : OnlineDecodableDiagGmmScaled Row} {frame : Nat}

theorem counters_rows : d.counters.rows = d.featOffset + d.featMatrix.length := rfl

theorem beyond_eq (h : d.Fits) (hframe : frame < 2 ^ 31) :
    d.beyond frame = d.counters.needsBatch frame := by
  rw [Fits, counters_rows] at h
  have hrows : toUint32 (d.featOffset + d.featMatrix.length) =
      d.featOffset + d.featMatrix.length := by
    rw [← Nat.cast_add]
    exact toUint32_eq (by omega)
  rw [beyond, OnlineDecodable.needsBatch, counters_rows, hrows, toUint32_eq (by omega)]

/-- The unsigned comparison with the last row, for every `int32` frame. -/
theorem isLastFrame_eq (h : d.Fits) (hne : d.finished → d.featMatrix ≠ []) {frame : Int}
    (hlo : -2 ^ 31 ≤ frame) (hhi : frame < 2 ^ 31) :
    d.isLastFrame frame = d.counters.isLastFrame frame := by
  rw [isLastFrame, OnlineDecodable.isLastFrame]
  cases hfinished : d.finished with
  | false => simp [counters, hfinished]
  | true =>
      have hpos := List.length_pos_iff.mpr (hne hfinished)
      rw [Fits, counters_rows] at h
      rw [counters_rows, show d.counters.finished = true from hfinished, Bool.true_and,
        Bool.true_and, ← Bool.decide_or, decide_eq_decide, toUint32, toUint32]
      omega

theorem scoreRow_eq (score : Row → ι → S) (hlo : d.featOffset ≤ frame)
    (hframe : frame < 2 ^ 31) {row : Row} (hrow : d.featMatrix[frame - d.featOffset]? = some row)
    (index : ι) : d.scoreRow score frame index = .ok (score row index) := by
  have hreq : toInt32 (toUint32 (frame - d.featOffset)) = (frame - d.featOffset : Nat) := by
    rw [← Nat.cast_sub hlo, toUint32_eq (by omega)]
    exact toInt32_eq (by omega) (by omega)
  simp only [scoreRow, hreq]
  rw [if_pos (by omega), Int.toNat_natCast, hrow]

/-- A batch is loaded as the counters say. -/
theorem load_eq (h : d.Fits) {batch : List Row} {rest : List (List Row)}
    (hfinished : d.finished = false) (hne : batch ≠ []) :
    d.load (batch :: rest) = .ok (⟨batch, d.counters.rows, rest.isEmpty⟩, rest) ∧
      d.counters.load batch.length (!rest.isEmpty) =
        some (counters ⟨batch, d.counters.rows, rest.isEmpty⟩) := by
  have hpos := List.length_pos_iff.mpr hne
  rw [Fits, counters_rows] at h
  have hrows : toUint32 (d.featOffset + d.featMatrix.length) = d.counters.rows := by
    rw [← Nat.cast_add]
    exact toUint32_eq (by omega)
  constructor
  · simp only [load, hfinished, hrows]
    rw [if_neg (by decide), if_neg (by omega)]
  · have hcounters : d.counters.finished = false := hfinished
    rw [OnlineDecodable.load, hcounters]
    simp [counters, OnlineDecodable.rows, hne]

end Counters

/-! ## The batches taken so far -/

/-- The batches taken from the input, of which the last is held. -/
structure Holds (batches : List (List Row)) (d : OnlineDecodableDiagGmmScaled Row)
    (input taken : List (List Row)) : Prop where
  split : batches = taken ++ input
  rows : taken.flatten.length = d.counters.rows
  offset : taken.dropLast.flatten.length = d.featOffset
  row : ∀ i < d.featMatrix.length, batches.flatten[d.featOffset + i]? = d.featMatrix[i]?
  finished : d.finished = input.isEmpty

section Holds

variable {batches input taken : List (List Row)} {d : OnlineDecodableDiagGmmScaled Row}
  {frame : Nat}

theorem holds_create (hne : batches ≠ []) : Holds batches create batches [] := by
  refine ⟨rfl, rfl, rfl, ?_, ?_⟩
  · intro i hi
    cases hi
  · simp [create, hne]

theorem Holds.rows_le (h : Holds batches d input taken) :
    d.counters.rows ≤ batches.flatten.length := by
  rw [← h.rows, h.split, List.flatten_append, List.length_append]
  omega

theorem Holds.fits (h : Holds batches d input taken) (htotal : batches.flatten.length < 2 ^ 31) :
    d.Fits :=
  Nat.lt_of_le_of_lt h.rows_le htotal

/-- A frame of the batch held needs no other batch, -/
theorem Holds.within (h : Holds batches d input taken)
    (htotal : batches.flatten.length < 2 ^ 31) (hhi : frame < d.counters.rows) :
    d.beyond frame = false := by
  have hfits := h.fits htotal
  rw [beyond_eq hfits (Nat.lt_trans hhi hfits), OnlineDecodable.needsBatch]
  exact decide_eq_false (by omega)

/-- and it is scored on its row. -/
theorem Holds.scoreRow (h : Holds batches d input taken)
    (htotal : batches.flatten.length < 2 ^ 31) (score : Row → ι → S)
    (hlo : d.featOffset ≤ frame) (hhi : frame < d.counters.rows) (index : ι) :
    ∃ row, batches.flatten[frame]? = some row ∧
      d.scoreRow score frame index = .ok (score row index) := by
  have hi : frame - d.featOffset < d.featMatrix.length := by
    rw [counters_rows] at hhi
    omega
  have hrow : d.featMatrix[frame - d.featOffset]? =
      some d.featMatrix[frame - d.featOffset] := List.getElem?_eq_getElem hi
  have hat := h.row _ hi
  rw [Nat.add_sub_cancel' hlo, hrow] at hat
  exact ⟨_, hat, scoreRow_eq score hlo (Nat.lt_trans hhi (h.fits htotal)) hrow index⟩

/-- The first frame beyond the batch held needs another batch. -/
theorem Holds.beyond (h : Holds batches d input taken)
    (htotal : batches.flatten.length < 2 ^ 31) : d.beyond d.counters.rows = true := by
  have hfits := h.fits htotal
  rw [beyond_eq hfits hfits, OnlineDecodable.needsBatch]
  exact decide_eq_true (Nat.le_refl _)

/-- While there is more data, there is a next batch. -/
theorem Holds.next (h : Holds batches d input taken) (hmore : d.finished = false) :
    ∃ batch rest, input = batch :: rest := by
  cases input with
  | nil =>
      have hfinished := h.finished
      rw [hmore] at hfinished
      cases hfinished
  | cons batch rest => exact ⟨batch, rest, rfl⟩

/-- The next batch is taken over. -/
theorem Holds.load {batch : List Row} {rest : List (List Row)}
    (h : Holds batches d (batch :: rest) taken) (htotal : batches.flatten.length < 2 ^ 31)
    (hmore : d.finished = false) (hne : batch ≠ []) :
    d.load (batch :: rest) = .ok (⟨batch, d.counters.rows, rest.isEmpty⟩, rest) ∧
      Holds batches ⟨batch, d.counters.rows, rest.isEmpty⟩ rest (taken ++ [batch]) := by
  refine ⟨(load_eq (h.fits htotal) hmore hne).1, ?_, ?_, ?_, ?_, rfl⟩
  · rw [h.split, List.append_assoc]
    rfl
  · rw [List.flatten_append, List.length_append, h.rows]
    simp [counters, OnlineDecodable.rows]
  · rw [List.dropLast_concat]
    exact h.rows
  · intro i hi
    show batches.flatten[d.counters.rows + i]? = batch[i]?
    rw [h.split, List.flatten_append, ← h.rows,
      List.getElem?_append_right (Nat.le_add_right _ _), Nat.add_sub_cancel_left,
      List.flatten_cons, List.getElem?_append_left hi]

/-- `IsLastFrame` of a frame of the batch held. -/
theorem Holds.isLastFrame_iff (h : Holds batches d input taken)
    (htotal : batches.flatten.length < 2 ^ 31) (hbatches : ∀ b ∈ batches, b ≠ [])
    (hlo : d.featOffset ≤ frame) (hhi : frame < d.counters.rows) :
    d.isLastFrame frame = true ↔ frame + 1 = batches.flatten.length := by
  have hfits := h.fits htotal
  have hle := h.rows_le
  have hne : d.finished → d.featMatrix ≠ [] := by
    intro _ hnil
    rw [counters_rows, hnil, List.length_nil] at hhi
    omega
  have hlen : batches.flatten.length = d.counters.rows + input.flatten.length := by
    rw [h.split, List.flatten_append, List.length_append, h.rows]
  rw [isLastFrame_eq hfits hne (by omega) (by omega), OnlineDecodable.isLastFrame,
    show d.counters.finished = input.isEmpty from h.finished]
  cases input with
  | nil =>
      rw [hlen]
      simp
      omega
  | cons batch rest =>
      have hbatch := List.length_pos_iff.mpr (hbatches batch (by rw [h.split]; simp))
      rw [hlen, List.flatten_cons, List.length_append]
      simp
      omega

/-- After a frame that is not the last one, there is a next batch when it is needed. -/
theorem Holds.more (h : Holds batches d input taken)
    (htotal : batches.flatten.length < 2 ^ 31)
    (hne : d.finished → d.featMatrix ≠ [])
    (hlast : d.isLastFrame ((d.counters.rows : Int) - 1) = false) : d.finished = false := by
  have hfits := h.fits htotal
  have hrows : d.counters.rows < 2 ^ 31 := hfits
  rw [isLastFrame_eq hfits hne (by omega) (by omega), OnlineDecodable.isLastFrame] at hlast
  cases hfinished : d.finished with
  | false => rfl
  | true => simp [show d.counters.finished = true from hfinished] at hlast

end Holds

end OnlineDecodableDiagGmmScaled

/-! ## Requests -/

/-- The caller's requests: `frame` is the one requested last, `calls` counts the calls
of `input_->Compute`. -/
structure ScoreSession (Row ι S : Type*) where
  decodable : OnlineDecodableDiagGmmScaled Row
  input : List (List Row)
  frame : Option Nat
  calls : Nat
  scored : List (Nat × ι × S)
  failure : Option ScoreFailure

inductive ScoreLabel (ι : Type*)
  /-- another score of the current frame -/
  | again (index : ι)
  /-- the first score of the next frame, when `IsLastFrame` of the frame before it has
  returned `false` -/
  | next (index : ι)
  deriving DecidableEq, Repr

namespace ScoreSession

open OnlineDecodableDiagGmmScaled

variable {Row ι S : Type*}

def create (batches : List (List Row)) : ScoreSession Row ι S where
  decodable := .create
  input := batches
  frame := none
  calls := 0
  scored := []
  failure := none

/-- `LogLikelihood(frame, index)` -/
def request (score : Row → ι → S) (s : ScoreSession Row ι S) (frame : Nat) (index : ι) :
    ScoreSession Row ι S :=
  let calls := if s.decodable.beyond frame && !s.decodable.finished then s.calls + 1
    else s.calls
  match logLikelihood score s.decodable s.input frame index with
  | .ok (value, decodable, input) =>
      { s with
        decodable, input, calls
        frame := some frame
        scored := s.scored ++ [(frame, index, value)] }
  | .error e => { s with calls, failure := some e }

/-- The frame after the current one. -/
def nextFrame (s : ScoreSession Row ι S) : Nat := s.frame.elim 0 (· + 1)

def step (score : Row → ι → S) (s : ScoreSession Row ι S) :
    ScoreLabel ι → Option (ScoreSession Row ι S)
  | .again index =>
      if s.failure = none then s.frame.map fun frame => s.request score frame index else none
  | .next index =>
      if s.failure = none ∧ s.decodable.isLastFrame ((s.nextFrame : Int) - 1) = false then
        some (s.request score s.nextFrame index)
      else none

def system (score : Row → ι → S) (batches : List (List Row)) :
    Transition.System (ScoreSession Row ι S) (ScoreLabel ι) where
  init := create batches
  step := step score

/-- A score is that of the row of its frame. -/
def Scored (score : Row → ι → S) (batches : List (List Row)) (e : Nat × ι × S) : Prop :=
  ∃ row, batches.flatten[e.1]? = some row ∧ e.2.2 = score row e.2.1

structure Inv (score : Row → ι → S) (batches : List (List Row)) (s : ScoreSession Row ι S)
    (taken : List (List Row)) : Prop where
  holds : Holds batches s.decodable s.input taken
  calls : s.calls = taken.length
  failure : s.failure = none
  scored : ∀ e ∈ s.scored, Scored score batches e
  fresh : s.frame = none → s.decodable = .create ∧ taken = []
  current : ∀ f, s.frame = some f →
    s.decodable.featOffset ≤ f ∧ f < s.decodable.counters.rows

section Requests

variable {score : Row → ι → S} {batches taken : List (List Row)} {s t : ScoreSession Row ι S}
  {frame : Nat}

/-- A step asks for a score of the current frame, or of the one after a frame that is not the
last one; nothing is asked for after an exception. -/
theorem step_cases {l : ScoreLabel ι} (hs : s.step score l = some t) :
    s.failure = none ∧ ∃ frame index, t = s.request score frame index ∧
      (s.frame = some frame ∨
        frame = s.nextFrame ∧ s.decodable.isLastFrame ((s.nextFrame : Int) - 1) = false) := by
  cases l with
  | again index =>
      obtain ⟨hnone, hs⟩ := Option.ite_none_right_eq_some.mp hs
      obtain ⟨f, hf, rfl⟩ := Option.map_eq_some_iff.mp hs
      exact ⟨hnone, f, index, rfl, .inl hf⟩
  | next index =>
      obtain ⟨⟨hnone, hlast⟩, hs⟩ := Option.ite_none_right_eq_some.mp hs
      exact ⟨hnone, _, index, (Option.some.inj hs).symm, .inr ⟨rfl, hlast⟩⟩

theorem inv_create (hne : batches ≠ []) : Inv score batches (create batches) [] where
  holds := holds_create hne
  calls := rfl
  failure := rfl
  scored := by simp [create]
  fresh := fun _ => ⟨rfl, rfl⟩
  current := by simp [create]

/-- A request that is answered with the row of its frame. -/
theorem Inv.answered (h : Inv score batches s taken) {taken' : List (List Row)}
    {decodable : OnlineDecodableDiagGmmScaled Row} {input : List (List Row)} {row : Row}
    {index : ι}
    (hlog : logLikelihood score s.decodable s.input frame index =
      .ok (score row index, decodable, input))
    (hrow : batches.flatten[frame]? = some row)
    (hholds : Holds batches decodable input taken')
    (hcalls : (if s.decodable.beyond frame && !s.decodable.finished then s.calls + 1
      else s.calls) = taken'.length)
    (hlo : decodable.featOffset ≤ frame) (hhi : frame < decodable.counters.rows) :
    Inv score batches (s.request score frame index) taken' := by
  have hrequest : s.request score frame index = { s with
      decodable, input
      calls := taken'.length
      frame := some frame
      scored := s.scored ++ [(frame, index, score row index)] } := by
    simp only [request, hlog, hcalls]
  rw [hrequest]
  refine ⟨hholds, rfl, h.failure, ?_, ?_, ?_⟩
  · intro e he
    rcases List.mem_append.mp he with he | he
    · exact h.scored e he
    · rw [List.mem_singleton.mp he]
      exact ⟨row, hrow, rfl⟩
  · intro hnone
    cases hnone
  · intro f hf
    obtain rfl := Option.some.inj hf
    exact ⟨hlo, hhi⟩

/-- A frame of the batch that is held. -/
theorem Inv.request_within (h : Inv score batches s taken)
    (htotal : batches.flatten.length < 2 ^ 31) (hlo : s.decodable.featOffset ≤ frame)
    (hhi : frame < s.decodable.counters.rows) (index : ι) :
    Inv score batches (s.request score frame index) taken := by
  obtain ⟨row, hrow, hscore⟩ := h.holds.scoreRow htotal score hlo hhi index
  have hwithin := h.holds.within htotal hhi
  have hlog : logLikelihood score s.decodable s.input frame index =
      .ok (score row index, s.decodable, s.input) := by
    simp only [logLikelihood, fetch, hwithin, Bool.false_eq_true, if_false, hscore]
    rfl
  exact h.answered hlog hrow h.holds (by simp [hwithin, h.calls]) hlo hhi

/-- The first frame of the next batch. -/
theorem Inv.request_beyond (h : Inv score batches s taken)
    (htotal : batches.flatten.length < 2 ^ 31) (hmore : s.decodable.finished = false)
    {batch : List Row} {rest : List (List Row)} (hinput : s.input = batch :: rest)
    (hne : batch ≠ []) (index : ι) :
    Inv score batches (s.request score s.decodable.counters.rows index) (taken ++ [batch]) := by
  have hholds := h.holds
  rw [hinput] at hholds
  obtain ⟨hload, hnext⟩ := hholds.load htotal hmore hne
  have hbeyond := hholds.beyond htotal
  have hlo : s.decodable.counters.rows ≤ s.decodable.counters.rows := Nat.le_refl _
  have hhi : s.decodable.counters.rows < (OnlineDecodableDiagGmmScaled.mk batch
      s.decodable.counters.rows rest.isEmpty).counters.rows :=
    Nat.lt_add_of_pos_right (List.length_pos_iff.mpr hne)
  -- the batch that is fetched has the frame
  obtain ⟨row, hrow, hscore⟩ := hnext.scoreRow htotal score hlo hhi index
  have hlog : logLikelihood score s.decodable s.input s.decodable.counters.rows index =
      .ok (score row index, ⟨batch, s.decodable.counters.rows, rest.isEmpty⟩, rest) := by
    simp only [logLikelihood, fetch, hinput, hbeyond, if_true, hload, hscore]
    rfl
  refine h.answered hlog hrow hnext ?_ hlo hhi
  simp [hbeyond, hmore, h.calls]

/-- The next frame is one of the batch that is held, or the first one of a batch to come. -/
theorem Inv.next_frame (h : Inv score batches s taken)
    (htotal : batches.flatten.length < 2 ^ 31)
    (hlast : s.decodable.isLastFrame ((s.nextFrame : Int) - 1) = false) :
    s.decodable.featOffset ≤ s.nextFrame ∧ s.nextFrame < s.decodable.counters.rows ∨
      s.nextFrame = s.decodable.counters.rows ∧ s.decodable.finished = false := by
  cases hf : s.frame with
  | none =>
      obtain ⟨hcreate, -⟩ := h.fresh hf
      refine .inr ⟨?_, ?_⟩
      · rw [nextFrame, hf, hcreate]
        rfl
      · rw [hcreate]
        rfl
  | some f =>
      obtain ⟨hlo, hhi⟩ := h.current f hf
      have hnext : s.nextFrame = f + 1 := by rw [nextFrame, hf]; rfl
      rcases Nat.lt_or_ge s.nextFrame s.decodable.counters.rows with hlt | hge
      · exact .inl ⟨by omega, hlt⟩
      · have hrows : s.nextFrame = s.decodable.counters.rows := by omega
        have hne : s.decodable.finished → s.decodable.featMatrix ≠ [] := by
          intro _ hnil
          rw [counters_rows, hnil, List.length_nil] at hhi
          omega
        rw [hrows] at hlast
        exact .inr ⟨hrows, h.holds.more htotal hne hlast⟩

/-- A step asks for a frame of the batch that is held, or for the first one of a batch to
come. -/
theorem Inv.asks (h : Inv score batches s taken) (htotal : batches.flatten.length < 2 ^ 31)
    {l : ScoreLabel ι} (hs : s.step score l = some t) :
    ∃ frame index, t = s.request score frame index ∧
      (s.decodable.featOffset ≤ frame ∧ frame < s.decodable.counters.rows ∨
        frame = s.decodable.counters.rows ∧ s.decodable.finished = false) := by
  obtain ⟨-, frame, index, ht, hcurrent | ⟨rfl, hlast⟩⟩ := step_cases hs
  · exact ⟨frame, index, ht, .inl (h.current frame hcurrent)⟩
  · exact ⟨_, index, ht, h.next_frame htotal hlast⟩

/-- Every request the caller may make is answered. -/
theorem Inv.step (h : Inv score batches s taken) (htotal : batches.flatten.length < 2 ^ 31)
    (hbatches : ∀ b ∈ batches, b ≠ []) {l : ScoreLabel ι} (hs : s.step score l = some t) :
    ∃ taken', Inv score batches t taken' := by
  obtain ⟨frame, index, rfl, ⟨hlo, hhi⟩ | ⟨rfl, hmore⟩⟩ := h.asks htotal hs
  · exact ⟨taken, h.request_within htotal hlo hhi index⟩
  · obtain ⟨batch, rest, hinput⟩ := h.holds.next hmore
    have hne : batch ≠ [] := by
      apply hbatches
      rw [h.holds.split, hinput]
      exact List.mem_append_right taken List.mem_cons_self
    exact ⟨_, h.request_beyond htotal hmore hinput hne index⟩

end Requests

/-- **Each frame is scored on its own row.**  Over non-empty batches with fewer than
`2 ^ 31` rows, no request fails; every score is that of the row of its frame in the
concatenated batches; `Compute` has been called once for each batch up to that of the
current frame, in order, and for no other; and `IsLastFrame` of the current frame says
whether it is the last row of all. -/
theorem rows_scored (score : Row → ι → S) {batches : List (List Row)} (hne : batches ≠ [])
    (hbatches : ∀ b ∈ batches, b ≠ []) (htotal : batches.flatten.length < 2 ^ 31)
    {s : ScoreSession Row ι S} (hs : (system score batches).Reachable s) :
    s.failure = none ∧
    (∀ e ∈ s.scored, Scored score batches e) ∧
    (∃ taken, batches = taken ++ s.input ∧ s.calls = taken.length ∧
      (s.frame = none → taken = []) ∧
      ∀ f, s.frame = some f → taken.dropLast.flatten.length ≤ f ∧ f < taken.flatten.length) ∧
    ∀ f, s.frame = some f →
      (s.decodable.isLastFrame f = true ↔ f + 1 = batches.flatten.length) := by
  obtain ⟨taken, hinv⟩ : ∃ taken, Inv score batches s taken := by
    apply hs.invariant (fun s => ∃ taken, Inv score batches s taken) ⟨[], inv_create hne⟩
    intro s l t hinv hstep
    obtain ⟨taken, hinv⟩ := hinv
    exact hinv.step htotal hbatches hstep
  refine ⟨hinv.failure, hinv.scored, ⟨taken, hinv.holds.split, hinv.calls, ?_, ?_⟩, ?_⟩
  · intro hnone
    exact (hinv.fresh hnone).2
  · intro f hf
    rw [hinv.holds.offset, hinv.holds.rows]
    exact hinv.current f hf
  · intro f hf
    obtain ⟨hlo, hhi⟩ := hinv.current f hf
    exact hinv.holds.isLastFrame_iff htotal hbatches hlo hhi

/-- A first batch that is shorter than the second one. -/
theorem rows_scored_two :
    ∃ s : ScoreSession Nat Nat Nat, s.frame = some 1 ∧ s.calls = 2 ∧
      s.scored = [(0, 1, 11), (0, 2, 12), (1, 1, 21)] ∧
      s.failure = none ∧
      (∀ e ∈ s.scored, Scored (· + ·) [[10], [20, 30]] e) ∧
      (∃ taken, [[10], [20, 30]] = taken ++ s.input ∧ s.calls = taken.length ∧
        (s.frame = none → taken = []) ∧
        ∀ f, s.frame = some f → taken.dropLast.flatten.length ≤ f ∧ f < taken.flatten.length) ∧
      ∀ f, s.frame = some f →
        (s.decodable.isLastFrame f = true ↔ f + 1 = [[10], [20, 30]].flatten.length) := by
  obtain ⟨s, hrun, hframe, hcalls, hscored⟩ : ∃ s : ScoreSession Nat Nat Nat,
      (system (· + ·) [[10], [20, 30]]).runFrom (create [[10], [20, 30]])
        [.next 1, .again 2, .next 1] = some s ∧
      s.frame = some 1 ∧ s.calls = 2 ∧ s.scored = [(0, 1, 11), (0, 2, 12), (1, 1, 21)] :=
    ⟨_, rfl, rfl, rfl, rfl⟩
  exact ⟨s, hframe, hcalls, hscored, rows_scored (· + ·) (by decide) (by decide) (by decide)
    (Transition.System.reachable_of_run hrun)⟩

end ScoreSession

end ThreadedServer
