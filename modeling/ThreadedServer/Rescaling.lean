import Mathlib.Analysis.Real.Sqrt
import ThreadedServer.FeatureChain

/-!
# Gain and offset

A microphone and a line change the features of a whole session: each dimension is scaled by
a factor of its own and moved by an offset of its own.  `ApplyCmvn2` divides by the deviation
of the last rows what it has taken their mean from, so that nothing behind `OnlineCmvnInput`
can tell: the rows that it sends on are the same, it says the same of more data and of the
timeout, and it stops where it stopped before.

That is shown for the two chains side by side, in the arithmetic of the real numbers.  Their
histories differ, and so do the cells that no row has been written to; what relates them is
what they have been given.
-/

namespace ThreadedServer

open Numerics

/-- Each entry scaled and moved. -/
def rescale {K : Type*} [Mul K] [Add K] {dim : Nat} (gain offset row : FeatureRow K dim) :
    FeatureRow K dim := fun d => gain d * row d + offset d

namespace OnlineCmn

/-! ## The statistics -/

section Statistics

variable {K : Type*} [Field K]

theorem sum_rescaled (a b : K) (column : List K) :
    (column.map fun x => a * x + b).sum = a * column.sum + column.length * b := by
  induction column with
  | nil => simp
  | cons x column ih =>
      simp only [List.map_cons, List.sum_cons, ih, List.length_cons]
      push_cast
      ring

theorem mean_rescaled [CharZero K] (a b : K) {column : List K} (hne : column ≠ []) :
    mean (column.map fun x => a * x + b) = a * mean column + b := by
  have hlen : (column.length : K) ≠ 0 := by
    simpa using hne
  rw [mean, mean, sum_rescaled, List.length_map]
  field_simp

theorem sum_sq_rescaled (a b : K) (column : List K) :
    ((column.map fun x => a * x + b).map fun x => x * x).sum =
      a * a * (column.map fun x => x * x).sum + 2 * a * b * column.sum +
        column.length * (b * b) := by
  induction column with
  | nil => simp
  | cons x column ih =>
      simp only [List.map_cons, List.sum_cons, ih, List.length_cons]
      push_cast
      ring

/-- The offset is gone and the gain is squared. -/
theorem variance_rescaled [CharZero K] (a b : K) {column : List K} (hne : column ≠ []) :
    variance (column.map fun x => a * x + b) = a * a * variance column := by
  have hlen : (column.length : K) ≠ 0 := by
    simpa using hne
  rw [variance, mean_rescaled a b hne, sum_sq_rescaled, List.length_map, variance, mean]
  field_simp
  ring

end Statistics

section Rows

variable {dim : Nat} {gain : FeatureRow ℝ dim} (offset : FeatureRow ℝ dim)

/-- The root of the reciprocal takes the gain out. -/
theorem sqrt_rescaled {a : ℝ} (ha : 0 < a) (x : ℝ) :
    a * Real.sqrt (1 / (a * a * x)) = Real.sqrt (1 / x) := by
  rw [one_div, mul_inv, Real.sqrt_mul (inv_nonneg.mpr (mul_self_nonneg a)), Real.sqrt_inv,
    Real.sqrt_mul_self ha.le, mul_inv_cancel_left₀ ha.ne', one_div]

/-- A difference that is scaled by the gain, and divided by a deviation that is too. -/
theorem invertedRoot_rescaled {a : ℝ} (ha : 0 < a) (difference x : ℝ) :
    Entry.number (a * difference) * invertedRoot Real.sqrt (a * a * x) =
      Entry.number difference * invertedRoot Real.sqrt x := by
  have hsq : a * a ≠ 0 := (mul_pos ha ha).ne'
  by_cases hx : x = 0
  · have hzero : a * a * x = 0 := by rw [hx, mul_zero]
    rw [invertedRoot, invertedRoot, if_pos hx, if_pos hzero, Entry.mul_undefined,
      Entry.mul_undefined]
  · rw [invertedRoot, invertedRoot, if_neg hx, if_neg (mul_ne_zero hsq hx), Entry.number_mul,
      Entry.number_mul, mul_comm a, mul_assoc, sqrt_rescaled ha]

theorem normaliseRow_rescaled (hgain : ∀ d, 0 < gain d) (rows : List (FeatureRow ℝ dim))
    (row : FeatureRow ℝ dim) :
    normaliseRow Real.sqrt (rows.map (rescale gain offset)) (rescale gain offset row) =
      normaliseRow Real.sqrt rows row := by
  funext d
  have hcolumn : (rows.map (rescale gain offset)).map (fun r => r d) =
      (rows.map fun r => r d).map fun x => gain d * x + offset d := by
    rw [List.map_map, List.map_map]
    rfl
  rw [normaliseRow, normaliseRow, hcolumn]
  by_cases hnil : rows = []
  · simp [hnil, invertedRoot, variance, mean]
  · have hne : (rows.map fun r => r d) ≠ [] := by
      simpa using hnil
    have hdifference : rescale gain offset row d -
        (gain d * mean (rows.map fun r => r d) + offset d) =
          gain d * (row d - mean (rows.map fun r => r d)) := by
      rw [rescale]
      ring
    rw [variance_rescaled _ _ hne, mean_rescaled _ _ hne, hdifference,
      invertedRoot_rescaled (hgain d)]

/-- Members with and without the gain and the offset: they have been given the same rows. -/
def RecallsRescaled (gain offset : FeatureRow ℝ dim) (c c' : OnlineCmn ℝ dim) : Prop :=
  c.hist = c'.hist ∧ ∃ seen, c.Recalls (seen.map (rescale gain offset)) ∧ c'.Recalls seen

/-- A batch comes out the same, whatever is left in the cells. -/
theorem compute_rescaled (hgain : ∀ d, 0 < gain d) {c c' : OnlineCmn ℝ dim}
    {seen : List (FeatureRow ℝ dim)} (hhist : c.hist = c'.hist)
    (h : c.Recalls (seen.map (rescale gain offset))) (h' : c'.Recalls seen)
    (feats : List (FeatureRow ℝ dim)) :
    (c.cache (feats.map (rescale gain offset))).compute (exact Real.sqrt)
        (feats.map (rescale gain offset)) =
      (c'.cache feats).compute (exact Real.sqrt) feats := by
  by_cases hne : feats = []
  · subst hne
    rfl
  have hne' : feats.map (rescale gain offset) ≠ [] := by simpa using hne
  have hlast : (seen.map (rescale gain offset) ++ feats.map (rescale gain offset)).rtake c.hist =
      ((seen ++ feats).rtake c'.hist).map (rescale gain offset) := by
    rw [← List.map_append, hhist, List.rtake, List.rtake, List.length_map, List.map_drop]
  rw [h.compute Real.sqrt hne', h'.compute Real.sqrt hne, hlast, List.map_map]
  apply List.map_congr_left
  intro row _
  exact normaliseRow_rescaled offset hgain _ row

/-- One call of `ApplyCmvn2`: the same assertion, the same batch. -/
theorem RecallsRescaled.applyCmvn2 (hgain : ∀ d, 0 < gain d) {c c' : OnlineCmn ℝ dim}
    (h : RecallsRescaled gain offset c c') (feats : List (FeatureRow ℝ dim)) :
    Option.Rel (fun r r' => RecallsRescaled gain offset r.1 r'.1 ∧ r.2 = r'.2)
      (c.applyCmvn2 (exact Real.sqrt) (feats.map (rescale gain offset)))
      (c'.applyCmvn2 (exact Real.sqrt) feats) := by
  obtain ⟨hhist, seen, hc, hc'⟩ := h
  have hcols : numCols (feats.map (rescale gain offset)) = numCols feats := by
    rw [numCols, numCols, List.isEmpty_map]
  rw [OnlineCmn.applyCmvn2, OnlineCmn.applyCmvn2, hcols]
  by_cases hassert : numCols feats = dim
  · have hcache := hc.cache (feats.map (rescale gain offset))
    rw [← List.map_append] at hcache
    rw [if_pos hassert, if_pos hassert]
    refine .some ⟨⟨?_, seen ++ feats, hcache, hc'.cache feats⟩,
      compute_rescaled offset hgain hhist hc hc' feats⟩
    rw [cache_hist, cache_hist, hhist]
  · rw [if_neg hassert, if_neg hassert]
    exact .none

end Rows

end OnlineCmn

namespace OnlineFeatInputItf

variable {σ τ Row K : Type*} {dim transRows left right : Nat}

/-! ## Inputs that cannot be told apart -/

section Relations

variable {α β γ δ : Type*} {rel : α → β → Prop} {rel' : γ → δ → Prop} {x : Option α}
  {y : Option β}

theorem rel_bind (h : Option.Rel rel x y) {f : α → Option γ} {g : β → Option δ}
    (hnext : ∀ a b, rel a b → Option.Rel rel' (f a) (g b)) :
    Option.Rel rel' (x.bind f) (y.bind g) := by
  cases h with
  | none => exact .none
  | some hab => exact hnext _ _ hab

theorem rel_map (h : Option.Rel rel x y) {f : α → γ} {g : β → δ}
    (hnext : ∀ a b, rel a b → rel' (f a) (g b)) : Option.Rel rel' (x.map f) (y.map g) := by
  cases h with
  | none => exact .none
  | some hab => exact .some (hnext _ _ hab)

end Relations

/-- From related members, each call leaves the same behind, and related members. -/
def Agree (rel : σ → τ → Prop) (input : OnlineFeatInputItf σ Row)
    (input' : OnlineFeatInputItf τ Row) : Prop :=
  ∀ s t, rel s t → ∀ request,
    Option.Rel (fun r r' => rel r.1 r'.1 ∧ r.2 = r'.2) (input s request) (input' t request)

section Agree

variable {rel : σ → τ → Prop}

/-- Sequences of calls leave the same behind. -/
theorem Agree.computeAll {input : OnlineFeatInputItf σ Row} {input' : OnlineFeatInputItf τ Row}
    (h : Agree rel input input') {s : σ} {t : τ} (hst : rel s t) (requests : List FeatRequest) :
    Option.Rel (fun r r' => rel r.1 r'.1 ∧ r.2 = r'.2) (input.computeAll s requests)
      (input'.computeAll t requests) := by
  induction requests generalizing s t with
  | nil => exact .some ⟨hst, rfl⟩
  | cons request requests ih =>
      refine rel_bind (h s t hst request) ?_
      rintro first first' ⟨hnext, hsame⟩
      refine rel_map (ih hnext) ?_
      rintro later later' ⟨hlast, hlater⟩
      exact ⟨hlast, congrArg₂ List.cons hsame hlater⟩

theorem Agree.same {input : OnlineFeatInputItf σ Row} {input' : OnlineFeatInputItf τ Row}
    (h : Agree rel input input') {s : σ} {t : τ} (hst : rel s t) (requests : List FeatRequest) :
    (input.computeAll s requests).map Prod.snd = (input'.computeAll t requests).map Prod.snd := by
  have hrun := h.computeAll hst requests
  generalize input.computeAll s requests = out, input'.computeAll t requests = out' at hrun ⊢
  cases hrun with
  | none => rfl
  | some hlast => exact congrArg some hlast.2

/-- What is put on top of them cannot tell either. -/
theorem Agree.ldaInput [AddCommMonoid K] [Mul K]
    {input : OnlineFeatInputItf σ (FeatureRow K dim)}
    {input' : OnlineFeatInputItf τ (FeatureRow K dim)} (h : Agree rel input input') :
    Agree (fun s t => rel s.1 t.1 ∧ s.2 = t.2)
      (OnlineFeatInputItf.ldaInput input :
        OnlineFeatInputItf (σ × OnlineLdaInput K dim transRows left right) _)
      (OnlineFeatInputItf.ldaInput input') := by
  rintro ⟨s, lda⟩ ⟨t, _⟩ ⟨hst, rfl⟩ request
  refine rel_bind (h s t hst request) ?_
  rintro ⟨inner, featIn⟩ ⟨inner', _⟩ ⟨hnext, rfl⟩
  show Option.Rel _ ((lda.compute request.nrows featIn.output).map _)
    ((lda.compute request.nrows featIn.output).map _)
  cases lda.compute request.nrows featIn.output with
  | none => exact .none
  | some r => exact .some ⟨⟨hnext, rfl⟩, rfl⟩

end Agree

/-! ## The chain behind a rescaled input -/

/-- The rows of an input, each entry scaled and moved. -/
def rescaled [Mul K] [Add K] (gain offset : FeatureRow K dim)
    (input : OnlineFeatInputItf σ (FeatureRow K dim)) :
    OnlineFeatInputItf σ (FeatureRow K dim) := fun s request =>
  (input s request).map fun (inner, out) =>
    (inner, { out with output := out.output.map (rescale gain offset) })

section Rescaled

variable {gain : FeatureRow ℝ dim} (offset : FeatureRow ℝ dim)

theorem cmvnInput_rescaled (hgain : ∀ d, 0 < gain d)
    (input : OnlineFeatInputItf σ (FeatureRow ℝ dim)) :
    Agree (fun s s' => s.1 = s'.1 ∧ OnlineCmn.RecallsRescaled gain offset s.2 s'.2)
      (cmvnInput (exact Real.sqrt) (rescaled gain offset input))
      (cmvnInput (exact Real.sqrt) input) := by
  rintro ⟨s, c⟩ ⟨_, c'⟩ ⟨rfl, h⟩ request
  show Option.Rel _ (((input s request).map _).bind _) ((input s request).bind _)
  cases input s request with
  | none => exact .none
  | some r =>
      rw [Option.map_some, Option.bind_some, Option.bind_some]
      refine rel_map (h.applyCmvn2 offset hgain r.2.output) ?_
      rintro ⟨cmvn, normFeats⟩ ⟨cmvn', _⟩ ⟨hnext, rfl⟩
      exact ⟨⟨rfl, hnext⟩, rfl⟩

/-- **Gain and offset do not matter.**  Whatever the input delivers and however it is asked:
with a positive gain and any offset in each dimension, the chain of `OnlineCmvnInput` and
`OnlineLdaInput` sends on the same rows in the same batches, with the same remarks, or stops
the program as well. -/
theorem chain_rescaled {history : Nat} (hhistory : 0 < history) (hgain : ∀ d, 0 < gain d)
    (input : OnlineFeatInputItf σ (FeatureRow ℝ dim)) (s : σ)
    (transform : Matrix (Fin transRows) (Fin ((left + right + 1) * dim)) (Entry ℝ))
    (requests : List FeatRequest) :
    ((ldaInput (cmvnInput (exact Real.sqrt) (rescaled gain offset input))).computeAll
        ((s, .create dim history), .create transform) requests).map Prod.snd =
      ((ldaInput (cmvnInput (exact Real.sqrt) input)).computeAll
        ((s, .create dim history), .create transform) requests).map Prod.snd := by
  have hagree : Agree (fun s t => (s.1.1 = t.1.1 ∧
        OnlineCmn.RecallsRescaled gain offset s.1.2 t.1.2) ∧ s.2 = t.2)
      (ldaInput (cmvnInput (exact Real.sqrt) (rescaled gain offset input)) : OnlineFeatInputItf
        (_ × OnlineLdaInput (Entry ℝ) dim transRows left right) _)
      (ldaInput (cmvnInput (exact Real.sqrt) input)) :=
    (cmvnInput_rescaled offset hgain input).ldaInput
  have hfresh : OnlineCmn.RecallsRescaled gain offset (.create dim history)
      (.create dim history) :=
    ⟨rfl, [], OnlineCmn.recalls_create hhistory, OnlineCmn.recalls_create hhistory⟩
  exact hagree.same ⟨⟨rfl, hfresh⟩, rfl⟩ requests

/-- One batch of two rows. -/
def oneBatch : List (Computed (FeatureRow ℝ 1)) := [⟨[fun _ => 0, fun _ => 1], true, none⟩]

/-- The line doubles everything and adds five. -/
theorem chain_rescaled_double :
    ((ldaInput (cmvnInput (exact Real.sqrt)
        (rescaled (fun _ => 2) (fun _ => 5) prepared))).computeAll
          ((oneBatch, .create 1 600), .create addUp) [⟨2, none⟩]).map Prod.snd =
      ((ldaInput (cmvnInput (exact Real.sqrt) prepared)).computeAll
        ((oneBatch, .create 1 600), .create addUp) [⟨2, none⟩]).map Prod.snd :=
  chain_rescaled _ (by decide) (fun _ => two_pos) _ _ _ _

end Rescaled

end OnlineFeatInputItf

end ThreadedServer
