import Mathlib.Analysis.Real.Sqrt
import ThreadedServer.OnlineCmn

/-!
# Normalisation over sequences of batches

`ApplyCmvn2` is called for one batch after another, and the batches may be shorter or
longer than the history.  A batch that fills up the history goes on to replace its
oldest rows, and a long one goes round the ring several times; but each row is taken in
by itself, in a way that depends on the members alone.  As long as no batch is empty the
state is therefore that of a single batch with all rows, and what is sent on is
normalised by the last of them.  An empty batch is not a batch of no rows: it stops the
program.

The arithmetic is that of the real numbers here, with their square root.
-/

namespace ThreadedServer

open Numerics

namespace OnlineCmn

variable {K : Type*} {dim : Nat}

/-! ## One row at a time -/

/-- What happens to one row of a batch. -/
def push (c : OnlineCmn K dim) (row : FeatureRow K dim) : OnlineCmn K dim :=
  if c.featuresCached < c.hist then
    { c with
      stats := c.stats.set c.featuresCached row
      featuresCached := c.featuresCached + 1 }
  else c.replaceOldest row

/-- Once the history is full, rows only replace the oldest ones. -/
theorem foldl_replaceOldest {c : OnlineCmn K dim} (hfull : ¬ c.featuresCached < c.hist)
    (rows : List (FeatureRow K dim)) : rows.foldl replaceOldest c = rows.foldl push c := by
  induction rows generalizing c with
  | nil => rfl
  | cons row rows ih =>
      have hpush : c.push row = c.replaceOldest row := if_neg hfull
      rw [List.foldl_cons, List.foldl_cons, hpush]
      exact ih hfull

/-- A batch is taken in row by row. -/
theorem cache_eq_foldl (c : OnlineCmn K dim) (feats : List (FeatureRow K dim)) :
    c.cache feats = feats.foldl push c := by
  induction feats generalizing c with
  | nil => rfl
  | cons row rest ih =>
      by_cases hfull : c.featuresCached < c.hist
      · have hpush : c.push row = { c with
            stats := c.stats.set c.featuresCached row
            featuresCached := c.featuresCached + 1 } := if_pos hfull
        rw [List.foldl_cons, hpush, ← ih, cache, fill, if_pos hfull]
        rfl
      · rw [cache, fill, if_neg hfull]
        exact foldl_replaceOldest hfull (row :: rest)

theorem cache_append (c : OnlineCmn K dim) (feats feats' : List (FeatureRow K dim)) :
    (c.cache feats).cache feats' = c.cache (feats ++ feats') := by
  rw [cache_eq_foldl, cache_eq_foldl, cache_eq_foldl, List.foldl_append]

/-- `stats_`, read from the oldest row on. -/
def inOrder (c : OnlineCmn K dim) : List (FeatureRow K dim) :=
  (c.stats.take c.featuresCached).drop c.oldestRow ++
    (c.stats.take c.featuresCached).take c.oldestRow

theorem Recalls.inOrder {c : OnlineCmn K dim} {seen : List (FeatureRow K dim)}
    (h : Recalls c seen) : c.inOrder = seen.rtake c.hist :=
  RingBuffer.Holds.view h

/-- The rows that are held, in the order in which they are summed up. -/
def held (c : OnlineCmn K dim) : List (FeatureRow K dim) := c.stats.take c.featuresCached

section Held

variable [Zero K] {history : Nat} {seen : List (FeatureRow K dim)}

theorem cache_create_hist (seen : List (FeatureRow K dim)) :
    ((create dim history : OnlineCmn K dim).cache seen).hist = history :=
  cache_hist _ _

theorem recalls_cache (hpos : 0 < history) (seen : List (FeatureRow K dim)) :
    Recalls ((create dim history).cache seen) seen :=
  (recalls_create hpos).cache seen

theorem cache_create_featuresCached (hpos : 0 < history) (seen : List (FeatureRow K dim)) :
    ((create dim history : OnlineCmn K dim).cache seen).featuresCached =
      min history seen.length := by
  rw [(recalls_cache hpos seen).featuresCached, cache_create_hist]

/-- Row `history`, `2 * history` and so on go into the first cell again. -/
theorem cache_create_oldestRow (hpos : 0 < history) (seen : List (FeatureRow K dim)) :
    ((create dim history : OnlineCmn K dim).cache seen).oldestRow =
      (seen.length - history) % history := by
  induction seen using List.reverseRecOn with
  | nil => simp [cache, fill, create]
  | append_singleton seen row ih =>
      rw [← cache_append, cache_eq_foldl _ [row], List.foldl_cons, List.foldl_nil, push,
        cache_create_hist, cache_create_featuresCached hpos, List.length_append,
        List.length_singleton]
      by_cases hroom : seen.length < history
      · have hless : min history seen.length < history := by omega
        have hzero : seen.length - history = 0 := by omega
        have hzero' : seen.length + 1 - history = 0 := by omega
        rw [hzero] at ih
        rw [if_pos hless, hzero']
        exact ih
      · have hfull : ¬ min history seen.length < history := by omega
        have hnext : seen.length + 1 - history = seen.length - history + 1 := by omega
        rw [if_neg hfull, replaceOldest, cache_create_hist, ih, hnext]
        exact Nat.mod_add_mod _ _ _

/-- While the history is filling up, the rows are held as they came. -/
theorem held_filling (hpos : 0 < history) (h : seen.length ≤ history) :
    ((create dim history : OnlineCmn K dim).cache seen).held = seen := by
  have horder := (recalls_cache hpos seen).inOrder
  have hzero : (seen.length - history) % history = 0 := by
    rw [Nat.sub_eq_zero_of_le h, Nat.zero_mod]
  rw [inOrder, cache_create_oldestRow hpos, hzero, List.drop_zero, List.take_zero,
    List.append_nil, cache_create_hist, RingBuffer.rtake_of_length_le h] at horder
  exact horder

/-- Afterwards the last rows are held, turned to the place of the oldest one. -/
theorem held_full (hpos : 0 < history) (h : history ≤ seen.length) :
    ((create dim history : OnlineCmn K dim).cache seen).held =
      (seen.rtake history).rotate (history - seen.length % history) := by
  have hrecalls := recalls_cache hpos seen
  have hcount : ((create dim history : OnlineCmn K dim).cache seen).featuresCached = history :=
    (cache_create_featuresCached hpos seen).trans (Nat.min_eq_left h)
  rw [Recalls, cache_create_hist, hcount, cache_create_oldestRow hpos,
    ← Nat.mod_eq_sub_mod h] at hrecalls
  rw [held, hcount, List.take_of_length_le (Nat.le_of_eq hrecalls.length)]
  exact hrecalls.cells_eq

end Held

/-! ## Sequences of calls -/

section Calls

variable {V : Type*} (A : Arithmetic K V)

/-- The object after a sequence of calls of `ApplyCmvn2`, if all of them return. -/
def afterCalls (c : OnlineCmn K dim) (batches : List (List (FeatureRow K dim))) :
    Option (OnlineCmn K dim) :=
  batches.foldlM (fun c feats => (c.applyCmvn2 A feats).map Prod.fst) c

/-- A call that returns, and those after it. -/
theorem afterCalls_cons (c : OnlineCmn K dim) {feats : List (FeatureRow K dim)} (h : feats ≠ [])
    (batches : List (List (FeatureRow K dim))) :
    c.afterCalls A (feats :: batches) = (c.cache feats).afterCalls A batches := by
  rw [afterCalls, List.foldlM_cons, applyCmvn2_eq A c h]
  rfl

/-- An empty batch ends every sequence of calls. -/
theorem afterCalls_empty (hdim : 0 < dim) (c : OnlineCmn K dim)
    (batches : List (List (FeatureRow K dim))) : c.afterCalls A ([] :: batches) = none := by
  rw [afterCalls, List.foldlM_cons, applyCmvn2, if_neg ((numCols_eq_iff hdim _).not.mpr (by simp))]
  rfl

/-- Only the concatenation of the batches matters. -/
theorem afterCalls_eq (c : OnlineCmn K dim) {batches : List (List (FeatureRow K dim))}
    (hne : ∀ feats ∈ batches, feats ≠ []) :
    c.afterCalls A batches = some (c.cache batches.flatten) := by
  induction batches generalizing c with
  | nil => rfl
  | cons feats batches ih =>
      obtain ⟨hfirst, hrest⟩ := List.forall_mem_cons.mp hne
      rw [List.flatten_cons, ← cache_append, afterCalls_cons A c hfirst]
      exact ih (c.cache feats) hrest

end Calls

/-! ## Mean and variance of real numbers -/

section Real

/-- The mean of a column. -/
noncomputable def average (column : List ℝ) : ℝ := column.sum / column.length

/-- The population variance of a column. -/
noncomputable def populationVariance (column : List ℝ) : ℝ :=
  (column.map fun x => (x - average column) ^ 2).sum / column.length

theorem mean_eq_average (column : List ℝ) : mean column = average column := by
  rw [mean, average, mul_one_div]

/-- The mean of the squares less the square of the mean is the variance. -/
theorem variance_eq_populationVariance {column : List ℝ} (hne : column ≠ []) :
    variance column = populationVariance column := by
  have hlen : (column.length : ℝ) ≠ 0 := by simpa using hne
  have hsum := length_mul_variance hne
  simp only [mean_eq_average, ← sq] at hsum
  rw [populationVariance, ← hsum]
  field_simp

/-- An entry is scaled by the reciprocal of the deviation. -/
theorem normaliseRow_eq {rows : List (FeatureRow ℝ dim)} (hne : rows ≠ [])
    (row : FeatureRow ℝ dim) (d : Fin dim)
    (hvariance : 0 < populationVariance (rows.map fun r => r d)) :
    normaliseRow Real.sqrt rows row d =
      Entry.number ((row d - average (rows.map fun r => r d)) /
        Real.sqrt (populationVariance (rows.map fun r => r d))) := by
  have hcolumn : (rows.map fun r => r d) ≠ [] := by simpa using hne
  rw [normaliseRow, variance_eq_populationVariance hcolumn, mean_eq_average, invertedRoot,
    if_neg (ne_of_gt hvariance), Entry.number_mul, one_div, Real.sqrt_inv, ← div_eq_mul_inv]

end Real

/-- **Exact normalisation over the last rows.**  After any sequence of calls and one
more, all of them with batches that have rows, `stats_` holds the last rows of all that
were received, as many as there are but at most `hist_`; the state is that of every other
such sequence of calls with the same rows; and an entry that is sent on is the feature
less the mean, over the root of the population variance of its column in these rows,
where that is positive. -/
theorem normalised_by_last {history : Nat} (hpos : 0 < history)
    (batches : List (List (FeatureRow ℝ dim))) (feats : List (FeatureRow ℝ dim))
    (hbatches : ∀ batch ∈ batches, batch ≠ []) (hfeats : feats ≠ []) :
    ∃ c : OnlineCmn ℝ dim, ∃ rows output,
      ((create dim history).afterCalls (exact Real.sqrt) batches).bind
          (fun c => c.applyCmvn2 (exact Real.sqrt) feats) = some (c, output) ∧
      rows = (batches.flatten ++ feats).rtake history ∧
      rows.length = min (batches.flatten.length + feats.length) history ∧
      c.inOrder = rows ∧ c.featuresCached = rows.length ∧
      (∀ batches' : List (List (FeatureRow ℝ dim)), (∀ batch ∈ batches', batch ≠ []) →
        batches'.flatten = batches.flatten ++ feats →
        (create dim history).afterCalls (exact Real.sqrt) batches' = some c) ∧
      output.length = feats.length ∧
      ∀ (i : Nat) (row : FeatureRow ℝ dim) (d : Fin dim), feats[i]? = some row →
        0 < populationVariance (rows.map fun r => r d) →
        (output[i]?.map fun out => out d) =
          some (Entry.number ((row d - average (rows.map fun r => r d)) /
            Real.sqrt (populationVariance (rows.map fun r => r d)))) := by
  have hrecalls : Recalls ((create dim history : OnlineCmn ℝ dim).cache batches.flatten)
      batches.flatten := (recalls_create hpos).cache batches.flatten
  have hhist : ((create dim history : OnlineCmn ℝ dim).cache batches.flatten).hist = history :=
    cache_hist _ _
  have hcall := hrecalls.applyCmvn2 Real.sqrt hfeats
  have hcache := hrecalls.cache feats
  have horder := hcache.inOrder
  have hcached := hcache.featuresCached
  rw [hhist] at hcall
  rw [cache_hist, hhist] at horder hcached
  refine ⟨_, (batches.flatten ++ feats).rtake history,
    feats.map (normaliseRow Real.sqrt ((batches.flatten ++ feats).rtake history)),
    ?_, rfl, ?_, horder, ?_, ?_, List.length_map _, ?_⟩
  · rw [afterCalls_eq _ _ hbatches, Option.bind_some, hcall]
  · rw [RingBuffer.length_rtake, List.length_append, Nat.min_comm]
  · rw [RingBuffer.length_rtake]
    exact hcached
  · intro batches' hne heq
    rw [afterCalls_eq _ _ hne, heq, cache_append]
  · intro i row d hi hvariance
    have hne : (batches.flatten ++ feats).rtake history ≠ [] := by
      intro hnil
      simp [hnil, populationVariance] at hvariance
    rw [List.getElem?_map, hi]
    exact congrArg some (normaliseRow_eq hne row d hvariance)

/-- The third row pushes out the first one of a history of two rows. -/
theorem normalised_by_last_two :
    ∃ c : OnlineCmn ℝ 1, ∃ output,
      ((create 1 2).afterCalls (exact Real.sqrt) [[fun _ => 7, fun _ => 2]]).bind
          (fun c => c.applyCmvn2 (exact Real.sqrt) [fun _ => 4]) = some (c, output) ∧
      c.inOrder = [fun _ => 2, fun _ => 4] ∧
      (output[0]?.map fun out => out 0) = some (Entry.number ((4 - 3) / Real.sqrt 1)) := by
  have haverage : average [(2 : ℝ), 4] = 3 := by
    rw [average]
    norm_num
  have hvariance : populationVariance [(2 : ℝ), 4] = 1 := by
    rw [populationVariance, haverage]
    norm_num
  obtain ⟨c, rows, output, heq, hrows, -, horder, -, -, -, hentry⟩ :=
    normalised_by_last (show 0 < 2 by decide)
      [[(fun _ => 7 : FeatureRow ℝ 1), fun _ => 2]] [fun _ => 4] (by simp) (by simp)
  obtain rfl : rows = [fun _ => 2, fun _ => 4] := hrows
  refine ⟨c, output, heq, horder, ?_⟩
  have hcolumn := hentry 0 (fun _ => 4) 0 rfl
  simp only [List.map_cons, List.map_nil, haverage, hvariance] at hcolumn
  exact hcolumn one_pos

/-- A batch of no rows is none: the same rows are taken in without it, and with it the
program stops. -/
theorem empty_batch_stops :
    (create 13 600 : OnlineCmn ℝ 13).afterCalls (exact Real.sqrt) [[fun _ => 1], []] = none ∧
      ((create 13 600 : OnlineCmn ℝ 13).afterCalls (exact Real.sqrt) [[fun _ => 1]]).isSome := by
  rw [afterCalls_cons _ _ (List.cons_ne_nil _ _), afterCalls_cons _ _ (List.cons_ne_nil _ _)]
  exact ⟨afterCalls_empty _ (show 0 < 13 by decide) _ [], rfl⟩

end OnlineCmn

end ThreadedServer
