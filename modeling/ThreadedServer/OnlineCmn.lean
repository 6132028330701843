import Mathlib.Algebra.Order.BigOperators.Group.List
import Mathlib.Algebra.Order.Field.Basic
import Mathlib.Tactic.FieldSimp
import Mathlib.Tactic.Ring
import ThreadedServer.Numerics
import ThreadedServer.RingBuffer

/-!
# Normalisation over the last rows

`OnlineCMN` keeps the last `hist_` feature rows in a ring and normalises a batch
by the mean and the variance of the rows it holds.  A batch without rows has no
columns either, and stops the program.

The order of the ring is the order in which the rows are summed up.  In exact
arithmetic it does not matter, and what is sent on depends on the last rows only;
there the reciprocal of a variance that is zero is no number, and no entry that is
multiplied with it is one.
-/

namespace ThreadedServer

open Numerics

/-- A row of features. -/
abbrev FeatureRow (K : Type*) (dim : Nat) := Fin dim → K

/-- The members of `OnlineCMN` that `ApplyCmvn2` uses. -/
structure OnlineCmn (K : Type*) (dim : Nat) where
  hist : Nat
  oldestRow : Nat
  stats : List (FeatureRow K dim)
  featuresCached : Nat

namespace OnlineCmn

variable {K : Type*} {dim : Nat}

/-- The constructor; `stats_.Resize` sets its cells to zero. -/
def create [Zero K] (dim history : Nat) : OnlineCmn K dim where
  hist := history
  oldestRow := 0
  stats := List.replicate history fun _ => 0
  featuresCached := 0

/-- Fill up the history; what is left of the batch is returned. -/
def fill (c : OnlineCmn K dim) :
    List (FeatureRow K dim) → OnlineCmn K dim × List (FeatureRow K dim)
  | [] => (c, [])
  | row :: rest =>
      if c.featuresCached < c.hist then
        { c with
          stats := c.stats.set c.featuresCached row
          featuresCached := c.featuresCached + 1 }.fill rest
      else (c, row :: rest)

/-- Replace the oldest row with the current feature vector. -/
def replaceOldest (c : OnlineCmn K dim) (row : FeatureRow K dim) : OnlineCmn K dim :=
  { c with
    stats := c.stats.set c.oldestRow row
    oldestRow := (c.oldestRow + 1) % c.hist }

/-- The loops of `ApplyCmvn2` that update the history. -/
def cache (c : OnlineCmn K dim) (feats : List (FeatureRow K dim)) : OnlineCmn K dim :=
  (c.fill feats).2.foldl replaceOldest (c.fill feats).1

section Statistics

variable {V : Type*} (A : Arithmetic K V)

/-- An element of `m`. -/
def columnMean (column : List K) : V := A.mul (A.sum column) (A.share column.length)

/-- An element of `var`, before it is inverted. -/
def columnVar (column : List K) : V :=
  A.sub (A.mul (A.sumSquares column) (A.share column.length))
    (A.mul (columnMean A column) (columnMean A column))

/-- Normalise a row by the columns of `rows`. -/
def normalise (rows : List (FeatureRow K dim)) (row : FeatureRow K dim) : FeatureRow V dim :=
  fun d =>
    A.mul (A.sub (A.number (row d)) (columnMean A (rows.map fun r => r d)))
      (A.root (A.invert (columnVar A (rows.map fun r => r d))))

/-- `Compute`: the rows of the batch, normalised by the rows of the history. -/
def compute (c : OnlineCmn K dim) (feats : List (FeatureRow K dim)) : List (FeatureRow V dim) :=
  feats.map (normalise A (c.stats.take c.featuresCached))

/-- `NumCols` of a batch: a matrix without rows has no columns. -/
def numCols (feats : List (FeatureRow K dim)) : Nat := if feats.isEmpty then 0 else dim

/-- `ApplyCmvn2`, or its failed assertion. -/
def applyCmvn2 (c : OnlineCmn K dim) (feats : List (FeatureRow K dim)) :
    Option (OnlineCmn K dim × List (FeatureRow V dim)) :=
  if numCols feats = dim then some (c.cache feats, (c.cache feats).compute A feats) else none

theorem numCols_eq {feats : List (FeatureRow K dim)} (h : feats ≠ []) : numCols feats = dim :=
  if_neg (by simpa using h)

theorem numCols_eq_iff (hdim : 0 < dim) (feats : List (FeatureRow K dim)) :
    numCols feats = dim ↔ feats ≠ [] := by
  refine ⟨?_, numCols_eq⟩
  rintro h rfl
  exact hdim.ne h

/-- The assertion holds of every batch with a row. -/
theorem applyCmvn2_eq (c : OnlineCmn K dim) {feats : List (FeatureRow K dim)} (h : feats ≠ []) :
    c.applyCmvn2 A feats = some (c.cache feats, (c.cache feats).compute A feats) :=
  if_pos (numCols_eq h)

/-- Where it holds, the history has taken in the batch. -/
theorem applyCmvn2_eq_some {c : OnlineCmn K dim} {feats : List (FeatureRow K dim)}
    {r : OnlineCmn K dim × List (FeatureRow V dim)} (h : c.applyCmvn2 A feats = some r) :
    numCols feats = dim ∧ r = (c.cache feats, (c.cache feats).compute A feats) := by
  obtain ⟨hcols, hr⟩ := Option.ite_none_right_eq_some.mp h
  exact ⟨hcols, (Option.some.inj hr).symm⟩

end Statistics

/-! ## The statistics in exact arithmetic -/

section Exact

variable [Field K]

/-- The mean of a column: its sum, scaled by the reciprocal of its length. -/
def mean (column : List K) : K := column.sum * (1 / column.length)

/-- The variance of a column: the mean of the squares less the square of the
mean. -/
def variance (column : List K) : K :=
  (column.map fun x => x * x).sum * (1 / column.length) - mean column * mean column

variable [DecidableEq K] (sqrt : K → K)

/-- `InvertElements` and `ApplyPow(0.5)` of one element. -/
def invertedRoot (x : K) : Entry K :=
  if x = 0 then Entry.undefined else Entry.number (sqrt (1 / x))

/-- A row, normalised by the mean and the variance of the columns of `rows`. -/
def normaliseRow (rows : List (FeatureRow K dim)) (row : FeatureRow K dim) :
    FeatureRow (Entry K) dim :=
  fun d => Entry.number (row d - mean (rows.map fun r => r d)) *
    invertedRoot sqrt (variance (rows.map fun r => r d))

theorem columnMean_exact {column : List K} (h : column ≠ []) :
    columnMean (exact sqrt) column = Entry.number (mean column) := by
  rw [columnMean, exact_sum, exact_share sqrt (by simpa using h)]
  rfl

theorem columnVar_exact {column : List K} (h : column ≠ []) :
    columnVar (exact sqrt) column = Entry.number (variance column) := by
  rw [columnVar, columnMean_exact sqrt h, exact_sumSquares, exact_share sqrt (by simpa using h)]
  rfl

theorem root_invert_exact (x : K) :
    (exact sqrt).root ((exact sqrt).invert (Entry.number x)) = invertedRoot sqrt x := by
  rw [invertedRoot]
  by_cases hx : x = 0
  · rw [if_pos hx]
    show Option.map sqrt (if x = 0 then none else some (1 / x)) = none
    rw [if_pos hx, Option.map_none]
  · rw [if_neg hx]
    show Option.map sqrt (if x = 0 then none else some (1 / x)) = some (sqrt (1 / x))
    rw [if_neg hx, Option.map_some]

/-- What `Compute` does to a row is normalisation by the mean and the variance. -/
theorem normalise_exact {rows : List (FeatureRow K dim)} (h : rows ≠ [])
    (row : FeatureRow K dim) : normalise (exact sqrt) rows row = normaliseRow sqrt rows row := by
  funext d
  have hcolumn : (rows.map fun r => r d) ≠ [] := by simpa using h
  rw [normalise, columnMean_exact sqrt hcolumn, columnVar_exact sqrt hcolumn, root_invert_exact]
  rfl

end Exact

/-! ## The history is the last rows -/

/-- The history holds the last rows of all that were seen. -/
def Recalls (c : OnlineCmn K dim) (seen : List (FeatureRow K dim)) : Prop :=
  RingBuffer.Holds c.hist c.stats c.featuresCached c.oldestRow (seen.rtake c.hist)

theorem recalls_create [Zero K] {history : Nat} (h : 0 < history) :
    Recalls (create dim history : OnlineCmn K dim) [] := by
  have hempty : RingBuffer.Holds history (create dim history : OnlineCmn K dim).stats 0 0 [] :=
    RingBuffer.Holds.empty h (by simp [create])
  rw [Recalls, List.rtake_nil]
  exact hempty

theorem Recalls.featuresCached {c : OnlineCmn K dim} {seen : List (FeatureRow K dim)}
    (h : Recalls c seen) : c.featuresCached = min c.hist seen.length := by
  rw [← h.length_eq, RingBuffer.length_rtake]

theorem fill_hist (c : OnlineCmn K dim) (feats : List (FeatureRow K dim)) :
    (c.fill feats).1.hist = c.hist := by
  induction feats generalizing c with
  | nil => rfl
  | cons row rest ih =>
      rw [fill]
      split
      · rw [ih]
      · rfl

/-- Filling up does not touch a full history. -/
theorem fill_full {c : OnlineCmn K dim} (hfull : c.featuresCached = c.hist)
    (feats : List (FeatureRow K dim)) : c.fill feats = (c, feats) := by
  cases feats with
  | nil => rfl
  | cons row rest => rw [fill, if_neg (by omega)]

theorem replaceOldest_hist (c : OnlineCmn K dim) (feats : List (FeatureRow K dim)) :
    (feats.foldl replaceOldest c).hist = c.hist := by
  induction feats generalizing c with
  | nil => rfl
  | cons row rest ih =>
      rw [List.foldl_cons, ih]
      rfl

@[simp] theorem cache_hist (c : OnlineCmn K dim) (feats : List (FeatureRow K dim)) :
    (c.cache feats).hist = c.hist := by
  rw [cache, replaceOldest_hist, fill_hist]

/-- Filling up takes rows in, until the history is full or the batch is used up. -/
theorem Recalls.fill {c : OnlineCmn K dim} {seen : List (FeatureRow K dim)}
    (h : Recalls c seen) (feats : List (FeatureRow K dim)) :
    ∃ taken, feats = taken ++ (c.fill feats).2 ∧ Recalls (c.fill feats).1 (seen ++ taken) ∧
      ((c.fill feats).2 = [] ∨ c.hist ≤ (seen ++ taken).length) := by
  induction feats generalizing c seen with
  | nil => exact ⟨[], rfl, by simpa [OnlineCmn.fill] using h, Or.inl rfl⟩
  | cons row rest ih =>
      rw [OnlineCmn.fill]
      have hcount := h.featuresCached
      by_cases hfull : c.featuresCached < c.hist
      · have hroom : seen.length < c.hist := by omega
        have hnext : Recalls { c with
            stats := c.stats.set c.featuresCached row
            featuresCached := c.featuresCached + 1 } (seen ++ [row]) := by
          have hfill := RingBuffer.Holds.fill h hfull row
          rw [← RingBuffer.rtake_concat_of_lt hroom] at hfill
          exact hfill
        obtain ⟨taken, hsplit, hrecalls, hend⟩ := ih hnext
        rw [if_pos hfull]
        refine ⟨row :: taken, by rw [List.cons_append, ← hsplit], ?_, ?_⟩
        · simpa using hrecalls
        · simpa using hend
      · rw [if_neg hfull]
        exact ⟨[], rfl, by simpa using h, Or.inr (by simp; omega)⟩

/-- Each further row replaces the oldest one. -/
theorem Recalls.replace {c : OnlineCmn K dim} {seen : List (FeatureRow K dim)}
    (h : Recalls c seen) (hlen : c.hist ≤ seen.length) (rest : List (FeatureRow K dim)) :
    Recalls (rest.foldl replaceOldest c) (seen ++ rest) := by
  induction rest generalizing c seen with
  | nil => simpa using h
  | cons row rest ih =>
      have hcount : c.featuresCached = c.hist := by
        rw [h.featuresCached]
        omega
      have hpos : 0 < c.hist := Nat.lt_of_le_of_lt (Nat.zero_le _) h.oldest_lt
      have hnext : Recalls (c.replaceOldest row) (seen ++ [row]) := by
        unfold Recalls at h
        rw [hcount] at h
        have hover := RingBuffer.Holds.overwrite h row
        rw [← RingBuffer.rtake_concat_of_le hpos hlen] at hover
        unfold Recalls
        rw [show (c.replaceOldest row).featuresCached = c.hist from hcount]
        exact hover
      have hrest := ih hnext (by simp [replaceOldest]; omega)
      simpa using hrest

/-- **The history.**  After a batch the history holds the last rows of all that
were seen, the batch included. -/
theorem Recalls.cache {c : OnlineCmn K dim} {seen : List (FeatureRow K dim)}
    (h : Recalls c seen) (feats : List (FeatureRow K dim)) :
    Recalls (c.cache feats) (seen ++ feats) := by
  obtain ⟨taken, hsplit, hrecalls, hend⟩ := h.fill feats
  rcases hend with hnil | hfull
  · rw [hnil, List.append_nil] at hsplit
    rw [← hsplit] at hrecalls
    rw [OnlineCmn.cache, hnil]
    exact hrecalls
  · have hrest := hrecalls.replace (by rw [fill_hist]; exact hfull) (c.fill feats).2
    rw [List.append_assoc, ← hsplit] at hrest
    exact hrest

/-! ## What is sent on depends on the last rows only -/

section Output

variable [Field K] [DecidableEq K] (sqrt : K → K)

omit [DecidableEq K] in
theorem mean_perm {l m : List K} (h : l.Perm m) : mean l = mean m := by
  rw [mean, mean, h.sum_eq, h.length_eq]

omit [DecidableEq K] in
theorem variance_perm {l m : List K} (h : l.Perm m) : variance l = variance m := by
  rw [variance, variance, (h.map _).sum_eq, h.length_eq, mean_perm h]

theorem normaliseRow_perm {rows rows' : List (FeatureRow K dim)} (h : rows.Perm rows') :
    normaliseRow sqrt rows = normaliseRow sqrt rows' := by
  funext row d
  rw [normaliseRow, normaliseRow, mean_perm (h.map _), variance_perm (h.map _)]

/-- **The output of a batch**: its rows, normalised by the last rows seen. -/
theorem Recalls.compute {c : OnlineCmn K dim} {seen feats : List (FeatureRow K dim)}
    (h : Recalls c seen) (hne : feats ≠ []) :
    (c.cache feats).compute (exact sqrt) feats =
      feats.map (normaliseRow sqrt ((seen ++ feats).rtake c.hist)) := by
  have hpos : 0 < c.hist := Nat.lt_of_le_of_lt (Nat.zero_le _) h.oldest_lt
  have hcache := h.cache feats
  unfold Recalls at hcache
  rw [cache_hist] at hcache
  have hheld : (c.cache feats).stats.take (c.cache feats).featuresCached ≠ [] := by
    intro hnil
    have hlen := hcache.perm.length_eq
    have hfeats := List.length_pos_iff.mpr hne
    rw [hnil, RingBuffer.length_rtake, List.length_append, List.length_nil] at hlen
    omega
  refine List.map_congr_left fun row _ => ?_
  rw [normalise_exact sqrt hheld, normaliseRow_perm sqrt hcache.perm]

theorem Recalls.applyCmvn2 {c : OnlineCmn K dim} {seen feats : List (FeatureRow K dim)}
    (h : Recalls c seen) (hne : feats ≠ []) :
    c.applyCmvn2 (exact sqrt) feats =
      some (c.cache feats, feats.map (normaliseRow sqrt ((seen ++ feats).rtake c.hist))) := by
  rw [applyCmvn2_eq (exact sqrt) c hne, h.compute sqrt hne]

/-- A call that returns, with a batch that has rows or no columns. -/
theorem Recalls.applyCmvn2_eq_some {c : OnlineCmn K dim} {seen feats : List (FeatureRow K dim)}
    (h : Recalls c seen) {r : OnlineCmn K dim × List (FeatureRow (Entry K) dim)}
    (hr : c.applyCmvn2 (exact sqrt) feats = some r) :
    r = (c.cache feats, feats.map (normaliseRow sqrt ((seen ++ feats).rtake c.hist))) := by
  by_cases hne : feats = []
  · subst hne
    exact (OnlineCmn.applyCmvn2_eq_some _ hr).2
  · rw [h.applyCmvn2 sqrt hne] at hr
    exact (Option.some.inj hr).symm

end Output

/-! ## Mean and variance of exact numbers -/

section Ordered

variable [Field K]

/-- The squared distances from any point. -/
theorem sum_sq_sub (column : List K) (m : K) :
    (column.map fun x => (x - m) * (x - m)).sum =
      (column.map fun x => x * x).sum - 2 * m * column.sum + column.length * (m * m) := by
  induction column with
  | nil => simp
  | cons x column ih =>
      simp only [List.map_cons, List.sum_cons, ih, List.length_cons]
      push_cast
      ring

variable [LinearOrder K] [IsStrictOrderedRing K]

/-- The variance is the mean squared distance from the mean. -/
theorem length_mul_variance {column : List K} (h : column ≠ []) :
    column.length * variance column =
      (column.map fun x => (x - mean column) * (x - mean column)).sum := by
  have hlen : (column.length : K) ≠ 0 := by
    simpa using h
  have hsum : column.sum = column.length * mean column := by
    rw [mean]
    field_simp
  rw [sum_sq_sub, variance, hsum]
  field_simp
  ring

/-- A column with a value away from its mean has a positive variance. -/
theorem variance_pos {column : List K} {x : K} (hx : x ∈ column)
    (hne : x ≠ mean column) : 0 < variance column := by
  have hnil : column ≠ [] := List.ne_nil_of_mem hx
  have hpos : 0 < (column.length : K) := by
    have := List.length_pos_iff.mpr hnil
    exact_mod_cast this
  have hsq : 0 < (x - mean column) * (x - mean column) :=
    mul_self_pos.mpr (sub_ne_zero.mpr hne)
  have hle : (x - mean column) * (x - mean column) ≤
      (column.map fun y => (y - mean column) * (y - mean column)).sum := by
    refine List.single_le_sum ?_ _ (List.mem_map_of_mem hx)
    simp only [List.mem_map, forall_exists_index, and_imp]
    rintro _ y - rfl
    exact mul_self_nonneg _
  have hprod : 0 < column.length * variance column := by
    rw [length_mul_variance hnil]
    exact lt_of_lt_of_le hsq hle
  exact (mul_pos_iff_of_pos_left hpos).mp hprod

end Ordered

end OnlineCmn

end ThreadedServer
