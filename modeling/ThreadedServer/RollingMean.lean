import Mathlib.Algebra.CharZero.Defs
import Mathlib.Data.Fintype.Basic
import Mathlib.Data.Rat.Cast.CharZero
import ThreadedServer.OnlineCmn

/-!
# The rolling mean

`OnlineCMN` has two public methods.  `ApplyCmvn2` computes the mean and the
variance anew from the rows it holds.  `ApplyCmvn` subtracts a mean; while the
history is filling up it computes that mean anew too, but from the first call
that finds the history full it keeps the mean in `norm_` and only adjusts it by
the rows that come and go in `ApplyCmvn` itself.  Rows that come and go in
`ApplyCmvn2` do not reach `norm_`.

So `norm_` is off by the sum of what `ApplyCmvn2` has changed in the history
since `norm_` was first computed, divided by the length of the history.  Both
methods begin with the same assertion, which an empty batch fails.  The
arithmetic is exact and over any field of characteristic zero.
-/

namespace ThreadedServer

open Numerics

/-- The members of `OnlineCMN`.  `norm_` has no elements at first. -/
structure RollingCmn (K : Type*) (dim : Nat) where
  cmn : OnlineCmn K dim
  norm : Option (FeatureRow K dim)

/-- A call of one of the two public methods with its batch. -/
inductive CmvnCall (K : Type*) (dim : Nat)
  | applyCmvn (feats : List (FeatureRow K dim))
  | applyCmvn2 (feats : List (FeatureRow K dim))

namespace RollingCmn

variable {K : Type*} {dim : Nat} [Field K]

/-- The constructor. -/
def create (dim history : Nat) : RollingCmn K dim where
  cmn := .create dim history
  norm := none

/-- The sum of every column. -/
def columnSum (rows : List (FeatureRow K dim)) : FeatureRow K dim :=
  fun d => (rows.map fun row => row d).sum

/-- The mean of the first `count` rows of `stats_`, as `ComputeMean` and
`ApplyCmvn` compute it. -/
def statsMean (c : OnlineCmn K dim) (count : Nat) : FeatureRow K dim :=
  fun d => columnSum (c.stats.take count) d / count

/-- Apply a mean. -/
def subtractMean (norm : FeatureRow K dim) (feats : List (FeatureRow K dim)) :
    List (FeatureRow K dim) :=
  feats.map fun row d => row d - norm d

/-- The loop that computes the rolling mean. -/
def rollMean (c : OnlineCmn K dim) (norm : FeatureRow K dim) :
    List (FeatureRow K dim) → OnlineCmn K dim × FeatureRow K dim
  | [] => (c, norm)
  | row :: rest =>
      rollMean (c.replaceOldest row)
        (fun d => norm d - c.stats.getD c.oldestRow (fun _ => 0) d / c.hist + row d / c.hist) rest

/-- `ApplyCmvn` behind its assertion. -/
def subtractRolling (c : RollingCmn K dim) (feats : List (FeatureRow K dim)) :
    RollingCmn K dim × List (FeatureRow K dim) :=
  let (cmn, rest) := c.cmn.fill feats
  if cmn.featuresCached ≠ cmn.hist then
    ({ c with cmn }, subtractMean (statsMean cmn cmn.featuresCached) feats)
  else
    let (cmn', norm) := rollMean cmn (c.norm.getD (statsMean cmn cmn.hist)) rest
    ({ cmn := cmn', norm := some norm }, subtractMean norm feats)

/-- `ApplyCmvn`, or its failed assertion. -/
def applyCmvn (c : RollingCmn K dim) (feats : List (FeatureRow K dim)) :
    Option (RollingCmn K dim × List (FeatureRow K dim)) :=
  if OnlineCmn.numCols feats = dim then some (c.subtractRolling feats) else none

/-- `ApplyCmvn2`, which leaves `norm_` alone. -/
def applyCmvn2 [DecidableEq K] (sqrt : K → K) (c : RollingCmn K dim)
    (feats : List (FeatureRow K dim)) :
    Option (RollingCmn K dim × List (FeatureRow (Entry K) dim)) :=
  (c.cmn.applyCmvn2 (exact sqrt) feats).map fun (cmn, normFeats) => ({ c with cmn }, normFeats)

/-! ## What is known of the rows alone -/

/-- What the calls so far say about the mean: the rows received, whether
`norm_` has been computed, and by how much `ApplyCmvn2` has changed the sum of
the history since then. -/
structure Ledger (K : Type*) (dim : Nat) where
  seen : List (FeatureRow K dim)
  normed : Bool
  drift : FeatureRow K dim

/-- `norm_` is computed by the first `ApplyCmvn` that finds the history full;
the rows that `ApplyCmvn2` brings in and pushes out after that are not accounted
for. -/
def Ledger.next (history : Nat) (l : Ledger K dim) : CmvnCall K dim → Ledger K dim
  | .applyCmvn feats =>
      { seen := l.seen ++ feats
        normed := l.normed || decide (history ≤ (l.seen ++ feats).length)
        drift := l.drift }
  | .applyCmvn2 feats =>
      { seen := l.seen ++ feats
        normed := l.normed
        drift := fun d =>
          if l.normed then
            l.drift d + (columnSum ((l.seen ++ feats).rtake history) d -
              columnSum (l.seen.rtake history) d)
          else l.drift d }

/-- The ledger of a sequence of calls. -/
def ledger (history : Nat) (calls : List (CmvnCall K dim)) : Ledger K dim :=
  calls.foldl (Ledger.next history) ⟨[], false, fun _ => 0⟩

/-- The exact mean of every column. -/
def exactMean (rows : List (FeatureRow K dim)) : FeatureRow K dim :=
  fun d => OnlineCmn.mean (rows.map fun row => row d)

/-! ## One row, and a batch of them -/

section Rows

variable {c : OnlineCmn K dim} {seen : List (FeatureRow K dim)}

theorem columnSum_append (rows rows' : List (FeatureRow K dim)) (d : Fin dim) :
    columnSum (rows ++ rows') d = columnSum rows d + columnSum rows' d := by
  simp [columnSum]

theorem columnSum_cons (row : FeatureRow K dim) (rows : List (FeatureRow K dim)) (d : Fin dim) :
    columnSum (row :: rows) d = row d + columnSum rows d := by
  simp [columnSum]

theorem exactMean_eq (rows : List (FeatureRow K dim)) (d : Fin dim) :
    exactMean rows d = columnSum rows d / rows.length := by
  simp [exactMean, columnSum, OnlineCmn.mean, div_eq_mul_inv]

/-- The mean of the rows held is the mean of the last rows seen. -/
theorem statsMean_eq (h : c.Recalls seen) :
    statsMean c c.featuresCached = exactMean (seen.rtake c.hist) := by
  funext d
  have hperm : (c.stats.take c.featuresCached).Perm (seen.rtake c.hist) :=
    RingBuffer.Holds.perm h
  have hlen : (seen.rtake c.hist).length = c.featuresCached := RingBuffer.Holds.length_eq h
  rw [statsMean, exactMean_eq, hlen, columnSum, columnSum, (hperm.map _).sum_eq]

/-- A full history gains the new row and loses the oldest one. -/
theorem columnSum_replace (h : c.Recalls seen)
    (hfull : c.hist ≤ seen.length)
    (row : FeatureRow K dim) (d : Fin dim) :
    columnSum ((seen ++ [row]).rtake c.hist) d =
      columnSum (seen.rtake c.hist) d - c.stats.getD c.oldestRow (fun _ => 0) d + row d := by
  have hpos : 0 < c.hist := Nat.lt_of_le_of_lt (Nat.zero_le _) (RingBuffer.Holds.oldest_lt h)
  have hcount : c.featuresCached = c.hist := by
    rw [h.featuresCached]
    omega
  unfold OnlineCmn.Recalls at h
  rw [hcount] at h
  have hold := h.eq_cons fun _ => 0
  rw [RingBuffer.rtake_concat_of_le hpos hfull, columnSum_append, columnSum_cons]
  rw [congrArg (fun rows => columnSum rows d) hold, columnSum_cons]
  simp [columnSum]

/-- The loop adjusts the mean by what the batch changes in the history. -/
theorem rollMean_eq (h : c.Recalls seen)
    (hfull : c.hist ≤ seen.length)
    (norm : FeatureRow K dim) (rest : List (FeatureRow K dim)) :
    rollMean c norm rest = (rest.foldl OnlineCmn.replaceOldest c, fun d =>
      norm d + (columnSum ((seen ++ rest).rtake c.hist) d -
        columnSum (seen.rtake c.hist) d) / c.hist) := by
  induction rest generalizing c seen norm with
  | nil => simp [rollMean]
  | cons row rest ih =>
      have hnext : (c.replaceOldest row).Recalls (seen ++ [row]) := h.replace hfull [row]
      have hhist : (c.replaceOldest row).hist = c.hist := rfl
      rw [rollMean, ih hnext (by rw [hhist, List.length_append]; omega), hhist,
        List.append_assoc, List.singleton_append, List.foldl_cons]
      congr 1
      funext d
      rw [columnSum_replace h hfull row d]
      ring

end Rows

/-! ## The mean that is kept -/

/-- What the ledger of the calls says about the state: `norm_` is the mean of
the last rows, less the drift divided by the length of the history. -/
structure Tracks (history : Nat) (c : RollingCmn K dim) (l : Ledger K dim) : Prop where
  hist : c.cmn.hist = history
  recalls : c.cmn.Recalls l.seen
  fresh : l.normed = false → c.norm = none ∧ ∀ d, l.drift d = 0
  normed : l.normed = true → history ≤ l.seen.length ∧ ∃ norm, c.norm = some norm ∧
    ∀ d, norm d = exactMean (l.seen.rtake history) d - l.drift d / history

theorem tracks_create {history : Nat} (hpos : 0 < history) :
    Tracks history (create dim history : RollingCmn K dim) ⟨[], false, fun _ => 0⟩ :=
  ⟨rfl, OnlineCmn.recalls_create hpos, fun _ => ⟨rfl, fun _ => rfl⟩, fun h => by cases h⟩

/-- The mean of a full history. -/
theorem exactMean_full {history : Nat} {rows : List (FeatureRow K dim)}
    (hfull : history ≤ rows.length) (d : Fin dim) :
    exactMean (rows.rtake history) d = columnSum (rows.rtake history) d / history := by
  rw [exactMean_eq, RingBuffer.length_rtake, Nat.min_eq_left hfull]

/-- The rolled mean, when it started from a mean that was off by the drift. -/
theorem rollMean_norm {c : OnlineCmn K dim} {seen : List (FeatureRow K dim)}
    (h : c.Recalls seen)
    (hfull : c.hist ≤ seen.length)
    {norm drift : FeatureRow K dim}
    (hnorm : ∀ d, norm d = exactMean (seen.rtake c.hist) d - drift d / c.hist)
    (rest : List (FeatureRow K dim)) (d : Fin dim) :
    (rollMean c norm rest).2 d =
      exactMean ((seen ++ rest).rtake c.hist) d - drift d / c.hist := by
  have hfull' : c.hist ≤ (seen ++ rest).length := by
    rw [List.length_append]
    omega
  rw [rollMean_eq h hfull norm rest]
  simp only
  rw [hnorm d, exactMean_full hfull d, exactMean_full hfull' d]
  ring

/-- `ApplyCmvn` while the history is filling up. -/
theorem subtractRolling_filling {c : RollingCmn K dim} {feats : List (FeatureRow K dim)}
    (h : (c.cmn.fill feats).1.featuresCached ≠ (c.cmn.fill feats).1.hist) :
    c.subtractRolling feats = ({ c with cmn := (c.cmn.fill feats).1 },
      subtractMean (statsMean (c.cmn.fill feats).1 (c.cmn.fill feats).1.featuresCached) feats) := by
  rw [subtractRolling]
  exact if_pos h

/-- `ApplyCmvn` once the history is full. -/
theorem subtractRolling_full {c : RollingCmn K dim} {feats : List (FeatureRow K dim)}
    {cmn : OnlineCmn K dim} {norm : FeatureRow K dim}
    (h : (c.cmn.fill feats).1.featuresCached = (c.cmn.fill feats).1.hist)
    (hroll : rollMean (c.cmn.fill feats).1
      (c.norm.getD (statsMean (c.cmn.fill feats).1 (c.cmn.fill feats).1.hist))
      (c.cmn.fill feats).2 = (cmn, norm)) :
    c.subtractRolling feats = (⟨cmn, some norm⟩, subtractMean norm feats) := by
  rw [subtractRolling]
  refine (if_neg (not_not.mpr h)).trans ?_
  rw [hroll]

section Call

variable {history : Nat} {c : RollingCmn K dim} {l : Ledger K dim}
  {feats taken : List (FeatureRow K dim)}

/-- The mean from which a full history is rolled on: it is computed if there is none. -/
theorem Tracks.base (h : Tracks history c l)
    (hsplit : feats = taken ++ (c.cmn.fill feats).2)
    (htaken : (c.cmn.fill feats).1.Recalls (l.seen ++ taken))
    (hlen : (c.cmn.fill feats).1.featuresCached = (c.cmn.fill feats).1.hist)
    (d : Fin dim) :
    c.norm.getD (statsMean (c.cmn.fill feats).1 (c.cmn.fill feats).1.hist) d =
      exactMean ((l.seen ++ taken).rtake (c.cmn.fill feats).1.hist) d -
        l.drift d / (c.cmn.fill feats).1.hist := by
  obtain ⟨rfl, hrecalls, hfresh, hnormed⟩ := h
  cases hl : l.normed with
  | false =>
      obtain ⟨hnone, hdrift⟩ := hfresh hl
      have hstats := statsMean_eq htaken
      rw [hlen] at hstats
      rw [hnone, Option.getD_none, hstats, hdrift d, zero_div, sub_zero]
  | true =>
      obtain ⟨hseen, norm, hsome, hnorm⟩ := hnormed hl
      have hready : c.cmn.featuresCached = c.cmn.hist := by
        rw [hrecalls.featuresCached]
        omega
      rw [OnlineCmn.fill_full hready] at hsplit
      obtain rfl : taken = [] := by simpa using hsplit.symm
      rw [hsome, Option.getD_some, hnorm d, List.append_nil, OnlineCmn.fill_hist]

/-- `ApplyCmvn` when its batch fills the history, or finds it full: the mean is rolled
on. -/
theorem Tracks.subtractRolling_full (h : Tracks history c l)
    (hsplit : feats = taken ++ (c.cmn.fill feats).2)
    (htaken : (c.cmn.fill feats).1.Recalls (l.seen ++ taken))
    (hfull : history ≤ (l.seen ++ taken).length) :
    Tracks history (c.subtractRolling feats).1 (l.next history (.applyCmvn feats)) ∧
      (c.subtractRolling feats).2 = feats.map fun row d =>
        row d - (exactMean ((l.seen ++ feats).rtake history) d - l.drift d / history) := by
  have hhist : (c.cmn.fill feats).1.hist = history :=
    (OnlineCmn.fill_hist c.cmn feats).trans h.hist
  have hlen : (c.cmn.fill feats).1.featuresCached = (c.cmn.fill feats).1.hist := by
    rw [htaken.featuresCached, hhist]
    omega
  have hfull' : (c.cmn.fill feats).1.hist ≤ (l.seen ++ taken).length := hhist ▸ hfull
  have hall : l.seen ++ taken ++ (c.cmn.fill feats).2 = l.seen ++ feats := by
    rw [List.append_assoc, ← hsplit]
  have hbase := h.base hsplit htaken hlen
  generalize hget : c.norm.getD (statsMean (c.cmn.fill feats).1 (c.cmn.fill feats).1.hist) =
    base at hbase
  have hroll := rollMean_norm htaken hfull' hbase (c.cmn.fill feats).2
  have hcmn := rollMean_eq htaken hfull' base (c.cmn.fill feats).2
  have hafter := htaken.replace hfull' (c.cmn.fill feats).2
  rw [hall, hhist] at hroll
  rw [hall] at hafter
  have hle : history ≤ (l.seen ++ feats).length := by
    rw [← hall, List.length_append]
    omega
  rw [RollingCmn.subtractRolling_full hlen (by rw [hget])]
  refine ⟨⟨?_, ?_, ?_, ?_⟩, ?_⟩
  · rw [hcmn, OnlineCmn.replaceOldest_hist, hhist]
  · rw [hcmn]
    exact hafter
  · intro hno
    have hor : (l.normed || decide (history ≤ (l.seen ++ feats).length)) = false := hno
    rw [decide_eq_true hle, Bool.or_true] at hor
    cases hor
  · exact fun _ => ⟨hle, _, rfl, hroll⟩
  · rw [subtractMean]
    refine List.map_congr_left fun row _ => funext fun d => ?_
    rw [hroll d]

/-- `ApplyCmvn` while the history is filling up: there is no mean yet, and no drift. -/
theorem Tracks.subtractRolling_filling (h : Tracks history c l)
    (hfilled : (c.cmn.fill feats).1.Recalls (l.seen ++ feats))
    (hshort : ¬ history ≤ (l.seen ++ feats).length) :
    Tracks history (c.subtractRolling feats).1 (l.next history (.applyCmvn feats)) ∧
      (c.subtractRolling feats).2 = feats.map fun row d =>
        row d - (exactMean ((l.seen ++ feats).rtake history) d - l.drift d / history) := by
  have hhist : (c.cmn.fill feats).1.hist = history :=
    (OnlineCmn.fill_hist c.cmn feats).trans h.hist
  have hlen : (c.cmn.fill feats).1.featuresCached ≠ (c.cmn.fill feats).1.hist := by
    rw [hfilled.featuresCached, hhist]
    omega
  have hl : l.normed = false := by
    cases hl : l.normed with
    | false => rfl
    | true =>
        have hseen := (h.normed hl).1
        rw [List.length_append] at hshort
        omega
  obtain ⟨hnone, hdrift⟩ := h.fresh hl
  rw [RollingCmn.subtractRolling_filling hlen]
  refine ⟨⟨hhist, hfilled, fun _ => ⟨hnone, hdrift⟩, fun hno => ?_⟩, ?_⟩
  · have hor : (l.normed || decide (history ≤ (l.seen ++ feats).length)) = true := hno
    rw [hl, decide_eq_false hshort] at hor
    cases hor
  · rw [subtractMean, statsMean_eq hfilled, hhist]
    refine List.map_congr_left fun row _ => funext fun d => ?_
    rw [hdrift d, zero_div, sub_zero]

/-- **A call of `ApplyCmvn`** subtracts the mean of the last rows, less the
drift divided by the length of the history. -/
theorem Tracks.subtractRolling (h : Tracks history c l)
    (feats : List (FeatureRow K dim)) :
    Tracks history (c.subtractRolling feats).1 (l.next history (.applyCmvn feats)) ∧
      (c.subtractRolling feats).2 = feats.map fun row d =>
        row d - (exactMean ((l.seen ++ feats).rtake history) d - l.drift d / history) := by
  obtain ⟨taken, hsplit, htaken, hend⟩ := h.recalls.fill feats
  rw [h.hist] at hend
  by_cases hfull : history ≤ (l.seen ++ taken).length
  · exact h.subtractRolling_full hsplit htaken hfull
  · have hrest : (c.cmn.fill feats).2 = [] := hend.resolve_right hfull
    obtain rfl : feats = taken := by rw [hsplit, hrest, List.append_nil]
    exact h.subtractRolling_filling htaken hfull

end Call

/-- **A call of `ApplyCmvn2`** changes the history under `norm_`. -/
theorem Tracks.cache {history : Nat} {c : RollingCmn K dim} {l : Ledger K dim}
    (h : Tracks history c l)
    (feats : List (FeatureRow K dim)) :
    Tracks history { c with cmn := c.cmn.cache feats } (l.next history (.applyCmvn2 feats)) := by
  obtain ⟨hhist, hrecalls, hfresh, hnormed⟩ := h
  refine ⟨(OnlineCmn.cache_hist _ _).trans hhist, hrecalls.cache feats, fun hl => ?_, fun hl => ?_⟩
  · have hl' : l.normed = false := hl
    simpa [Ledger.next, hl'] using hfresh hl'
  · have hl' : l.normed = true := hl
    obtain ⟨hseen, norm, hsome, hnorm⟩ := hnormed hl'
    have hseen' : history ≤ (l.seen ++ feats).length := by
      rw [List.length_append]
      omega
    refine ⟨hseen', norm, hsome, fun d => ?_⟩
    simp only [Ledger.next, hl', if_true]
    rw [hnorm d, exactMean_full hseen d, exactMean_full hseen' d]
    ring

section Calls

variable [DecidableEq K] (sqrt : K → K)

/-- The state after a call, if it returns. -/
def call (c : RollingCmn K dim) : CmvnCall K dim → Option (RollingCmn K dim)
  | .applyCmvn feats => (c.applyCmvn feats).map Prod.fst
  | .applyCmvn2 feats => (c.applyCmvn2 sqrt feats).map Prod.fst

/-- The state of a new `OnlineCMN` after a sequence of calls, if all of them return. -/
def after (history : Nat) (calls : List (CmvnCall K dim)) : Option (RollingCmn K dim) :=
  calls.foldlM (call sqrt) (create dim history)

/-- The rows of a call. -/
def CmvnCall.feats : CmvnCall K dim → List (FeatureRow K dim)
  | .applyCmvn feats | .applyCmvn2 feats => feats

/-- A call returns exactly when its assertion holds, and the ledger keeps up with it. -/
theorem Tracks.call {history : Nat} {c : RollingCmn K dim} {l : Ledger K dim}
    (h : Tracks history c l) (a : CmvnCall K dim) :
    ((c.call sqrt a).isSome ↔ OnlineCmn.numCols (CmvnCall.feats a) = dim) ∧
      ∀ c', c.call sqrt a = some c' → Tracks history c' (l.next history a) := by
  cases a with
  | applyCmvn feats =>
      by_cases hcols : OnlineCmn.numCols feats = dim
      · have hcall : c.call sqrt (.applyCmvn feats) = some (c.subtractRolling feats).1 := by
          rw [RollingCmn.call, RollingCmn.applyCmvn, if_pos hcols, Option.map_some]
        rw [hcall]
        refine ⟨iff_of_true rfl hcols, ?_⟩
        rintro _ ⟨⟩
        exact (h.subtractRolling feats).1
      · have hcall : c.call sqrt (.applyCmvn feats) = none := by
          rw [RollingCmn.call, RollingCmn.applyCmvn, if_neg hcols, Option.map_none]
        rw [hcall]
        exact ⟨iff_of_false Bool.false_ne_true hcols, fun _ hc => by cases hc⟩
  | applyCmvn2 feats =>
      by_cases hcols : OnlineCmn.numCols feats = dim
      · have hcall : c.call sqrt (.applyCmvn2 feats) =
            some { c with cmn := c.cmn.cache feats } := by
          rw [RollingCmn.call, RollingCmn.applyCmvn2, OnlineCmn.applyCmvn2, if_pos hcols,
            Option.map_some, Option.map_some]
        rw [hcall]
        refine ⟨iff_of_true rfl hcols, ?_⟩
        rintro _ ⟨⟩
        exact h.cache feats
      · have hcall : c.call sqrt (.applyCmvn2 feats) = none := by
          rw [RollingCmn.call, RollingCmn.applyCmvn2, OnlineCmn.applyCmvn2, if_neg hcols,
            Option.map_none, Option.map_none]
        rw [hcall]
        exact ⟨iff_of_false Bool.false_ne_true hcols, fun _ hc => by cases hc⟩

/-- All calls of a sequence return exactly when all assertions hold. -/
theorem Tracks.calls {history : Nat} {c : RollingCmn K dim} {l : Ledger K dim}
    (h : Tracks history c l) (calls : List (CmvnCall K dim)) :
    ((calls.foldlM (RollingCmn.call sqrt) c).isSome ↔
        ∀ a ∈ calls, OnlineCmn.numCols (CmvnCall.feats a) = dim) ∧
      ∀ c', calls.foldlM (RollingCmn.call sqrt) c = some c' →
        Tracks history c' (calls.foldl (Ledger.next history) l) := by
  induction calls generalizing c l with
  | nil =>
      refine ⟨iff_of_true rfl (by simp), ?_⟩
      rintro _ ⟨⟩
      exact h
  | cons a calls ih =>
      obtain ⟨hreturns, hnext⟩ := h.call sqrt a
      rw [List.foldlM_cons, List.foldl_cons, List.forall_mem_cons]
      cases hcall : c.call sqrt a with
      | none =>
          rw [hcall] at hreturns
          have hno : ¬ OnlineCmn.numCols (CmvnCall.feats a) = dim :=
            fun hcols => Bool.false_ne_true (hreturns.mpr hcols)
          exact ⟨iff_of_false Bool.false_ne_true fun hall => hno hall.1, fun _ hc => by cases hc⟩
      | some c' =>
          rw [hcall] at hreturns
          obtain ⟨hrest, hlast⟩ := ih (hnext c' hcall)
          exact ⟨hrest.trans (and_iff_right (hreturns.mp rfl)).symm, hlast⟩

end Calls

/-- The ledger has seen the rows of all calls. -/
theorem ledger_seen (history : Nat) (calls : List (CmvnCall K dim)) :
    (ledger history calls).seen = calls.flatMap CmvnCall.feats := by
  have hfold : ∀ l : Ledger K dim, (calls.foldl (Ledger.next history) l).seen =
      l.seen ++ calls.flatMap CmvnCall.feats := by
    induction calls with
    | nil => simp
    | cons a calls ih =>
        intro l
        rw [List.foldl_cons, ih, List.flatMap_cons, ← List.append_assoc]
        cases a <;> rfl
  exact hfold _

/-- The rows less a mean that is off by a fraction of the drift: right for a batch with
rows exactly when there is no drift. -/
theorem subtract_drift_iff {history : Nat} (hne : (history : K) ≠ 0)
    (mean drift : FeatureRow K dim) {feats : List (FeatureRow K dim)}
    (hcols : OnlineCmn.numCols feats = dim) :
    (feats.map fun row d => row d - (mean d - drift d / history)) = subtractMean mean feats ↔
      ∀ d, drift d = 0 := by
  rw [subtractMean, List.map_inj_left]
  constructor
  · intro hall d
    have hfeats : feats ≠ [] := (OnlineCmn.numCols_eq_iff (Fin.pos d) feats).mp hcols
    obtain ⟨row, hrow⟩ := List.exists_mem_of_ne_nil feats hfeats
    have hzero : drift d / history = 0 :=
      sub_eq_self.mp (sub_right_inj.mp (congrFun (hall row hrow) d))
    exact (div_eq_zero_iff.mp hzero).resolve_right hne
  · intro hdrift row _
    funext d
    rw [hdrift d, zero_div, sub_zero]

/-- **When `ApplyCmvn` subtracts the exact mean.**  After any sequence of calls,
a call of `ApplyCmvn` returns its rows less the mean of the last rows received
exactly when no assertion fails, of its own or of the calls before it, and
`ApplyCmvn2` has left the sum of the history as it was when `norm_` was first
computed; and exactly in the latter case `norm_` is the mean of the rows in
`stats_`. -/
theorem applyCmvn_exact_iff [CharZero K] [DecidableEq K] (sqrt : K → K) {history : Nat}
    (hpos : 0 < history)
    (calls : List (CmvnCall K dim)) (feats : List (FeatureRow K dim)) :
    ((after sqrt history calls).bind (fun c => (c.applyCmvn feats).map Prod.snd) =
        some (subtractMean
          (exactMean ((calls.flatMap CmvnCall.feats ++ feats).rtake history)) feats) ↔
      (∀ a ∈ calls, OnlineCmn.numCols (CmvnCall.feats a) = dim) ∧
        OnlineCmn.numCols feats = dim ∧ ∀ d, (ledger history calls).drift d = 0) ∧
    ∀ c norm, after sqrt history calls = some c → c.norm = some norm →
      (norm = statsMean c.cmn c.cmn.featuresCached ↔
        ∀ d, (ledger history calls).drift d = 0) := by
  obtain ⟨hreturns, hafter⟩ :=
    (show Tracks history (create dim history : RollingCmn K dim) _ from
      tracks_create hpos).calls sqrt calls
  have hne : (history : K) ≠ 0 := Nat.cast_ne_zero.mpr (by omega)
  refine ⟨?_, fun c norm hc hnorm => ?_⟩
  · rw [← hreturns]
    cases hc : after sqrt history calls with
    | none =>
        refine iff_of_false (by rintro ⟨⟩) fun hall => ?_
        rw [show calls.foldlM (call sqrt) (create dim history) = none from hc] at hall
        exact Bool.false_ne_true hall.1
    | some c =>
        have htracks : Tracks history c (ledger history calls) := hafter c hc
        rw [show calls.foldlM (call sqrt) (create dim history) = some c from hc, Option.bind_some,
          applyCmvn]
        by_cases hcols : OnlineCmn.numCols feats = dim
        · rw [if_pos hcols, Option.map_some, Option.some_inj, (htracks.subtractRolling feats).2,
            ledger_seen, subtract_drift_iff hne _ _ hcols]
          exact ⟨fun hdrift => ⟨rfl, hcols, hdrift⟩, fun hall => hall.2.2⟩
        · rw [if_neg hcols]
          exact iff_of_false (by rintro ⟨⟩) fun hall => hcols hall.2.1
  · have htracks : Tracks history c (ledger history calls) := hafter c hc
    have hl : (ledger history calls).normed = true := by
      cases hl : (ledger history calls).normed with
      | true => rfl
      | false =>
          rw [(htracks.fresh hl).1] at hnorm
          cases hnorm
    obtain ⟨-, norm', hnorm', hmean⟩ := htracks.normed hl
    obtain rfl : norm = norm' := Option.some.inj (hnorm.symm.trans hnorm')
    rw [statsMean_eq htracks.recalls, htracks.hist, funext_iff]
    refine forall_congr' fun d => ?_
    rw [hmean d, sub_eq_self, div_eq_zero_iff, or_iff_left hne]

/-- With a history of one row: the mean is computed, and another row goes
through `ApplyCmvn2`. -/
def mixedCalls : List (CmvnCall ℚ 1) := [.applyCmvn [fun _ => 1], .applyCmvn2 [fun _ => 3]]

/-- The next `ApplyCmvn` rolls a mean that knows nothing of that row: 2 is left
of a row that is its own mean. -/
theorem mixedCalls_inexact :
    (after id 1 mixedCalls).bind (fun c => (c.applyCmvn [fun _ => 5]).map Prod.snd) =
        some [fun _ => 2] ∧
      (after id 1 mixedCalls).bind (fun c => (c.applyCmvn [fun _ => 5]).map Prod.snd) ≠
        some (subtractMean
          (exactMean ((mixedCalls.flatMap CmvnCall.feats ++ [fun _ => 5]).rtake 1))
          [fun _ => 5]) := by
  decide +kernel

theorem applyCmvn_exact_iff_one :
    (after id 1 [CmvnCall.applyCmvn [fun _ : Fin 1 => (1 : ℚ)]]).bind
        (fun c => (c.applyCmvn [fun _ => 5]).map Prod.snd) =
      some (subtractMean (exactMean (([CmvnCall.applyCmvn [fun _ : Fin 1 => (1 : ℚ)]].flatMap
        CmvnCall.feats ++ [fun _ => 5]).rtake 1)) [fun _ => 5]) :=
  (applyCmvn_exact_iff id (by decide) _ _).1.mpr ⟨by decide, rfl, fun _ => rfl⟩

end RollingCmn

end ThreadedServer
