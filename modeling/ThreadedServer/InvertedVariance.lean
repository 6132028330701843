import ThreadedServer.BatchNormalisation
import ThreadedServer.Transition

/-!
# Where the normalisation divides

`Compute` divides twice: it takes the reciprocal of `features_cached_`, and it inverts
every element of `var`.  A batch that is not empty is in the history when the first
of these is taken.  The second one rests on nothing: the variance of a column is
positive when two of its values differ, and otherwise it is zero, in exact arithmetic.
A history of one row, a first batch of one row and rows that repeat have such
columns, and no entry of them is a number.
-/

namespace ThreadedServer

open Numerics

namespace OnlineCmn

/-! ## The variance of a constant column -/

section Ordered

variable {K : Type*} [Field K] [LinearOrder K] [IsStrictOrderedRing K]

/-- Where all values are the same, this value is the mean. -/
theorem mean_const {column : List K} {x : K} (hx : x ∈ column)
    (hconst : ∀ y ∈ column, y = x) : mean column = x := by
  have hlen : (column.length : K) ≠ 0 := by
    simpa using List.ne_nil_of_mem hx
  have hsum : column.sum = column.length * x := by
    rw [List.sum_eq_card_nsmul column x hconst, nsmul_eq_mul]
  rw [mean, hsum]
  field_simp

/-- Where all values are the same, the variance is zero. -/
theorem variance_const {column : List K}
    (hconst : ∀ x ∈ column, ∀ y ∈ column, x = y) : variance column = 0 := by
  cases column with
  | nil => simp [variance, mean]
  | cons x column =>
      have hne : x :: column ≠ [] := List.cons_ne_nil _ _
      have hx : x ∈ x :: column := List.mem_cons_self
      have hmean : mean (x :: column) = x := mean_const hx fun y hy => hconst y hy x hx
      have hprod : (x :: column).length * variance (x :: column) = 0 := by
        rw [length_mul_variance hne, hmean]
        apply List.sum_eq_zero
        intro z hz
        obtain ⟨y, hy, rfl⟩ := List.mem_map.mp hz
        rw [hconst y hy x hx, sub_self, mul_zero]
      have hlen : ((x :: column).length : K) ≠ 0 := by
        exact_mod_cast Nat.succ_ne_zero column.length
      exact (mul_eq_zero.mp hprod).resolve_left hlen

/-- **The sign of the variance.**  It is positive exactly when two values differ. -/
theorem variance_pos_iff (column : List K) :
    0 < variance column ↔ ∃ x ∈ column, ∃ y ∈ column, x ≠ y := by
  constructor
  · intro hpos
    by_contra hsame
    push Not at hsame
    rw [variance_const hsame] at hpos
    exact lt_irrefl _ hpos
  · rintro ⟨x, hx, y, hy, hne⟩
    by_cases hmean : x = mean column
    · apply variance_pos hy
      rw [← hmean]
      exact hne.symm
    · exact variance_pos hx hmean

/-- A variance that is not positive is zero. -/
theorem variance_eq_zero_of_not_pos {column : List K} (h : ¬ 0 < variance column) :
    variance column = 0 := by
  apply variance_const
  rw [variance_pos_iff] at h
  push Not at h
  exact h

end Ordered

/-! ## One call -/

section Calls

variable {dim : Nat}

/-- A call divides by numbers that are not zero: by `features_cached_`, and by every
element of `var`, which are positive; and every entry of its output is a number. -/
structure Divides (c : OnlineCmn ℝ dim) (feats : List (FeatureRow ℝ dim)) : Prop where
  cached : 0 < (c.cache feats).featuresCached
  inverted : ∀ d, 0 < variance
    (((c.cache feats).stats.take (c.cache feats).featuresCached).map fun row => row d)
  entries : ∃ output, c.applyCmvn2 (exact Real.sqrt) feats = some (c.cache feats, output) ∧
    ∀ out ∈ output, ∀ d, ∃ x, out d = Entry.number x

/-- Every call of a sequence does. -/
def DividesAll (c : OnlineCmn ℝ dim) : List (List (FeatureRow ℝ dim)) → Prop
  | [] => True
  | feats :: batches => c.Divides feats ∧ (c.cache feats).DividesAll batches

/-- No column of the rows is constant. -/
def Varies (rows : List (FeatureRow ℝ dim)) : Prop :=
  ∀ d, ∃ row ∈ rows, ∃ row' ∈ rows, row d ≠ row' d

/-- The variances of a window are positive when no column of it is constant. -/
theorem varies_iff (rows : List (FeatureRow ℝ dim)) :
    Varies rows ↔ ∀ d, 0 < variance (rows.map fun row => row d) := by
  simp only [Varies, variance_pos_iff, List.mem_map, exists_exists_and_eq_and]

/-- An entry is a number exactly when the variance of its column is positive. -/
theorem normaliseRow_number_iff (rows : List (FeatureRow ℝ dim)) (row : FeatureRow ℝ dim)
    (d : Fin dim) :
    (∃ x, normaliseRow Real.sqrt rows row d = Entry.number x) ↔
      0 < variance (rows.map fun r => r d) := by
  rw [normaliseRow, invertedRoot]
  by_cases hpos : 0 < variance (rows.map fun r => r d)
  · rw [if_neg (ne_of_gt hpos)]
    exact iff_of_true ⟨_, Entry.number_mul _ _⟩ hpos
  · rw [if_pos (variance_eq_zero_of_not_pos hpos), Entry.mul_undefined]
    refine iff_of_false ?_ hpos
    rintro ⟨x, hx⟩
    exact Entry.number_ne_undefined x hx.symm

/-- **The reciprocal of the count.**  After a batch that is not empty the history is
not empty. -/
theorem Recalls.cached_pos {c : OnlineCmn ℝ dim} {seen : List (FeatureRow ℝ dim)}
    (h : Recalls c seen) {feats : List (FeatureRow ℝ dim)} (hne : feats ≠ []) :
    0 < (c.cache feats).featuresCached := by
  have hpos : 0 < c.hist := Nat.lt_of_le_of_lt (Nat.zero_le _) h.oldest_lt
  have hlen := List.length_pos_iff.mpr hne
  rw [(h.cache feats).featuresCached, cache_hist, List.length_append]
  omega

/-- **One call.**  It divides by zero nowhere exactly when no column of the last rows
is constant. -/
theorem Recalls.divides_iff {c : OnlineCmn ℝ dim} {seen : List (FeatureRow ℝ dim)}
    (h : Recalls c seen) {feats : List (FeatureRow ℝ dim)} (hne : feats ≠ []) :
    c.Divides feats ↔ Varies ((seen ++ feats).rtake c.hist) := by
  have hperm : ((c.cache feats).stats.take (c.cache feats).featuresCached).Perm
      ((seen ++ feats).rtake c.hist) := by
    have hcache := h.cache feats
    rw [Recalls, cache_hist] at hcache
    exact hcache.perm
  have hvariance : ∀ d, variance
      (((c.cache feats).stats.take (c.cache feats).featuresCached).map fun row => row d) =
        variance (((seen ++ feats).rtake c.hist).map fun row => row d) := by
    intro d
    exact variance_perm (hperm.map _)
  rw [varies_iff]
  constructor
  · intro hdivides d
    rw [← hvariance d]
    exact hdivides.inverted d
  · intro hpos
    refine ⟨h.cached_pos hne, ?_, ?_⟩
    · intro d
      rw [hvariance d]
      exact hpos d
    · refine ⟨_, h.applyCmvn2 Real.sqrt hne, ?_⟩
      intro out hout d
      obtain ⟨row, -, rfl⟩ := List.mem_map.mp hout
      exact (normaliseRow_number_iff _ row d).mpr (hpos d)

/-- One row differs from nothing: a history of one row, and a first batch of one row,
always make the call divide by zero. -/
theorem Recalls.not_divides_of_one_row {c : OnlineCmn ℝ dim}
    {seen : List (FeatureRow ℝ dim)} (h : Recalls c seen) (hdim : 0 < dim)
    {feats : List (FeatureRow ℝ dim)} (hne : feats ≠ [])
    (hone : c.hist = 1 ∨ (seen ++ feats).length = 1) : ¬ c.Divides feats := by
  intro hdivides
  have hlen : ((seen ++ feats).rtake c.hist).length ≤ 1 := by
    rw [RingBuffer.length_rtake]
    omega
  obtain ⟨row, hrow, row', hrow', hdiffer⟩ := (h.divides_iff hne).mp hdivides ⟨0, hdim⟩
  obtain ⟨i, hi, rfl⟩ := List.getElem_of_mem hrow
  obtain ⟨j, hj, rfl⟩ := List.getElem_of_mem hrow'
  obtain rfl : i = j := by omega
  exact hdiffer rfl

/-! ## Sequences of calls -/

/-- **Every call.**  The calls of a sequence divide by zero nowhere exactly when none
of them leaves a constant column in the history. -/
theorem Recalls.dividesAll_iff {c : OnlineCmn ℝ dim} {seen : List (FeatureRow ℝ dim)}
    (h : Recalls c seen) (batches : List (List (FeatureRow ℝ dim)))
    (hne : ∀ feats ∈ batches, feats ≠ []) :
    c.DividesAll batches ↔
      ∀ before feats after, batches = before ++ feats :: after →
        Varies ((seen ++ before.flatten ++ feats).rtake c.hist) := by
  induction batches generalizing c seen with
  | nil =>
      refine iff_of_true trivial ?_
      intro before feats after hsplit
      exact absurd hsplit.symm (by simp)
  | cons first batches ih =>
      have hfirst : first ≠ [] := hne first List.mem_cons_self
      have hrest : ∀ feats ∈ batches, feats ≠ [] := by
        intro feats hfeats
        exact hne feats (List.mem_cons_of_mem _ hfeats)
      have hnext : Recalls (c.cache first) (seen ++ first) := h.cache first
      rw [DividesAll, h.divides_iff hfirst, ih hnext hrest, cache_hist]
      refine Iff.trans ?_ Transition.forall_split_cons.symm
      simp only [List.flatten_nil, List.flatten_cons, List.append_nil, List.append_assoc]

/-- **Division in the normalisation.**  For every history and every sequence of
batches that are not empty: in each call `features_cached_` and the elements of `var`
are positive and the output consists of numbers, exactly when at each call the last
rows that were received differ in every column. -/
theorem dividesAll_create_iff {history : Nat} (hpos : 0 < history)
    (batches : List (List (FeatureRow ℝ dim))) (hne : ∀ feats ∈ batches, feats ≠ []) :
    (create dim history).DividesAll batches ↔
      ∀ before feats after, batches = before ++ feats :: after →
        Varies ((before.flatten ++ feats).rtake history) := by
  have hstart : Recalls (create dim history : OnlineCmn ℝ dim) [] := recalls_create hpos
  exact hstart.dividesAll_iff batches hne

/-- Two calls whose windows vary. -/
theorem dividesAll_create_iff_two :
    (create 1 2 : OnlineCmn ℝ 1).DividesAll [[fun _ => 1, fun _ => 2], [fun _ => 3]] := by
  apply (dividesAll_create_iff (by decide) _ (by simp)).mpr
  refine Transition.forall_split_cons.mpr ⟨?_, Transition.forall_split_cons.mpr ⟨?_, ?_⟩⟩
  · intro d
    exact ⟨fun _ => 1, List.mem_cons_self, fun _ => 2,
      List.mem_cons_of_mem _ List.mem_cons_self, by norm_num⟩
  · intro d
    exact ⟨fun _ => 2, List.mem_cons_self, fun _ => 3,
      List.mem_cons_of_mem _ List.mem_cons_self, by norm_num⟩
  · simp

/-- The first frame of a worker, by itself: the variance of each column is zero when
it is inverted, and no entry is a number. -/
theorem first_frame_divides_by_zero :
    ¬ (create 13 600 : OnlineCmn ℝ 13).DividesAll [[fun _ => 1]] ∧
      ((create 13 600 : OnlineCmn ℝ 13).applyCmvn2 (exact Real.sqrt) [fun _ => 1]).map Prod.snd =
        some [fun _ => Entry.undefined] := by
  have hstart : Recalls (create 13 600 : OnlineCmn ℝ 13) [] := recalls_create (by decide)
  refine ⟨?_, ?_⟩
  · rintro ⟨hfirst, -⟩
    exact hstart.not_divides_of_one_row (by decide) (List.cons_ne_nil _ _) (Or.inr rfl) hfirst
  · have hvariance : variance [(1 : ℝ)] = 0 := by
      apply variance_const
      simp
    have hrow : normaliseRow Real.sqrt [(fun _ => 1 : FeatureRow ℝ 13)] (fun _ => 1) =
        fun _ => Entry.undefined := by
      funext d
      rw [normaliseRow, List.map_cons, List.map_nil, hvariance, invertedRoot, if_pos rfl,
        Entry.mul_undefined]
    rw [hstart.applyCmvn2 Real.sqrt (List.cons_ne_nil _ _), List.nil_append, List.map_cons,
      List.map_nil, Option.map_some]
    show some [normaliseRow Real.sqrt [fun _ => 1] fun _ => 1] = _
    rw [hrow]

end Calls

end OnlineCmn

end ThreadedServer
