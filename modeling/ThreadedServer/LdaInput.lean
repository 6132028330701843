import Mathlib.Data.List.GetD
import Mathlib.Data.Matrix.Mul
import Mathlib.Logic.Equiv.Fin.Basic
import ThreadedServer.OnlineCmn
import ThreadedServer.SlidingWindow

/-!
# Splicing and the linear transform

Every row that leaves the transform is computed from a window of
`left_context + right_context + 1` rows around it.  Online mode does this batch
by batch in `OnlineLdaInput::Compute`, file mode with the whole matrix in
`LdaTransform`; both keep the window as a circle of rows whose first contents
are made up from row 0.

Matrix arithmetic is exact; sums may be taken in any order.  The sizes of a
window and of a batch are sizes of matrices, so that no sum of them leaves the
range of an `int32`.
-/

namespace ThreadedServer

open SlidingWindow

section Lda

variable {K : Type*} {dim transRows left right : Nat}

/-- A window of feature rows; it has `left + right + 1` cells. -/
abbrev FeatWindow (K : Type*) (dim left right : Nat) :=
  Window (left + right) (FeatureRow K dim)

/-- `cur_feat` after the window was filled for the first time:
`window_size_ - window_center_ - 1`. -/
def firstFeat (left right : Nat) : Nat := left + right + 1 - left - 1

/-- `InitFeatWindow`: cells `0` to `window_center_` get row 0, the others the
rows from 0 on.  A row that is not there stops the program. -/
def initFeatWindow (left right : Nat) (featIn : List (FeatureRow K dim)) :
    Option (FeatWindow K dim left right) :=
  match featIn with
  | [] => none
  | row :: _ =>
      if right ≤ featIn.length then
        some
          { cells := fun i => if (i : Nat) ≤ left then row else featIn.getD (i - left - 1) row
            pos := 0 }
      else none

/-- The window can be filled when row 0 and the rows of the right context exist. -/
theorem initFeatWindow_isSome_iff {featIn : List (FeatureRow K dim)} (hne : featIn ≠ []) :
    (initFeatWindow left right featIn).isSome ↔ right ≤ featIn.length := by
  obtain ⟨row, rest, rfl⟩ := List.exists_cons_of_ne_nil hne
  rw [initFeatWindow]
  by_cases hright : right ≤ (row :: rest).length
  · rw [if_pos hright]
    exact iff_of_true rfl hright
  · rw [if_neg hright]
    exact iff_of_false Bool.false_ne_true hright

/-- A row of `spliced_feats_`: row `i` of the window begins at column
`i * feat_dim_`. -/
def splicedRow (window : Fin (left + right + 1) → FeatureRow K dim) :
    Fin ((left + right + 1) * dim) → K :=
  fun c => window c.divNat c.modNat

/-- A spliced row, transformed. -/
def transformRow [AddCommMonoid K] [Mul K] {n : Nat} (transform : Matrix (Fin transRows) (Fin n) K)
    (spliced : Fin n → K) : Fin transRows → K :=
  fun i => dotProduct (transform i) spliced

/-- The identity splices and does no more. -/
theorem transformRow_one [NonAssocSemiring K] {n : Nat} (spliced : Fin n → K) :
    transformRow (1 : Matrix (Fin n) (Fin n) K) spliced = spliced :=
  Matrix.one_mulVec spliced

variable [AddCommMonoid K] [Mul K]

/-- The transform of the spliced rows: the rows of the product of
`spliced_feats_` with the transposed transform. -/
def addMatMat (transform : Matrix (Fin transRows) (Fin ((left + right + 1) * dim)) K)
    (windows : List (Fin (left + right + 1) → FeatureRow K dim)) :
    List (Fin transRows → K) :=
  windows.map fun window => transformRow transform (splicedRow window)

/-- `LdaTransform`. -/
def ldaTransform (cmvn : List (FeatureRow K dim))
    (transform : Matrix (Fin transRows) (Fin ((left + right + 1) * dim)) K) :
    Option (List (Fin transRows → K)) :=
  (initFeatWindow left right cmvn).map fun window =>
    addMatMat transform (window.roll (cmvn.drop (firstFeat left right))).2

/-- The members of `OnlineLdaInput`.  `feat_window_` has no rows at first. -/
structure OnlineLdaInput (K : Type*) (dim transRows left right : Nat) where
  transform : Matrix (Fin transRows) (Fin ((left + right + 1) * dim)) K
  featWindow : Option (FeatWindow K dim left right)

namespace OnlineLdaInput

/-- The constructor. -/
def create (transform : Matrix (Fin transRows) (Fin ((left + right + 1) * dim)) K) :
    OnlineLdaInput K dim transRows left right where
  transform := transform
  featWindow := none

/-- Roll the window over the rows and transform what it shows. -/
def splice (lda : OnlineLdaInput K dim transRows left right)
    (window : FeatWindow K dim left right) (feats : List (FeatureRow K dim)) :
    OnlineLdaInput K dim transRows left right × List (Fin transRows → K) :=
  ({ lda with featWindow := some (window.roll feats).1 },
    addMatMat lda.transform (window.roll feats).2)

/-- `Compute` when `nrows` rows were asked for and the inferior input delivered
`featIn`. -/
def compute (lda : OnlineLdaInput K dim transRows left right) (nrows : Nat)
    (featIn : List (FeatureRow K dim)) :
    Option (OnlineLdaInput K dim transRows left right × List (Fin transRows → K)) :=
  if featIn.length ≠ nrows ∧ (featIn.length = 0 ∨
      featIn.length < left + right + 1 ∧ lda.featWindow.isNone) then
    some (lda, [])
  else
    match lda.featWindow with
    | none =>
        (initFeatWindow left right featIn).map fun window =>
          lda.splice window (featIn.drop (firstFeat left right))
    | some window => some (lda.splice window featIn)

/-- One call of `Compute` after another; the outputs of all of them. -/
def computeAll (lda : OnlineLdaInput K dim transRows left right) :
    List (Nat × List (FeatureRow K dim)) →
      Option (OnlineLdaInput K dim transRows left right × List (List (Fin transRows → K)))
  | [] => some (lda, [])
  | (nrows, featIn) :: batches =>
      (lda.compute nrows featIn).bind fun r =>
        (r.1.computeAll batches).map fun r' => (r'.1, r.2 :: r'.2)

end OnlineLdaInput

/-! ## The reference -/

/-- Row `k`, where row 0 stands for the rows before it. -/
def contextRow (rows : List (FeatureRow K dim)) (k : Int) : FeatureRow K dim :=
  rows.getD k.toNat fun _ => 0

/-- Rows `t - left` to `t + right`. -/
def context (left right : Nat) (rows : List (FeatureRow K dim)) (t : Nat) :
    Fin (left + right + 1) → FeatureRow K dim :=
  fun i => contextRow rows (t - left + i)

/-- Row `t` of the reference is the transform of rows `t - left` to `t + right`. -/
def reference (rows : List (FeatureRow K dim))
    (transform : Matrix (Fin transRows) (Fin ((left + right + 1) * dim)) K) :
    List (Fin transRows → K) :=
  (List.range (rows.length - right)).map fun t =>
    transformRow transform (splicedRow (context left right rows t))

/-- The stream that the window slides over: `left + 1` times row 0, and then the
rows. -/
def padded (left : Nat) (rows : List (FeatureRow K dim)) (k : Nat) : FeatureRow K dim :=
  contextRow rows (k - left - 1)

omit [Mul K] in
theorem padded_of_le {left : Nat} {rows : List (FeatureRow K dim)} {k : Nat}
    (h : k ≤ left) : padded left rows k = contextRow rows 0 := by
  unfold padded contextRow
  congr 1
  omega

omit [Mul K] in
/-- The rows come after the padding. -/
theorem padded_row {left : Nat} {rows : List (FeatureRow K dim)} {k : Nat}
    (hk : k < rows.length) : padded left rows (left + 1 + k) = rows[k] := by
  have hindex : ((left + 1 + k : Nat) - left - 1 : Int).toNat = k := by omega
  rw [padded, contextRow, hindex]
  exact List.getD_eq_getElem _ _ hk

omit [Mul K] in
/-- One place after the padding begins the context of the first row. -/
theorem padded_context (left right : Nat) (rows : List (FeatureRow K dim)) (t : Nat) :
    (fun i : Fin (left + right + 1) => padded left rows (t + 1 + i)) =
      context left right rows t := by
  funext i
  unfold padded context
  congr 1
  push_cast
  omega

omit [Mul K] in
/-- The window is filled with the beginning of the stream. -/
theorem initFeatWindow_shows (left right : Nat) {featIn rows : List (FeatureRow K dim)}
    (hpre : featIn <+: rows)
    (hpos : featIn ≠ [])
    (hright : right ≤ featIn.length) :
    ∃ window, initFeatWindow left right featIn = some window ∧
      window.Shows (padded left rows) 0 := by
  obtain ⟨rest, rfl⟩ := hpre
  cases featIn with
  | nil => exact absurd rfl hpos
  | cons row feats =>
      refine ⟨_, by rw [initFeatWindow, if_pos hright], fun i => ?_⟩
      rw [Window.view, zero_add, Nat.zero_add]
      by_cases hi : (i : Nat) ≤ left
      · rw [padded_of_le hi]
        simp [hi, contextRow]
      · obtain ⟨k, hk⟩ : ∃ k, (i : Nat) = left + 1 + k := ⟨i - left - 1, by omega⟩
        have hlt : k < (row :: feats).length := by
          have := i.isLt
          omega
        have hlt' : k < (row :: feats ++ rest).length := by
          rw [List.length_append]
          omega
        have hrow : padded left (row :: feats ++ rest) (left + 1 + k) = _ := padded_row hlt'
        rw [List.getElem_append_left hlt] at hrow
        have hcell : (i : Nat) - left - 1 = k := by omega
        rw [hk, hrow]
        show (if (i : Nat) ≤ left then row else (row :: feats).getD (i - left - 1) row) = _
        rw [if_neg hi, hcell]
        exact List.getD_eq_getElem _ _ hlt

omit [Mul K] in
/-- **A piece of the rows.**  A window that has taken in the rows before the
piece shows, row by row, the contexts that the piece completes. -/
theorem roll_piece {window : FeatWindow K dim left right} {pre feats post : List (FeatureRow K dim)}
    {c : Nat}
    (h : window.Shows (padded left (pre ++ feats ++ post)) c)
    (hpre : pre.length = c + right) :
    (window.roll feats).1.Shows (padded left (pre ++ feats ++ post)) (c + feats.length) ∧
      (window.roll feats).2 =
        (List.range' c feats.length).map (context left right (pre ++ feats ++ post)) := by
  have hfeats : ∀ k (hk : k < feats.length),
      feats[k] = padded left (pre ++ feats ++ post) (c + (left + right) + 1 + k) := by
    intro k hk
    have hplace : c + (left + right) + 1 + k = left + 1 + (pre.length + k) := by omega
    rw [hplace, padded_row (by simp only [List.length_append]; omega)]
    rw [List.getElem_append_left (by simp only [List.length_append]; omega)]
    rw [List.getElem_append_right (by omega)]
    simp
  obtain ⟨hshows, hviews⟩ := h.roll feats hfeats
  refine ⟨hshows, ?_⟩
  have hrange : List.range' (c + 1) feats.length =
      (List.range' c feats.length).map (1 + ·) := by
    rw [List.map_add_range', Nat.add_comm]
  rw [hviews, hrange, List.map_map]
  refine List.map_congr_left fun t _ => ?_
  rw [← padded_context, Function.comp_apply, Nat.add_comm 1 t]

/-- File mode computes the reference. -/
theorem ldaTransform_eq {rows : List (FeatureRow K dim)}
    (transform : Matrix (Fin transRows) (Fin ((left + right + 1) * dim)) K)
    (hpos : rows ≠ [])
    (hright : right ≤ rows.length) :
    ldaTransform rows transform = some (reference rows transform) := by
  obtain ⟨window, hinit, hshows⟩ := initFeatWindow_shows left right (List.prefix_refl rows)
    hpos hright
  have hfirst : firstFeat left right = right := by
    unfold firstFeat
    omega
  have hrows : rows = rows.take right ++ rows.drop right ++ [] := by simp
  rw [hrows] at hshows
  obtain ⟨-, hviews⟩ := roll_piece (c := 0) hshows (by simpa using hright)
  rw [← hrows] at hviews
  rw [ldaTransform, hinit, Option.map_some, hfirst, addMatMat, hviews, reference, List.map_map,
    List.range_eq_range', List.length_drop]
  rfl

namespace OnlineLdaInput

/-- An empty batch is passed on as it is, or spliced to nothing. -/
theorem compute_nil {lda : OnlineLdaInput K dim transRows left right}
    {window : FeatWindow K dim left right}
    (hwindow : lda.featWindow = some window)
    (nrows : Nat) : lda.compute nrows [] = some (lda, []) := by
  obtain ⟨transform, featWindow⟩ := lda
  obtain rfl : featWindow = some window := hwindow
  unfold compute
  split <;> rfl

/-- **The guard of online mode.**  A first batch with fewer rows than were asked for
never makes `Compute` read a row that is not there, and one that does not fill the
window is answered with an empty output. -/
theorem compute_short_batch
    (transform : Matrix (Fin transRows) (Fin ((left + right + 1) * dim)) K) {nrows : Nat}
    {featIn : List (FeatureRow K dim)} (hshort : featIn.length < nrows) :
    ((create transform).compute nrows featIn).isSome ∧
      (featIn.length < left + right + 1 →
        (create transform).compute nrows featIn = some (create transform, [])) := by
  have hguard : featIn.length < left + right + 1 →
      (create transform).compute nrows featIn = some (create transform, []) := by
    intro hfew
    rw [compute, if_pos ⟨by omega, Or.inr ⟨hfew, rfl⟩⟩]
  refine ⟨?_, hguard⟩
  by_cases hfew : featIn.length < left + right + 1
  · rw [hguard hfew]
    rfl
  · have hne : featIn ≠ [] := List.length_pos_iff.mp (by omega)
    rw [compute, if_neg (by omega)]
    show (Option.map _ (initFeatWindow left right featIn)).isSome
    rw [Option.isSome_map, initFeatWindow_isSome_iff hne]
    omega

/-- The later batches: whatever their sizes, their outputs continue the
reference. -/
theorem computeAll_later {lda : OnlineLdaInput K dim transRows left right}
    {window : FeatWindow K dim left right} {rows pre : List (FeatureRow K dim)} {c : Nat}
    (hwindow : lda.featWindow = some window)
    (hshows : window.Shows (padded left rows) c)
    (hpre : pre.length = c + right)
    (batches : List (Nat × List (FeatureRow K dim)))
    (hrows : rows = pre ++ (batches.map Prod.snd).flatten) :
    ∃ r, lda.computeAll batches = some r ∧
      r.2.flatten = (List.range' c (batches.map Prod.snd).flatten.length).map fun t =>
        transformRow lda.transform (splicedRow (context left right rows t)) := by
  induction batches generalizing lda window pre c with
  | nil => exact ⟨_, rfl, rfl⟩
  | cons batch batches ih =>
      obtain ⟨nrows, featIn⟩ := batch
      simp only [List.map_cons, List.flatten_cons, ← List.append_assoc] at hrows ⊢
      by_cases hempty : featIn = []
      · subst hempty
        obtain ⟨r, hrest, hout⟩ := ih hwindow hshows hpre (by simpa using hrows)
        refine ⟨(r.1, [] :: r.2), ?_, by simpa using hout⟩
        rw [computeAll, compute_nil hwindow, Option.bind_some, hrest, Option.map_some]
      · have hcompute : lda.compute nrows featIn = some (lda.splice window featIn) := by
          have hlen : featIn.length ≠ 0 := by simpa using hempty
          rw [compute, if_neg (by simp [hlen, hwindow]), hwindow]
        rw [hrows] at hshows
        obtain ⟨hshows', hviews⟩ := roll_piece hshows hpre
        rw [← hrows] at hshows' hviews
        have hwindow' : (lda.splice window featIn).1.featWindow = some (window.roll featIn).1 := rfl
        have hpre' : (pre ++ featIn).length = c + featIn.length + right := by
          rw [List.length_append, hpre]
          omega
        obtain ⟨r, hrest, hout⟩ := ih hwindow' hshows' hpre' hrows
        refine ⟨(r.1, (lda.splice window featIn).2 :: r.2), ?_, ?_⟩
        · rw [computeAll, hcompute, Option.bind_some, hrest, Option.map_some]
        · rw [List.flatten_cons, hout, List.length_append, ← List.range'_append_1, List.map_append]
          congr 1
          rw [splice, addMatMat, hviews, List.map_map]
          rfl

/-- The first batch fills the window. -/
theorem computeAll_first
    (transform : Matrix (Fin transRows) (Fin ((left + right + 1) * dim)) K)
    (nrows : Nat) {first : List (FeatureRow K dim)}
    (hfirst : left + right + 1 ≤ first.length)
    (batches : List (Nat × List (FeatureRow K dim))) :
    ∃ r, (create transform).computeAll ((nrows, first) :: batches) = some r ∧
      r.2.flatten = reference (first ++ (batches.map Prod.snd).flatten) transform := by
  have hpos : first ≠ [] := List.length_pos_iff.mp (by omega)
  have hright : right ≤ first.length := by omega
  obtain ⟨window, hinit, hshows⟩ := initFeatWindow_shows left right
    (List.prefix_append first (batches.map Prod.snd).flatten) hpos hright
  have hskip : firstFeat left right = right := by
    unfold firstFeat
    omega
  have hcompute : (create transform).compute nrows first =
      some ((create transform).splice window (first.drop right)) := by
    have hlen : first.length ≠ 0 := by omega
    rw [compute, if_neg (by simp [hlen]; omega)]
    simp only [create, hinit, hskip, Option.map_some]
  have hrows : first ++ (batches.map Prod.snd).flatten =
      first.take right ++ first.drop right ++ (batches.map Prod.snd).flatten := by
    rw [List.take_append_drop]
  rw [hrows] at hshows
  obtain ⟨hshows', hviews⟩ := roll_piece (c := 0) hshows (by simpa using hright)
  rw [← hrows] at hshows' hviews
  rw [Nat.zero_add, List.length_drop] at hshows'
  have hwindow' : ((create transform).splice window (first.drop right)).1.featWindow =
      some (window.roll (first.drop right)).1 := rfl
  have hpre : first.length = first.length - right + right := by omega
  obtain ⟨r, hrest, hout⟩ := computeAll_later hwindow' hshows' hpre batches rfl
  refine ⟨(r.1, ((create transform).splice window (first.drop right)).2 :: r.2), ?_, ?_⟩
  · rw [computeAll, hcompute, Option.bind_some, hrest, Option.map_some]
  · have hlen : (first ++ (batches.map Prod.snd).flatten).length - right =
        (first.length - right) + (batches.map Prod.snd).flatten.length := by
      rw [List.length_append]
      omega
    rw [List.flatten_cons, hout, reference, hlen, List.range_eq_range', ← List.range'_append_1,
      List.map_append, Nat.zero_add]
    congr 1
    rw [splice, addMatMat, hviews, List.map_map, List.length_drop]
    rfl

end OnlineLdaInput

/-- **File mode and online mode compute the same.**  However the rows are cut
into batches, if only the first one fills the window, the outputs of `Compute`
put together are the output of `LdaTransform` on the whole matrix, and both are
the reference. -/
theorem ldaTransform_eq_computeAll
    (transform : Matrix (Fin transRows) (Fin ((left + right + 1) * dim)) K)
    (nrows : Nat) (first : List (FeatureRow K dim))
    (batches : List (Nat × List (FeatureRow K dim)))
    (hfirst : left + right + 1 ≤ first.length) :
    ldaTransform (first ++ (batches.map Prod.snd).flatten) transform =
        some (reference (first ++ (batches.map Prod.snd).flatten) transform) ∧
      ∃ r, (OnlineLdaInput.create transform).computeAll ((nrows, first) :: batches) = some r ∧
        r.2.flatten = reference (first ++ (batches.map Prod.snd).flatten) transform := by
  refine ⟨ldaTransform_eq transform ?_ ?_, OnlineLdaInput.computeAll_first transform nrows
    hfirst batches⟩
  · exact List.append_ne_nil_of_left_ne_nil (List.length_pos_iff.mp (by omega)) _
  · rw [List.length_append]
    omega

/-- Three rows; with one row of context on either side they fill the window. -/
def firstRows : List (FeatureRow Int 1) := [fun _ => 1, fun _ => 2, fun _ => 3]

/-- A batch that was asked for and did not come, and two more rows. -/
def laterRows : List (Nat × List (FeatureRow Int 1)) :=
  [(4, []), (2, [fun _ => 4, fun _ => 5])]

/-- A transform that writes the rows of a window side by side. -/
def digits : Matrix (Fin 1) (Fin ((1 + 1 + 1) * 1)) Int := fun _ c => 10 ^ (2 - c.val)

theorem ldaTransform_eq_computeAll_five :
    (reference (firstRows ++ (laterRows.map Prod.snd).flatten) digits).map (fun out => out 0) =
        [112, 123, 234, 345] ∧
      ∃ r, (OnlineLdaInput.create digits).computeAll ((3, firstRows) :: laterRows) = some r ∧
        r.2.flatten = reference (firstRows ++ (laterRows.map Prod.snd).flatten) digits :=
  ⟨by decide, (ldaTransform_eq_computeAll digits 3 firstRows laterRows (by decide)).2⟩

end Lda

end ThreadedServer
