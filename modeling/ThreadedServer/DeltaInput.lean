import ThreadedServer.LdaInput

/-!
# Deltas

`OnlineDeltaInput` keeps the same window of feature rows as `OnlineLdaInput`, with as many
rows on either side of the centre, but keeps it in order: for each new row it moves all
others up by one place.  What it makes of a window is left to `DeltaFeatures::Process`.

The window in order is what the window in a circle shows, so that batch by batch, whatever
the batches are, `Compute` hands the same windows to `Process` that `OnlineLdaInput` splices.
A first batch that is shorter than it was asked for and does not fill the window is
dropped; from the first one on that is not, each row but the last ones is processed once, in
its context.
-/

namespace ThreadedServer

open SlidingWindow

section Delta

variable {K Out : Type*} {dim c : Nat}

/-- A window of feature rows, in order; `c` is `window_center_`. -/
abbrev DeltaWindow (K : Type*) (dim c : Nat) := Fin (c + c + 1) → FeatureRow K dim

/-- The loop that moves the rows up, after `k` of its rounds. -/
def moveUp (window : DeltaWindow K dim c) : Nat → DeltaWindow K dim c
  | 0 => window
  | k + 1 => fun i =>
      if h : (i : Nat) = k ∧ k + 1 < c + c + 1 then moveUp window k ⟨k + 1, h.2⟩
      else moveUp window k i

/-- A new row: the others move up, and it takes the last place. -/
def append (window : DeltaWindow K dim c) (row : FeatureRow K dim) : DeltaWindow K dim c :=
  Function.update (moveUp window (c + c)) (Fin.last (c + c)) row

/-- `InitFeatWindow`.  A row that is not there stops the program. -/
def initDeltaWindow (c : Nat) (featIn : List (FeatureRow K dim)) : Option (DeltaWindow K dim c) :=
  match featIn with
  | [] => none
  | row :: _ =>
      if c ≤ featIn.length then
        some fun i => if (i : Nat) ≤ c then row else featIn.getD (i - c - 1) row
      else none

/-- The member of `OnlineDeltaInput` that lasts; it has no rows at first. -/
structure OnlineDeltaInput (K : Type*) (dim c : Nat) where
  featWindow : Option (DeltaWindow K dim c)

namespace OnlineDeltaInput

/-- The constructor. -/
def create : OnlineDeltaInput K dim c where
  featWindow := none

/-- The loop over the rows: the window, and an output for each row. -/
def deltas (process : DeltaWindow K dim c → Out) (window : DeltaWindow K dim c) :
    List (FeatureRow K dim) → DeltaWindow K dim c × List Out
  | [] => (window, [])
  | row :: feats =>
      ((deltas process (append window row) feats).1,
        process (append window row) :: (deltas process (append window row) feats).2)

/-- `Compute` when `nrows` rows were asked for and the inferior input delivered `featIn`. -/
def compute (process : DeltaWindow K dim c → Out) (delta : OnlineDeltaInput K dim c)
    (nrows : Nat) (featIn : List (FeatureRow K dim)) :
    Option (OnlineDeltaInput K dim c × List Out) :=
  if featIn.length ≠ nrows ∧ (featIn.length = 0 ∨
      featIn.length < c + c + 1 ∧ delta.featWindow.isNone) then
    some (delta, [])
  else
    match delta.featWindow with
    | none =>
        (initDeltaWindow c featIn).map fun window =>
          let (window, output) := deltas process window (featIn.drop (firstFeat c c))
          ({ featWindow := some window }, output)
    | some window =>
        let (window, output) := deltas process window featIn
        some ({ featWindow := some window }, output)

/-- One call of `Compute` after another; the outputs of all of them. -/
def computeAll (process : DeltaWindow K dim c → Out) (delta : OnlineDeltaInput K dim c) :
    List (Nat × List (FeatureRow K dim)) → Option (OnlineDeltaInput K dim c × List (List Out))
  | [] => some (delta, [])
  | (nrows, featIn) :: batches =>
      (delta.compute process nrows featIn).bind fun r =>
        (r.1.computeAll process batches).map fun r' => (r'.1, r.2 :: r'.2)

end OnlineDeltaInput

/-! ## The window in order -/

section Window

variable {window : DeltaWindow K dim c}

/-- The rows that the loop has passed are those behind them. -/
theorem moveUp_apply {k : Nat} (hk : k ≤ c + c) (i : Fin (c + c + 1)) :
    moveUp window k i = if h : (i : Nat) < k then window ⟨i + 1, by omega⟩ else window i := by
  induction k generalizing i with
  | zero => simp [moveUp]
  | succ k ih =>
      have hk' : k ≤ c + c := by omega
      have hround : moveUp window (k + 1) i =
          if h : (i : Nat) = k ∧ k + 1 < c + c + 1 then moveUp window k ⟨k + 1, h.2⟩
          else moveUp window k i := rfl
      rw [hround]
      by_cases hi : (i : Nat) = k
      · have hnot : ¬ k + 1 < k := by omega
        have hlt : (i : Nat) < k + 1 := by omega
        rw [dif_pos ⟨hi, by omega⟩, ih hk', dif_neg hnot, dif_pos hlt]
        congr 1
        refine Fin.ext ?_
        show k + 1 = (i : Nat) + 1
        omega
      · have hnot : ¬ ((i : Nat) = k ∧ k + 1 < c + c + 1) := fun h => hi h.1
        rw [dif_neg hnot, ih hk']
        by_cases hlt : (i : Nat) < k
        · have hlt' : (i : Nat) < k + 1 := by omega
          rw [dif_pos hlt, dif_pos hlt']
        · have hnot' : ¬ (i : Nat) < k + 1 := by omega
          rw [dif_neg hlt, dif_neg hnot']

theorem append_eq (window : DeltaWindow K dim c) (row : FeatureRow K dim) :
    append window row = Window.shiftUp window row := by
  funext i
  by_cases hi : (i : Nat) < c + c
  · have hne : i ≠ Fin.last (c + c) := by
      rintro rfl
      simp at hi
    rw [append, Function.update_of_ne hne, moveUp_apply le_rfl, dif_pos hi, Window.shiftUp,
      dif_pos hi]
  · obtain rfl : i = Fin.last (c + c) := by
      refine Fin.ext ?_
      have := i.isLt
      simp only [Fin.val_last]
      omega
    rw [append, Function.update_self, Window.shiftUp, dif_neg hi]

theorem initDeltaWindow_eq (c : Nat) (featIn : List (FeatureRow K dim)) :
    initDeltaWindow c featIn = (initFeatWindow c c featIn).map Window.view := by
  cases featIn with
  | nil => rfl
  | cons row rest =>
      rw [initDeltaWindow, initFeatWindow]
      split
      · rw [Option.map_some]
        congr 1
        funext i
        rw [Window.view, zero_add]
      · rfl

/-- The loop looks at the windows that the circle shows. -/
theorem deltas_view (process : DeltaWindow K dim c → Out) (w : FeatWindow K dim c c)
    (feats : List (FeatureRow K dim)) :
    OnlineDeltaInput.deltas process w.view feats =
      ((w.roll feats).1.view, (w.roll feats).2.map process) := by
  induction feats generalizing w with
  | nil => rfl
  | cons row feats ih =>
      rw [OnlineDeltaInput.deltas, append_eq, ← Window.view_push, ih]
      rfl

end Window

/-! ## The same windows as in a circle -/

section Circle

variable [NonAssocSemiring K]

/-- The rows of a window that have been spliced. -/
def unsplice (spliced : Fin ((c + c + 1) * dim) → K) : DeltaWindow K dim c :=
  fun i d => spliced (finProdFinEquiv (i, d))

omit [NonAssocSemiring K] in
theorem unsplice_splicedRow (window : DeltaWindow K dim c) :
    unsplice (splicedRow window) = window := by
  funext i d
  show window (finProdFinEquiv (i, d)).divNat (finProdFinEquiv (i, d)).modNat = window i d
  have hpair : ((finProdFinEquiv (i, d)).divNat, (finProdFinEquiv (i, d)).modNat) = (i, d) :=
    finProdFinEquiv.symm_apply_apply (i, d)
  rw [(Prod.mk.inj hpair).1, (Prod.mk.inj hpair).2]

/-- An input that splices and does not transform, next to one with deltas. -/
abbrev Splicing (K : Type*) [NonAssocSemiring K] (dim c : Nat) :=
  OnlineLdaInput K dim ((c + c + 1) * dim) c c

/-- The window of the one, as the other keeps it. -/
def inOrder (lda : Splicing K dim c) : OnlineDeltaInput K dim c where
  featWindow := lda.featWindow.map Window.view

/-- `Process`, of a window that has been spliced. -/
def processSpliced (process : DeltaWindow K dim c → Out) (spliced : Fin ((c + c + 1) * dim) → K) :
    Out :=
  process (unsplice spliced)

theorem deltas_splice (process : DeltaWindow K dim c → Out) {lda : Splicing K dim c}
    (hone : lda.transform = 1) (w : FeatWindow K dim c c) (feats : List (FeatureRow K dim)) :
    (({ featWindow := some (OnlineDeltaInput.deltas process w.view feats).1 },
        (OnlineDeltaInput.deltas process w.view feats).2) : OnlineDeltaInput K dim c × List Out) =
      (inOrder (lda.splice w feats).1, (lda.splice w feats).2.map (processSpliced process)) := by
  have hwindows : (lda.splice w feats).2.map (processSpliced process) =
      (w.roll feats).2.map process := by
    rw [OnlineLdaInput.splice, addMatMat, List.map_map]
    refine List.map_congr_left fun window _ => ?_
    rw [Function.comp_apply, hone, transformRow_one, processSpliced, unsplice_splicedRow]
  rw [hwindows, deltas_view]
  rfl

/-- One call. -/
theorem compute_inOrder (process : DeltaWindow K dim c → Out) {lda : Splicing K dim c}
    (hone : lda.transform = 1) (nrows : Nat) (featIn : List (FeatureRow K dim)) :
    (inOrder lda).compute process nrows featIn =
      (lda.compute nrows featIn).map fun r =>
        (inOrder r.1, r.2.map (processSpliced process)) := by
  obtain ⟨transform, featWindow⟩ := lda
  obtain rfl : transform = 1 := hone
  have hempty : (inOrder ⟨1, featWindow⟩).featWindow.isNone = featWindow.isNone :=
    Option.isNone_map
  rw [OnlineDeltaInput.compute, OnlineLdaInput.compute, hempty]
  by_cases hguard : featIn.length ≠ nrows ∧
      (featIn.length = 0 ∨ featIn.length < c + c + 1 ∧ featWindow.isNone)
  · rw [if_pos hguard, if_pos hguard]
    rfl
  · rw [if_neg hguard, if_neg hguard]
    cases featWindow with
    | none =>
        simp only [inOrder, Option.map_none, initDeltaWindow_eq, Option.map_map]
        refine congrFun (congrArg Option.map (funext fun w => ?_)) _
        exact deltas_splice process rfl w _
    | some w => exact congrArg some (deltas_splice process rfl w featIn)

/-- A call leaves the transform alone. -/
theorem compute_transform {lda : Splicing K dim c} {nrows : Nat}
    {featIn : List (FeatureRow K dim)} {r : Splicing K dim c × _}
    (h : lda.compute nrows featIn = some r) : r.1.transform = lda.transform := by
  unfold OnlineLdaInput.compute at h
  split at h
  · obtain rfl := Option.some.inj h
    rfl
  · split at h
    · obtain ⟨w, -, rfl⟩ := Option.map_eq_some_iff.mp h
      rfl
    · obtain rfl := Option.some.inj h
      rfl

/-- The calls that follow. -/
theorem computeAll_inOrder (process : DeltaWindow K dim c → Out) {lda : Splicing K dim c}
    (hone : lda.transform = 1) (batches : List (Nat × List (FeatureRow K dim))) :
    (inOrder lda).computeAll process batches =
      (lda.computeAll batches).map fun r =>
        (inOrder r.1, r.2.map (List.map (processSpliced process))) := by
  induction batches generalizing lda with
  | nil => rfl
  | cons batch batches ih =>
      obtain ⟨nrows, featIn⟩ := batch
      rw [OnlineDeltaInput.computeAll, OnlineLdaInput.computeAll, compute_inOrder process hone]
      cases hcompute : lda.compute nrows featIn with
      | none => rfl
      | some r =>
          have hone' : r.1.transform = 1 := (compute_transform hcompute).trans hone
          simp only [Option.map_some, Option.bind_some, ih hone', Option.map_map]
          rfl

/-- **The two windows agree.**  Whatever batches the inferior input delivers, short or empty
ones included, `OnlineDeltaInput` processes the very windows that `OnlineLdaInput` splices,
and stops the program where that one does. -/
theorem deltas_eq_splicing (process : DeltaWindow K dim c → Out)
    (batches : List (Nat × List (FeatureRow K dim))) :
    ((OnlineDeltaInput.create : OnlineDeltaInput K dim c).computeAll process batches).map
        Prod.snd =
      ((OnlineLdaInput.create 1 : Splicing K dim c).computeAll batches).map fun r =>
        r.2.map (List.map (processSpliced process)) := by
  have hcreate : inOrder (OnlineLdaInput.create 1 : Splicing K dim c) =
      OnlineDeltaInput.create := rfl
  have hone : (OnlineLdaInput.create 1 : Splicing K dim c).transform = 1 := rfl
  rw [← hcreate, computeAll_inOrder process hone, Option.map_map]
  rfl

/-! ## Any batches -/

section Batches

variable {transRows left right : Nat}

/-- A batch that an input with an empty window of this size drops. -/
def dropped (windowSize : Nat) (batch : Nat × List (FeatureRow K dim)) : Bool :=
  decide (batch.2.length ≠ batch.1 ∧ batch.2.length < windowSize)

/-- The batches that are left when the first ones are dropped. -/
def kept (windowSize : Nat) (batches : List (Nat × List (FeatureRow K dim))) :
    List (Nat × List (FeatureRow K dim)) :=
  batches.dropWhile (dropped windowSize)

/-- The first batch that is kept has a first row and its right context.  It is shorter only
where fewer rows have been asked for. -/
def Begins (right : Nat) (batches : List (Nat × List (FeatureRow K dim))) : Prop :=
  ∀ batch ∈ batches.head?, batch.2 ≠ [] ∧ right ≤ batch.2.length

section Splice

variable [AddCommMonoid K] [Mul K]
  (transform : Matrix (Fin transRows) (Fin ((left + right + 1) * dim)) K)

omit [NonAssocSemiring K] in
/-- The guard, when the window is empty. -/
theorem compute_create {nrows : Nat} {featIn : List (FeatureRow K dim)} :
    (OnlineLdaInput.create transform).compute nrows featIn =
      if dropped (left + right + 1) (nrows, featIn) then some (OnlineLdaInput.create transform, [])
      else (initFeatWindow left right featIn).map fun window =>
        (OnlineLdaInput.create transform).splice window (featIn.drop (firstFeat left right)) := by
  have hguard : (featIn.length ≠ nrows ∧ (featIn.length = 0 ∨ featIn.length < left + right + 1 ∧
      (OnlineLdaInput.create transform).featWindow.isNone = true)) ↔
        dropped (left + right + 1) (nrows, featIn) = true := by
    have hnone : (OnlineLdaInput.create transform).featWindow.isNone = true := rfl
    simp only [dropped, decide_eq_true_iff, hnone, and_true]
    omega
  rw [OnlineLdaInput.compute]
  by_cases hdrop : dropped (left + right + 1) (nrows, featIn) = true
  · rw [if_pos (hguard.mpr hdrop), if_pos hdrop]
  · rw [if_neg (fun h => hdrop (hguard.mp h)), if_neg hdrop]
    rfl

omit [NonAssocSemiring K] in
/-- The first batch that is kept fills the window, be it with its last rows missing. -/
theorem computeAll_begins {batches : List (Nat × List (FeatureRow K dim))} {nrows : Nat}
    {first : List (FeatureRow K dim)}
    (hkept : dropped (left + right + 1) (nrows, first) = false) (hne : first ≠ [])
    (hright : right ≤ first.length) :
    ∃ r, (OnlineLdaInput.create transform).computeAll ((nrows, first) :: batches) = some r ∧
      r.2.flatten = reference (first ++ (batches.map Prod.snd).flatten) transform := by
  obtain ⟨window, hinit, hshows⟩ := initFeatWindow_shows left right
    (List.prefix_append first (batches.map Prod.snd).flatten) hne hright
  have hskip : firstFeat left right = right := by
    unfold firstFeat
    omega
  have hcompute : (OnlineLdaInput.create transform).compute nrows first =
      some ((OnlineLdaInput.create transform).splice window (first.drop right)) := by
    rw [compute_create, hkept, hinit, hskip]
    rfl
  have hrows : first ++ (batches.map Prod.snd).flatten =
      first.take right ++ first.drop right ++ (batches.map Prod.snd).flatten := by
    rw [List.take_append_drop]
  rw [hrows] at hshows
  obtain ⟨hshows', hviews⟩ := roll_piece (c := 0) hshows (by simpa using hright)
  rw [← hrows] at hshows' hviews
  rw [Nat.zero_add, List.length_drop] at hshows'
  have hpre : first.length = first.length - right + right := by omega
  have hwindow : ((OnlineLdaInput.create transform).splice window
      (first.drop right)).1.featWindow = some (window.roll (first.drop right)).1 := rfl
  obtain ⟨r, hrest, hout⟩ := OnlineLdaInput.computeAll_later hwindow hshows' hpre batches rfl
  refine ⟨(r.1, ((OnlineLdaInput.create transform).splice window (first.drop right)).2 :: r.2),
    ?_, ?_⟩
  · rw [OnlineLdaInput.computeAll, hcompute, Option.bind_some, hrest, Option.map_some]
  · have hlen : (first ++ (batches.map Prod.snd).flatten).length - right =
        (first.length - right) + (batches.map Prod.snd).flatten.length := by
      rw [List.length_append]
      omega
    rw [List.flatten_cons, hout, reference, hlen, List.range_eq_range', ← List.range'_append_1,
      List.map_append, Nat.zero_add]
    congr 1
    rw [OnlineLdaInput.splice, addMatMat, hviews, List.map_map, List.length_drop]
    rfl

omit [NonAssocSemiring K] in
/-- Whatever the batches are, the outputs of all calls are the reference of the rows that are
kept. -/
theorem computeAll_kept {batches : List (Nat × List (FeatureRow K dim))}
    (hbegins : Begins right (kept (left + right + 1) batches)) :
    ∃ r, (OnlineLdaInput.create transform).computeAll batches = some r ∧
      r.2.flatten = reference ((kept (left + right + 1) batches).map Prod.snd).flatten
        transform := by
  induction batches with
  | nil => exact ⟨_, rfl, by simp [kept, reference]⟩
  | cons batch batches ih =>
      obtain ⟨nrows, featIn⟩ := batch
      unfold kept at hbegins ih ⊢
      by_cases hdrop : dropped (left + right + 1) (nrows, featIn) = true
      · rw [List.dropWhile_cons_of_pos hdrop] at hbegins ⊢
        obtain ⟨r, hrest, hout⟩ := ih hbegins
        refine ⟨(r.1, [] :: r.2), ?_, by simpa using hout⟩
        rw [OnlineLdaInput.computeAll, compute_create, if_pos hdrop, Option.bind_some, hrest,
          Option.map_some]
      · rw [List.dropWhile_cons_of_neg hdrop] at hbegins ⊢
        obtain ⟨hne, hright⟩ := hbegins (nrows, featIn) rfl
        rw [List.map_cons, List.flatten_cons]
        exact computeAll_begins transform (Bool.eq_false_iff.mpr hdrop) hne hright

end Splice

/-- **Each row in its context.**  Whatever batches the inferior input delivers, the outputs of
`OnlineDeltaInput` put together are what `Process` makes, row by row, of the rows that are
kept, each with `c` rows on either side, where row 0 stands for the rows before it; only
the last `c` rows wait for their context. -/
theorem deltas_in_context (process : DeltaWindow K dim c → Out)
    {batches : List (Nat × List (FeatureRow K dim))}
    (hbegins : Begins c (kept (c + c + 1) batches)) :
    ∃ r, (OnlineDeltaInput.create : OnlineDeltaInput K dim c).computeAll process batches = some r ∧
      r.2.flatten =
        (List.range (((kept (c + c + 1) batches).map Prod.snd).flatten.length - c)).map fun t =>
          process (context c c ((kept (c + c + 1) batches).map Prod.snd).flatten t) := by
  obtain ⟨r, hr, hout⟩ := computeAll_kept
    (1 : Matrix (Fin ((c + c + 1) * dim)) (Fin ((c + c + 1) * dim)) K) hbegins
  have hcreate : inOrder (OnlineLdaInput.create 1 : Splicing K dim c) =
      OnlineDeltaInput.create := rfl
  have hone : (OnlineLdaInput.create 1 : Splicing K dim c).transform = 1 := rfl
  refine ⟨(inOrder r.1, r.2.map (List.map (processSpliced process))), ?_, ?_⟩
  · rw [← hcreate, computeAll_inOrder process hone, hr]
    rfl
  · rw [← List.map_flatten, hout, reference, List.map_map]
    refine List.map_congr_left fun t _ => ?_
    rw [Function.comp_apply, transformRow_one, processSpliced, unsplice_splicedRow]

end Batches

/-- Two batches, of which the first one is dropped: two rows where three were asked for. -/
def shortFirst : List (Nat × List (FeatureRow Int 1)) :=
  [(3, [fun _ => 1, fun _ => 2]), (3, [fun _ => 3, fun _ => 5, fun _ => 9]), (1, [fun _ => 11])]

/-- The slope of a row: that of the row behind it and the row before it. -/
def slope (window : DeltaWindow Int 1 1) : Int := window 2 0 - window 0 0

theorem deltas_in_context_short :
    ∃ r, (OnlineDeltaInput.create : OnlineDeltaInput Int 1 1).computeAll slope shortFirst =
        some r ∧
      r.2.flatten = (List.range 3).map fun t => slope (context 1 1
        [fun _ => 3, fun _ => 5, fun _ => 9, fun _ => 11] t) := by
  refine deltas_in_context slope ?_
  intro batch hbatch
  obtain rfl := Option.some.inj hbatch
  exact ⟨by simp, by decide⟩

end Circle

end Delta

end ThreadedServer
