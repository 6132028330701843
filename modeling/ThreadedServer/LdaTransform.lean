import ThreadedServer.LdaInput
import ThreadedServer.Socket
import ThreadedServer.Transition

/-!
# The rows that `LdaTransform` reads

File mode transforms all rows at once.  `LdaTransform` fills its window before it
has looked at their number: one loop copies row 0 into the cells up to the centre,
a second one copies the rows from 0 on into the cells behind it, and then the
matrices get their sizes from the difference of the number of rows and the right
context.  `OnlineLdaInput::Compute` sends a short first batch away before it comes
to this point; here there is no such guard.

The variables are `uint32` and `int32` in turn: the contexts and the size of the
window are unsigned, the rows and the counters of the loops are signed, and a
counter is converted to be compared with the window.  This file follows the
variables, each in its own type, and leaves aside what the rows contain.  A signed
counter that passes the largest `int32` is undefined behaviour, and so is a
difference that does.
-/

namespace ThreadedServer

open Transition

/-- What `LdaTransform` is called with.  A matrix is told by its sizes; they are
`int32` and not negative. -/
structure LdaCall where
  numRows : Nat
  featDim : Nat
  transRows : Nat
  leftContext : UInt32
  rightContext : UInt32
  numRows_lt : numRows < 2 ^ 31
  featDim_lt : featDim < 2 ^ 31
  transRows_lt : transRows < 2 ^ 31

/-- The points that the control of `LdaTransform` passes, with the counters of its
loops. -/
inductive LdaPoint
  | center (i : Int)
  | rest (i : Int)
  | resize
  | splice (curFeat sfi : Int)
  | returned
  | overflow
  deriving DecidableEq

namespace LdaCall

/-- `window_size`. -/
def windowSize (c : LdaCall) : UInt32 := c.leftContext + c.rightContext + 1

/-- `window_center`. -/
def windowCenter (c : LdaCall) : UInt32 := c.leftContext

/-- `cur_feat`, as it is initialised. -/
def curFeat (c : LdaCall) : Int := toInt32 (c.windowSize - c.windowCenter - 1).toNat

/-- The rows of `spliced_feats` and of `output`: `cmvn.NumRows() - cur_feat`. -/
def outputRows (c : LdaCall) : Int := c.numRows - c.curFeat

/-- The columns of `spliced_feats`: `feat_dim * window_size`. -/
def splicedCols (c : LdaCall) : Int := toInt32 (UInt32.ofNat c.featDim * c.windowSize).toNat

/-- The columns of `output`: `trans_rows`. -/
def outputCols (c : LdaCall) : Int := toInt32 (UInt32.ofNat c.transRows).toNat

/-- The row that cell `i` behind the centre is filled with:
`i - window_center - 1`. -/
def cellRow (c : LdaCall) (i : Int) : Int :=
  toInt32 (UInt32.ofInt i - c.windowCenter - 1).toNat

/-- `++i`, and back to the head of the loop. -/
def next (loop : Int → LdaPoint) (i : Int) : LdaPoint :=
  if i + 1 < 2 ^ 31 then loop (i + 1) else .overflow

/-- One round of a loop, or the way out of it. -/
def step (c : LdaCall) : LdaPoint → Option LdaPoint
  | .center i =>
      some (if UInt32.ofInt i ≤ c.windowCenter then next .center i else .rest i)
  | .rest i => some (if UInt32.ofInt i < c.windowSize then next .rest i else .resize)
  | .resize => some (if c.outputRows < 2 ^ 31 then .splice c.curFeat 0 else .overflow)
  -- `cur_feat` ends at `NumRows()` and `sfi` at their difference: neither overflows
  | .splice curFeat sfi =>
      some (if curFeat < c.numRows then .splice (curFeat + 1) (sfi + 1) else .returned)
  | .returned | .overflow => none

/-- The row of `cmvn` that the next step reads. -/
def rowRead (c : LdaCall) : LdaPoint → Option Int
  | .center i => if UInt32.ofInt i ≤ c.windowCenter then some 0 else none
  | .rest i => if UInt32.ofInt i < c.windowSize then some (c.cellRow i) else none
  | .splice curFeat _ => if curFeat < c.numRows then some curFeat else none
  | .resize | .returned | .overflow => none

/-- The call, from the first loop on. -/
def system (c : LdaCall) : System LdaPoint Unit where
  init := .center 0
  step p _ := c.step p

/-- A point at which nothing goes wrong: a row that is read is a row of `cmvn`, and
the sizes that are asked for are not negative. -/
structure SafeAt (c : LdaCall) (p : LdaPoint) : Prop where
  defined : p ≠ .overflow
  row : ∀ r, c.rowRead p = some r → 0 ≤ r ∧ r < c.numRows
  sizes : p = .resize → 0 ≤ c.outputRows ∧ 0 ≤ c.splicedCols ∧ 0 ≤ c.outputCols

/-- The call returns after nothing has gone wrong, and where no row has its right
context its output has no rows. -/
structure Transforms (c : LdaCall) : Prop where
  safe : ∀ p, c.system.Reachable p → c.SafeAt p
  returns : c.system.Reachable .returned
  empty : c.numRows ≤ c.rightContext.toNat → c.outputRows = 0

/-- The window and a spliced row have sizes that an `int32` holds. -/
structure SizesFit (c : LdaCall) : Prop where
  window : c.leftContext.toNat + c.rightContext.toNat + 1 < 2 ^ 31
  spliced : c.featDim * (c.leftContext.toNat + c.rightContext.toNat + 1) % 2 ^ 32 < 2 ^ 31

/-! ## The conversions -/

/-- A counter that is not negative is compared by its value. -/
theorem toNat_ofInt {i : Int} (hlo : 0 ≤ i) (hhi : i < 2 ^ 31) :
    (UInt32.ofInt i).toNat = i.toNat := by
  rw [UInt32.ofInt, UInt32.toNat_ofNat']
  omega

variable {c : LdaCall}

/-- `cur_feat` is the right context as an `int32`. -/
theorem curFeat_eq (c : LdaCall) : c.curFeat = toInt32 c.rightContext.toNat := by
  have hright : (c.windowSize - c.windowCenter - 1).toNat = c.rightContext.toNat := by
    have hl := c.leftContext.toNat_lt
    have hr := c.rightContext.toNat_lt
    simp only [windowSize, windowCenter, UInt32.toNat_sub, UInt32.toNat_add, UInt32.toNat_one]
    omega
  rw [curFeat, hright]

/-- Behind the centre, the cells get the rows from 0 on. -/
theorem cellRow_eq {i : Int} (hlo : c.leftContext.toNat < i) (hhi : i < 2 ^ 31) :
    c.cellRow i = i - c.leftContext.toNat - 1 := by
  have hi : (UInt32.ofInt i).toNat = i.toNat := toNat_ofInt (by omega) hhi
  have hrow : (UInt32.ofInt i - c.windowCenter - 1).toNat =
      i.toNat - c.leftContext.toNat - 1 := by
    have hl := c.leftContext.toNat_lt
    simp only [windowCenter, UInt32.toNat_sub, UInt32.toNat_one, hi]
    omega
  have hcast : ((i.toNat - c.leftContext.toNat - 1 : Nat) : Int) =
      i - c.leftContext.toNat - 1 := by omega
  rw [cellRow, hrow, hcast, toInt32_eq (by omega) (by omega)]

theorem outputCols_eq (c : LdaCall) : c.outputCols = c.transRows := by
  have hlt := c.transRows_lt
  rw [outputCols, UInt32.toNat_ofNat', Nat.mod_eq_of_lt (by omega)]
  exact toInt32_eq (by omega) (by omega)

/-- The columns of `spliced_feats` are what is left of the product. -/
theorem splicedCols_eq (c : LdaCall) :
    c.splicedCols =
      toInt32 (c.featDim * (c.leftContext.toNat + c.rightContext.toNat + 1) % 2 ^ 32 : Nat) := by
  have hcols : (UInt32.ofNat c.featDim * c.windowSize).toNat =
      c.featDim * (c.leftContext.toNat + c.rightContext.toNat + 1) % 2 ^ 32 := by
    simp only [windowSize, UInt32.toNat_mul, UInt32.toNat_add, UInt32.toNat_ofNat',
      UInt32.toNat_one]
    rw [Nat.mod_add_mod, ← Nat.mul_mod]
  rw [splicedCols, hcols]

/-- An unsigned size is negative as an `int32` from half of the range on. -/
theorem toInt32_nonneg_iff {n : Nat} (h : n < 2 ^ 32) : 0 ≤ toInt32 n ↔ n < 2 ^ 31 := by
  rw [toInt32, Int.bmod]
  omega

/-! ## Calls that go well -/

/-- What is known at each point of a call whose sizes fit. -/
def Inv (c : LdaCall) : LdaPoint → Prop
  | .center i => 0 ≤ i ∧ i ≤ c.leftContext.toNat + 1
  | .rest i =>
      c.leftContext.toNat + 1 ≤ i ∧ i ≤ c.leftContext.toNat + c.rightContext.toNat + 1
  | .splice curFeat sfi => c.rightContext.toNat ≤ curFeat ∧ sfi = curFeat - c.rightContext.toNat
  | .resize | .returned => True
  | .overflow => False

/-- The first loop goes on up to the centre. -/
theorem center_le_iff {i : Int} (hlo : 0 ≤ i) (hhi : i < 2 ^ 31) :
    UInt32.ofInt i ≤ c.windowCenter ↔ i ≤ c.leftContext.toNat := by
  rw [UInt32.le_iff_toNat_le, toNat_ofInt hlo hhi, windowCenter]
  omega

/-- The second loop goes on up to the end of the window. -/
theorem rest_lt_iff {i : Int} (hlo : 0 ≤ i) (hhi : i < 2 ^ 31)
    (hwindow : c.leftContext.toNat + c.rightContext.toNat + 1 < 2 ^ 32) :
    UInt32.ofInt i < c.windowSize ↔ i < c.leftContext.toNat + c.rightContext.toNat + 1 := by
  have hsize : c.windowSize.toNat = c.leftContext.toNat + c.rightContext.toNat + 1 := by
    simp only [windowSize, UInt32.toNat_add, UInt32.toNat_one]
    omega
  rw [UInt32.lt_iff_toNat_lt, toNat_ofInt hlo hhi, hsize]
  omega

theorem next_of_lt {loop : Int → LdaPoint} {i : Int} (h : i + 1 < 2 ^ 31) :
    next loop i = loop (i + 1) := if_pos h

theorem next_of_le {loop : Int → LdaPoint} {i : Int} (h : 2 ^ 31 ≤ i + 1) :
    next loop i = .overflow := if_neg (by omega)

/-- A round of the first loop. -/
theorem step_center {i : Int} (hlo : 0 ≤ i) (hhi : i < 2 ^ 31)
    (hle : i ≤ c.leftContext.toNat) : c.step (.center i) = some (next .center i) := by
  rw [step, if_pos ((center_le_iff hlo hhi).mpr hle)]

/-- The end of the first loop. -/
theorem step_center_end {i : Int} (hlo : 0 ≤ i) (hhi : i < 2 ^ 31)
    (hgt : c.leftContext.toNat < i) : c.step (.center i) = some (.rest i) := by
  have hend : ¬ UInt32.ofInt i ≤ c.windowCenter := by
    rw [center_le_iff hlo hhi]
    omega
  rw [step, if_neg hend]

/-- A round of the second loop. -/
theorem step_rest {i : Int} (hlo : 0 ≤ i) (hhi : i < 2 ^ 31)
    (hwindow : c.leftContext.toNat + c.rightContext.toNat + 1 < 2 ^ 32)
    (hlt : i < c.leftContext.toNat + c.rightContext.toNat + 1) :
    c.step (.rest i) = some (next .rest i) := by
  rw [step, if_pos ((rest_lt_iff hlo hhi hwindow).mpr hlt)]

/-- The end of the second loop. -/
theorem step_rest_end {i : Int} (hlo : 0 ≤ i) (hhi : i < 2 ^ 31)
    (hwindow : c.leftContext.toNat + c.rightContext.toNat + 1 < 2 ^ 32)
    (hge : c.leftContext.toNat + c.rightContext.toNat + 1 ≤ i) :
    c.step (.rest i) = some .resize := by
  have hend : ¬ UInt32.ofInt i < c.windowSize := by
    rw [rest_lt_iff hlo hhi hwindow]
    omega
  rw [step, if_neg hend]

/-- `cur_feat` is the right context where the window fits. -/
theorem SizesFit.curFeat (h : c.SizesFit) : c.curFeat = c.rightContext.toNat := by
  have hwindow := h.window
  rw [curFeat_eq, toInt32_eq (by omega) (by omega)]

theorem SizesFit.outputRows (h : c.SizesFit) :
    c.outputRows = c.numRows - c.rightContext.toNat := by
  rw [LdaCall.outputRows, h.curFeat]

/-- The sizes are computed, and the last loop begins. -/
theorem SizesFit.step_resize (h : c.SizesFit) :
    c.step .resize = some (.splice c.rightContext.toNat 0) := by
  have hrows := c.numRows_lt
  have hout := h.outputRows
  rw [step, if_pos (by omega), h.curFeat]

/-- Each step keeps the counters in their ranges. -/
theorem inv_step (hfit : c.SizesFit) {p q : LdaPoint} (hp : c.Inv p)
    (hstep : c.step p = some q) : c.Inv q := by
  have hwindow := hfit.window
  cases p with
  | center i =>
      obtain ⟨hlo, hhi⟩ := hp
      by_cases hle : i ≤ c.leftContext.toNat
      · rw [step_center hlo (by omega) hle, next_of_lt (by omega)] at hstep
        obtain rfl := Option.some.inj hstep
        exact ⟨by omega, by omega⟩
      · rw [step_center_end hlo (by omega) (by omega)] at hstep
        obtain rfl := Option.some.inj hstep
        exact ⟨by omega, by omega⟩
  | rest i =>
      obtain ⟨hlo, hhi⟩ := hp
      by_cases hlt : i < c.leftContext.toNat + c.rightContext.toNat + 1
      · rw [step_rest (by omega) (by omega) (by omega) hlt, next_of_lt (by omega)] at hstep
        obtain rfl := Option.some.inj hstep
        exact ⟨by omega, by omega⟩
      · rw [step_rest_end (by omega) (by omega) (by omega) (by omega)] at hstep
        obtain rfl := Option.some.inj hstep
        trivial
  | resize =>
      rw [hfit.step_resize] at hstep
      obtain rfl := Option.some.inj hstep
      exact ⟨le_rfl, by omega⟩
  | splice curFeat sfi =>
      obtain ⟨hlo, hsfi⟩ := hp
      obtain rfl := Option.some.inj hstep
      split
      · exact ⟨by omega, by omega⟩
      · trivial
  | returned => cases hstep
  | overflow => cases hstep

theorem inv_of_reachable (hfit : c.SizesFit) {p : LdaPoint} (hp : c.system.Reachable p) :
    c.Inv p := by
  apply hp.invariant c.Inv
  · exact ⟨le_rfl, by omega⟩
  · intro s e t hs hstep
    exact inv_step hfit hs hstep

/-- What the invariant says about what is read and sized. -/
theorem inv_safeAt (hfit : c.SizesFit) (hpos : 0 < c.numRows)
    (hright : c.rightContext.toNat ≤ c.numRows) {p : LdaPoint} (hp : c.Inv p) :
    c.SafeAt p := by
  have hwindow := hfit.window
  refine ⟨?_, ?_, ?_⟩
  · rintro rfl
    exact hp
  · intro r hr
    cases p with
    | center i =>
        obtain ⟨-, hrow⟩ := Option.ite_none_right_eq_some.mp hr
        obtain rfl := Option.some.inj hrow
        exact ⟨le_rfl, by omega⟩
    | rest i =>
        obtain ⟨hlo, hhi⟩ := hp
        obtain ⟨hloop, hrow⟩ := Option.ite_none_right_eq_some.mp hr
        rw [rest_lt_iff (by omega) (by omega) (by omega)] at hloop
        obtain rfl := Option.some.inj hrow
        rw [cellRow_eq (by omega) (by omega)]
        exact ⟨by omega, by omega⟩
    | splice curFeat sfi =>
        obtain ⟨hlo, -⟩ := hp
        obtain ⟨hlt, hrow⟩ := Option.ite_none_right_eq_some.mp hr
        obtain rfl := Option.some.inj hrow
        exact ⟨by omega, hlt⟩
    | resize => cases hr
    | returned => cases hr
    | overflow => cases hr
  · rintro -
    have hcols := hfit.spliced
    refine ⟨?_, ?_, ?_⟩
    · rw [hfit.outputRows]
      omega
    · rw [splicedCols_eq, toInt32_nonneg_iff (by omega)]
      exact hcols
    · rw [outputCols_eq]
      omega

/-! ## Where a call gets -/

/-- The first loop comes to every cell up to the one behind the centre that its
counter can name. -/
theorem leads_center {n : Nat} (hn : n ≤ c.leftContext.toNat + 1) (hlt : n < 2 ^ 31) :
    c.system.Leads (.center 0) (.center n) := by
  have hround : ∀ k < n, c.step (.center k) = some (.center (k + 1 : Nat)) := by
    intro k hk
    rw [step_center (by omega) (by omega) (by omega), next_of_lt (by omega)]
    rfl
  exact System.Leads.count (e := ()) (fun k : Nat => LdaPoint.center k) n hround

/-- The second loop comes to every cell up to the end of the window that its counter
can name. -/
theorem leads_rest {n : Nat}
    (hwindow : c.leftContext.toNat + c.rightContext.toNat + 1 < 2 ^ 32)
    (hn : n ≤ c.rightContext.toNat) (hlt : c.leftContext.toNat + 1 + n < 2 ^ 31) :
    c.system.Leads (.rest (c.leftContext.toNat + 1 : Nat))
      (.rest (c.leftContext.toNat + 1 + n : Nat)) := by
  have hround : ∀ k < n, c.step (.rest (c.leftContext.toNat + 1 + k : Nat)) =
      some (.rest (c.leftContext.toNat + 1 + (k + 1) : Nat)) := by
    intro k hk
    rw [step_rest (by omega) (by omega) hwindow (by omega), next_of_lt (by omega)]
    rfl
  exact System.Leads.count (e := ())
    (fun k : Nat => LdaPoint.rest (c.leftContext.toNat + 1 + k : Nat)) n hround

/-- A step of a reachable point. -/
theorem reachable_step {p q : LdaPoint} (hp : c.system.Reachable p)
    (hstep : c.step p = some q) : c.system.Reachable q :=
  .step hp trivial (e := ()) hstep

/-- The second loop begins behind the centre. -/
theorem reachable_rest (hcenter : c.leftContext.toNat + 1 < 2 ^ 31) :
    c.system.Reachable (.rest (c.leftContext.toNat + 1 : Nat)) := by
  have hlast : c.system.Reachable (.center (c.leftContext.toNat + 1 : Nat)) :=
    System.Reachable.leads .init (leads_center le_rfl hcenter)
  apply reachable_step hlast
  exact step_center_end (by omega) (by omega) (by omega)

/-- Where the window fits, the loops end and the matrices are sized. -/
theorem reachable_resize
    (hwindow : c.leftContext.toNat + c.rightContext.toNat + 1 < 2 ^ 31) :
    c.system.Reachable .resize := by
  have hfirst : c.system.Reachable (.rest (c.leftContext.toNat + 1 : Nat)) :=
    reachable_rest (by omega)
  have hlast := hfirst.leads (leads_rest (by omega) le_rfl (by omega))
  apply reachable_step hlast
  exact step_rest_end (by omega) (by omega) (by omega) (by omega)

/-- A counter that has come to the largest `int32` overflows if its loop goes on. -/
theorem overflow_of_center (hleft : 2 ^ 31 ≤ c.leftContext.toNat + 1) :
    c.system.Reachable .overflow := by
  have hlast : c.system.Reachable (.center (2 ^ 31 - 1 : Nat)) :=
    System.Reachable.leads .init (leads_center (by omega) (by omega))
  apply reachable_step hlast
  rw [step_center (by omega) (by omega) (by omega), next_of_le (by omega)]

/-- The same in the second loop. -/
theorem overflow_of_rest (hleft : c.leftContext.toNat + 1 < 2 ^ 31)
    (hlo : 2 ^ 31 ≤ c.leftContext.toNat + c.rightContext.toNat + 1)
    (hhi : c.leftContext.toNat + c.rightContext.toNat + 1 < 2 ^ 32) :
    c.system.Reachable .overflow := by
  obtain ⟨n, hn⟩ : ∃ n, c.leftContext.toNat + 1 + n = 2 ^ 31 - 1 :=
    ⟨2 ^ 31 - 1 - (c.leftContext.toNat + 1), by omega⟩
  have hlast := (reachable_rest hleft).leads (leads_rest hhi (n := n) (by omega) (by omega))
  rw [hn] at hlast
  apply reachable_step hlast
  rw [step_rest (by omega) (by omega) hhi (by omega), next_of_le (by omega)]

/-- A window whose size has come round to a small one: the right context is negative
as an `int32`, and so is the first row that is spliced. -/
theorem unsafe_of_wrapped (hpos : 0 < c.numRows)
    (hleft : c.leftContext.toNat + 1 < 2 ^ 31)
    (hwrap : 2 ^ 32 ≤ c.leftContext.toNat + c.rightContext.toNat + 1) :
    ∃ p, c.system.Reachable p ∧ ¬ c.SafeAt p := by
  have hr := c.rightContext.toNat_lt
  have hresize : c.system.Reachable .resize := by
    apply reachable_step (reachable_rest hleft)
    have hend : ¬ UInt32.ofInt (c.leftContext.toNat + 1 : Nat) < c.windowSize := by
      rw [UInt32.lt_iff_toNat_lt, toNat_ofInt (by omega) (by omega)]
      simp only [windowSize, UInt32.toNat_add, UInt32.toNat_one]
      omega
    rw [step, if_neg hend]
  have hnegative : c.curFeat < 0 := by
    rw [curFeat_eq, toInt32, Int.bmod]
    omega
  by_cases hdiff : c.outputRows < 2 ^ 31
  · refine ⟨.splice c.curFeat 0, ?_, ?_⟩
    · apply reachable_step hresize
      rw [step, if_pos hdiff]
    · intro hsafe
      have hread : c.rowRead (.splice c.curFeat 0) = some c.curFeat := by
        rw [rowRead, if_pos (by omega)]
      have hrow := hsafe.row c.curFeat hread
      omega
  · refine ⟨.overflow, ?_, fun hsafe => hsafe.defined rfl⟩
    apply reachable_step hresize
    rw [step, if_neg hdiff]

/-- The last loop ends, and the call returns. -/
theorem reachable_returned (hfit : c.SizesFit)
    (hright : c.rightContext.toNat ≤ c.numRows) : c.system.Reachable .returned := by
  obtain ⟨n, hn⟩ : ∃ n, c.rightContext.toNat + n = c.numRows :=
    ⟨c.numRows - c.rightContext.toNat, by omega⟩
  have hround : ∀ k < n, c.step (.splice (c.rightContext.toNat + k : Nat) k) =
      some (.splice (c.rightContext.toNat + (k + 1) : Nat) (k + 1 : Nat)) := by
    intro k hk
    rw [step, if_pos (by omega)]
    rfl
  have hfirst : c.system.Reachable (.splice (c.rightContext.toNat + 0 : Nat) (0 : Nat)) := by
    apply reachable_step (reachable_resize hfit.window)
    exact hfit.step_resize
  have hlast := hfirst.leads (System.Leads.count (e := ())
    (fun k : Nat => LdaPoint.splice (c.rightContext.toNat + k : Nat) k) n hround)
  apply reachable_step hlast
  rw [step, if_neg (by omega)]

/-- A call whose window does not fit goes wrong somewhere. -/
theorem window_of_safe (hpos : 0 < c.numRows)
    (hsafe : ∀ p, c.system.Reachable p → c.SafeAt p) :
    c.leftContext.toNat + c.rightContext.toNat + 1 < 2 ^ 31 := by
  by_contra hwindow
  have hdefined : ¬ c.system.Reachable .overflow := fun h => (hsafe _ h).defined rfl
  by_cases hleft : c.leftContext.toNat + 1 < 2 ^ 31
  · by_cases hwrap : c.leftContext.toNat + c.rightContext.toNat + 1 < 2 ^ 32
    · exact hdefined (overflow_of_rest hleft (by omega) hwrap)
    · obtain ⟨p, hp, hunsafe⟩ := unsafe_of_wrapped hpos hleft (by omega)
      exact hunsafe (hsafe p hp)
  · exact hdefined (overflow_of_center (by omega))

/-- A call that goes well has the rows of the right context, and its sizes fit. -/
theorem Transforms.bounds (h : c.Transforms) (hpos : 0 < c.numRows) :
    c.rightContext.toNat ≤ c.numRows ∧ c.SizesFit := by
  have hwindow := window_of_safe hpos h.safe
  obtain ⟨hrows, hcols, -⟩ := (h.safe _ (reachable_resize hwindow)).sizes rfl
  have hfit : c.SizesFit := by
    refine ⟨hwindow, ?_⟩
    rw [splicedCols_eq, toInt32_nonneg_iff (by omega)] at hcols
    exact hcols
  rw [hfit.outputRows] at hrows
  exact ⟨by omega, hfit⟩

/-- The rows that are spliced go to rows that `spliced_feats` has. -/
theorem Transforms.spliced_row (h : c.Transforms) (hpos : 0 < c.numRows)
    {curFeat sfi : Int} (hp : c.system.Reachable (.splice curFeat sfi))
    (hlt : curFeat < c.numRows) : 0 ≤ sfi ∧ sfi < c.outputRows := by
  obtain ⟨-, hfit⟩ := h.bounds hpos
  obtain ⟨hlo, hsfi⟩ := inv_of_reachable hfit hp
  rw [hfit.outputRows]
  exact ⟨by omega, by omega⟩

/-- With these, nothing goes wrong in any step. -/
theorem SizesFit.transforms (hfit : c.SizesFit) (hpos : 0 < c.numRows)
    (hright : c.rightContext.toNat ≤ c.numRows) : c.Transforms := by
  refine ⟨?_, reachable_returned hfit hright, ?_⟩
  · intro p hp
    exact inv_safeAt hfit hpos hright (inv_of_reachable hfit hp)
  · intro hfew
    rw [hfit.outputRows]
    omega

/-- **When `LdaTransform` goes well.**  For every pair of contexts and every matrix
with a row: all rows that are read exist, the sizes are not negative and the output
is empty where no row has its right context, exactly when there are as many rows as
the right context has, and the sizes of the window and of a spliced row fit. -/
theorem transforms_iff (c : LdaCall) (hpos : 0 < c.numRows) :
    c.Transforms ↔ c.rightContext.toNat ≤ c.numRows ∧ c.SizesFit := by
  constructor
  · intro h
    exact h.bounds hpos
  · rintro ⟨hright, hfit⟩
    exact hfit.transforms hpos hright

/-- A wave of as many frames as the right context has in `server.conf`. -/
def threeFrames : LdaCall where
  numRows := 3
  featDim := 13
  transRows := 40
  leftContext := 3
  rightContext := 3
  numRows_lt := by decide
  featDim_lt := by decide
  transRows_lt := by decide

/-- The output is empty, and nothing goes wrong. -/
theorem transforms_iff_three : threeFrames.Transforms ∧ threeFrames.outputRows = 0 :=
  ⟨(transforms_iff threeFrames (by decide)).mpr ⟨by decide, by decide, by decide⟩, by decide⟩

/-- A wave of one frame. -/
def oneFrame : LdaCall := { threeFrames with numRows := 1, numRows_lt := by decide }

/-- Of a matrix of one row, row 1 is read, and the output is to have minus two rows. -/
theorem oneFrame_fails :
    0 < oneFrame.numRows ∧ ¬ oneFrame.Transforms ∧
      (oneFrame.system.Reachable (.rest 5) ∧ oneFrame.rowRead (.rest 5) = some 1) ∧
      oneFrame.outputRows = -2 := by
  have hrun : oneFrame.system.runFrom (.center 0) (List.replicate 6 ()) = some (.rest 5) := by
    decide
  have hreach : oneFrame.system.Reachable (.rest 5) := System.reachable_of_run hrun
  have hread : oneFrame.rowRead (.rest 5) = some 1 := by decide
  refine ⟨by decide, ?_, ⟨hreach, hread⟩, by decide⟩
  intro h
  have hrow := ((h.safe _ hreach).row 1 hread).2
  exact absurd hrow (by decide)

/-! ## The transform itself -/

section Transform

variable {K : Type*} [AddCommMonoid K] [Mul K]

/-- The rows of a call that goes well are transformed, and the output has the size
that was computed for it. -/
theorem ldaTransform_of_transforms (hpos : 0 < c.numRows) (h : c.Transforms)
    {cmvn : List (FeatureRow K c.featDim)} (hrows : cmvn.length = c.numRows)
    (transform : Matrix (Fin c.transRows)
      (Fin ((c.leftContext.toNat + c.rightContext.toNat + 1) * c.featDim)) K) :
    ∃ output, ldaTransform cmvn transform = some output ∧
      (output.length : Int) = c.outputRows := by
  obtain ⟨hright, hfit⟩ := h.bounds hpos
  have hne : cmvn ≠ [] := List.length_pos_iff.mp (by omega)
  refine ⟨_, ldaTransform_eq transform hne (by omega), ?_⟩
  rw [hfit.outputRows, reference, List.length_map, List.length_range]
  omega

/-- Where the sizes fit, the transform has a value exactly when the call goes well. -/
theorem ldaTransform_isSome_iff (hpos : 0 < c.numRows) (hfit : c.SizesFit)
    {cmvn : List (FeatureRow K c.featDim)} (hrows : cmvn.length = c.numRows)
    (transform : Matrix (Fin c.transRows)
      (Fin ((c.leftContext.toNat + c.rightContext.toNat + 1) * c.featDim)) K) :
    (ldaTransform cmvn transform).isSome ↔ c.Transforms := by
  have hne : cmvn ≠ [] := List.length_pos_iff.mp (by omega)
  rw [ldaTransform, Option.isSome_map, initFeatWindow_isSome_iff hne, hrows]
  constructor
  · intro hright
    exact hfit.transforms hpos hright
  · intro h
    exact (h.bounds hpos).1

end Transform

end LdaCall

end ThreadedServer
