import Mathlib.Algebra.Order.Field.Basic
import Mathlib.Data.Rat.Defs
import Mathlib.Tactic.FieldSimp
import Mathlib.Tactic.GCongr
import Mathlib.Tactic.Linarith
import Mathlib.Tactic.NormNum
import Mathlib.Tactic.Positivity
import Mathlib.Tactic.Ring
import ThreadedServer.OnlineDecoder

/-!
# The beam and the clock

`Decode` looks at the clock at every `update_interval`-th frame of a batch.  If the frames
since the last look took longer than `rt_max` allows, it makes the beam of the search
narrower, and if they took less than `rt_min`, wider again, but never wider than the beam
it was created with.  The beam is a member of the decoder: it is not reset with the
utterance, nor when `Decode` returns.

The arithmetic is exact, over an ordered field.
-/

namespace ThreadedServer

/-- The options that the adjustment reads. -/
structure OnlineFasterDecoderOpts (K : Type*) where
  beam : K
  rtMin : K
  rtMax : K
  updateInterval : Nat
  beamUpdate : K
  maxBeamUpdate : K

namespace OnlineFasterDecoderOpts

variable {K : Type*} [Field K] [LinearOrder K]

/-- `factor`, for the milliseconds since the last look at the clock. -/
def factor (o : OnlineFasterDecoderOpts K) (elapsed : K) : K :=
  elapsed / (o.rtMax * o.updateInterval * 10)

def minFactor (o : OnlineFasterDecoderOpts K) : K := o.rtMin / o.rtMax

/-- `update_factor`.  A factor of zero makes the quotient infinite, and `max_beam_update` is
the smaller of the two. -/
def updateFactor (o : OnlineFasterDecoderOpts K) (factor : K) : K :=
  if 1 < factor then -min (o.beamUpdate * factor) o.maxBeamUpdate
  else if factor = 0 then o.maxBeamUpdate
  else min (o.beamUpdate / factor) o.maxBeamUpdate

/-- The beam after a look at the clock. -/
def adjust (o : OnlineFasterDecoderOpts K) (effectiveBeam factor : K) : K :=
  if 1 < factor ∨ factor < o.minFactor then
    min (effectiveBeam + effectiveBeam * o.updateFactor factor) o.beam
  else effectiveBeam

/-- Options that make sense: positive factors and updates by less than the whole beam. -/
structure Sound (o : OnlineFasterDecoderOpts K) : Prop where
  beam : 0 < o.beam
  rtMin : 0 < o.rtMin
  rtMax : 0 < o.rtMax
  updateInterval : 0 < o.updateInterval
  beamUpdate : 0 < o.beamUpdate
  maxBeamUpdate : 0 < o.maxBeamUpdate
  maxBeamUpdate_lt : o.maxBeamUpdate < 1

/-- The rate at which the beam is changed; none where it is left alone. -/
def rate (o : OnlineFasterDecoderOpts K) (factor : K) : K :=
  if 1 < factor ∨ factor < o.minFactor then o.updateFactor factor else 0

/-- The rate at which the beam gets wider at least, once it does. -/
def recovery (o : OnlineFasterDecoderOpts K) : K :=
  min (o.beamUpdate / o.minFactor) o.maxBeamUpdate

section Rate

variable {o : OnlineFasterDecoderOpts K} {factor later beam narrower : K}

theorem adjust_eq (hbeam : beam ≤ o.beam) :
    o.adjust beam factor = min (beam * (1 + o.rate factor)) o.beam := by
  rw [adjust, rate]
  split
  · rw [mul_one_add]
  · rw [add_zero, mul_one, min_eq_left hbeam]

variable [IsStrictOrderedRing K]

theorem Sound.minFactor_pos (h : o.Sound) : 0 < o.minFactor := div_pos h.rtMin h.rtMax

/-- More time makes a larger factor. -/
theorem Sound.factor_le (h : o.Sound) {elapsed longer : K} (hle : elapsed ≤ longer) :
    o.factor elapsed ≤ o.factor longer := by
  have hrt := h.rtMax
  have hinterval : (0 : K) < o.updateInterval := Nat.cast_pos.mpr h.updateInterval
  unfold factor
  gcongr

theorem Sound.factor_nonneg (h : o.Sound) {elapsed : K} (hle : 0 ≤ elapsed) :
    0 ≤ o.factor elapsed := by
  have hzero : o.factor 0 = 0 := zero_div _
  rw [← hzero]
  exact h.factor_le hle

/-- Frames that took too long make the beam narrower, -/
theorem Sound.rate_slow (h : o.Sound) (hslow : 1 < factor) :
    -o.maxBeamUpdate ≤ o.rate factor ∧ o.rate factor ≤ 0 := by
  have hrate : o.rate factor = -min (o.beamUpdate * factor) o.maxBeamUpdate := by
    rw [rate, if_pos (Or.inl hslow), updateFactor, if_pos hslow]
  have hupdate := h.beamUpdate
  have hpos : 0 ≤ min (o.beamUpdate * factor) o.maxBeamUpdate :=
    le_min (by positivity) h.maxBeamUpdate.le
  rw [hrate]
  exact ⟨neg_le_neg (min_le_right _ _), neg_nonpos.mpr hpos⟩

/-- and others do not. -/
theorem Sound.rate_nonneg (h : o.Sound) (hfactor : 0 ≤ factor) (hslow : ¬ 1 < factor) :
    0 ≤ o.rate factor ∧ o.rate factor ≤ o.maxBeamUpdate := by
  have hupdate := h.beamUpdate
  have hmax := h.maxBeamUpdate
  unfold rate updateFactor
  rw [if_neg hslow]
  split
  · split
    · exact ⟨hmax.le, le_rfl⟩
    · exact ⟨le_min (by positivity) hmax.le, min_le_right _ _⟩
  · exact ⟨le_rfl, hmax.le⟩

/-- Fast frames make it wider by the rate of recovery at least. -/
theorem Sound.recovery_le (h : o.Sound) (hfactor : 0 ≤ factor) (hslow : ¬ 1 < factor)
    (hfast : factor < o.minFactor) : o.recovery ≤ o.rate factor := by
  have hupdate := h.beamUpdate
  unfold rate updateFactor recovery
  rw [if_pos (Or.inr hfast), if_neg hslow]
  split
  · exact min_le_right _ _
  next hne =>
    have hpos : 0 < factor := lt_of_le_of_ne hfactor (Ne.symm hne)
    gcongr

theorem Sound.recovery_pos (h : o.Sound) : 0 < o.recovery :=
  lt_min (div_pos h.beamUpdate h.minFactor_pos) h.maxBeamUpdate

/-- The longer the frames take, the lower the rate. -/
theorem Sound.rate_antitone (h : o.Sound) (hfactor : 0 ≤ factor) (hle : factor ≤ later) :
    o.rate later ≤ o.rate factor := by
  have hupdate := h.beamUpdate
  by_cases hslow : 1 < factor
  · have hlater : 1 < later := hslow.trans_le hle
    unfold rate updateFactor
    rw [if_pos (Or.inl hslow), if_pos (Or.inl hlater), if_pos hslow, if_pos hlater]
    gcongr
  · have hnonneg := (h.rate_nonneg hfactor hslow).1
    by_cases hlater : 1 < later
    · exact (h.rate_slow hlater).2.trans hnonneg
    · by_cases hfast : later < o.minFactor
      · have hfast' : factor < o.minFactor := hle.trans_lt hfast
        unfold rate updateFactor
        rw [if_pos (Or.inr hfast), if_pos (Or.inr hfast'), if_neg hlater, if_neg hslow]
        by_cases hzero : factor = 0
        · rw [if_pos hzero]
          split
          · exact le_rfl
          · exact min_le_right _ _
        · have hpos : 0 < factor := lt_of_le_of_ne hfactor (Ne.symm hzero)
          rw [if_neg (hpos.trans_le hle).ne', if_neg hzero]
          gcongr
      · have hrate : o.rate later = 0 := by
          unfold rate
          rw [if_neg (by simp [hlater, hfast])]
        rw [hrate]
        exact hnonneg

theorem Sound.one_add_rate (h : o.Sound) (hfactor : 0 ≤ factor) :
    1 - o.maxBeamUpdate ≤ 1 + o.rate factor := by
  have hmax := h.maxBeamUpdate
  by_cases hslow : 1 < factor
  · have := (h.rate_slow hslow).1
    linarith
  · have := (h.rate_nonneg hfactor hslow).1
    linarith

/-- A narrower beam that is adjusted after a longer time stays the narrower one. -/
theorem Sound.adjust_mono (h : o.Sound) (hbeam : 0 ≤ narrower) (hle : narrower ≤ beam)
    (hmax : beam ≤ o.beam) (hfactor : 0 ≤ factor) (hlonger : factor ≤ later) :
    o.adjust narrower later ≤ o.adjust beam factor := by
  have hrate := h.rate_antitone hfactor hlonger
  have hpos : 0 ≤ 1 + o.rate factor := by
    have := h.one_add_rate hfactor
    linarith [h.maxBeamUpdate_lt]
  rw [adjust_eq hmax, adjust_eq (hle.trans hmax)]
  refine min_le_min_right _ ?_
  calc narrower * (1 + o.rate later)
      ≤ narrower * (1 + o.rate factor) := by gcongr
    _ ≤ beam * (1 + o.rate factor) := by gcongr

end Rate

end OnlineFasterDecoderOpts

/-! ## Sessions with a clock -/

/-- A session of `OnlineDecode` with the beam.  `now` is the clock, in seconds, and `tstart`
its time at the last look; `checks` counts the looks after the frames of an interval. -/
structure BeamSession (K : Type*) where
  decode : DecodeSession
  effectiveBeam : K
  tstart : K
  now : K
  checks : Nat
  deriving DecidableEq

namespace BeamSession

open OnlineFasterDecoderOpts

variable {K : Type*} [Field K] [LinearOrder K]

def create (o : OnlineFasterDecoderOpts K) : BeamSession K where
  decode := .create
  effectiveBeam := o.beam
  tstart := 0
  now := 0
  checks := 0

/-- The step is a frame before which `Decode` looks at the clock. -/
def looks (o : OnlineFasterDecoderOpts K) (s : BeamSession K) : DecodeLabel → Bool
  | .score _ =>
      match s.decode.pc with
      | .loop batchFrame => decide (batchFrame ≠ 0 ∧ batchFrame % o.updateInterval = 0)
      | _ => false
  | _ => false

/-- `elapsed` -/
def elapsed (s : BeamSession K) : K := (s.now - s.tstart) * 1000

/-- A look at the clock. -/
def check (o : OnlineFasterDecoderOpts K) (s : BeamSession K) : BeamSession K :=
  { s with
    effectiveBeam := o.adjust s.effectiveBeam (o.factor s.elapsed)
    tstart := s.now
    checks := s.checks + 1 }

/-- The beginning of the body of the loop, for a frame of the batch. -/
def adjustBeam (o : OnlineFasterDecoderOpts K) (s : BeamSession K) (batchFrame : Nat) :
    BeamSession K :=
  if batchFrame ≠ 0 ∧ batchFrame % o.updateInterval = 0 then s.check o else s

/-- The time passes. -/
def wait (s : BeamSession K) (time : K) : BeamSession K := { s with now := s.now + time }

/-- One step of a session, after some time. -/
def step (o : OnlineFasterDecoderOpts K) (batchSize : Nat) (s : BeamSession K) :
    K × DecodeLabel → Option (BeamSession K)
  | (time, .call) =>
      (s.decode.step batchSize .call).map fun decode =>
        { s.wait time with decode, tstart := (s.wait time).now }
  | (time, .score e) =>
      match s.decode.pc with
      | .loop batchFrame =>
          (s.decode.step batchSize (.score e)).map fun decode =>
            { (s.wait time).adjustBeam o batchFrame with decode }
      | _ => none
  | (time, .finish) =>
      (s.decode.step batchSize .finish).map fun decode => { s.wait time with decode }

def system (o : OnlineFasterDecoderOpts K) (batchSize : Nat) :
    Transition.System (BeamSession K) (K × DecodeLabel) where
  init := create o
  step := step o batchSize

/-- The clock does not go back. -/
def Forward (_ : BeamSession K) (l : K × DecodeLabel) : Prop := 0 ≤ l.1

instance (s : BeamSession K) (l : K × DecodeLabel) : Decidable (Forward s l) :=
  inferInstanceAs (Decidable (0 ≤ l.1))

section Steps

variable {o : OnlineFasterDecoderOpts K} {batchSize : Nat} {s t : BeamSession K} {time : K}
  {l : DecodeLabel}

/-- A step either leaves the beam alone, or begins with a look at the clock. -/
theorem step_cases (h : step o batchSize s (time, l) = some t) :
    s.decode.step batchSize l = some t.decode ∧ t.now = s.now + time ∧
      (s.looks o l = false ∧ t.tstart = (if l = .call then t.now else s.tstart) ∧
          t.effectiveBeam = s.effectiveBeam ∧ t.checks = s.checks ∨
        s.looks o l = true ∧ t.tstart = t.now ∧ t.checks = s.checks + 1 ∧
          t.effectiveBeam = o.adjust s.effectiveBeam (o.factor (s.wait time).elapsed)) := by
  cases l with
  | call =>
      obtain ⟨decode, hdecode, rfl⟩ := Option.map_eq_some_iff.mp h
      exact ⟨hdecode, rfl, Or.inl ⟨rfl, rfl, rfl, rfl⟩⟩
  | score e =>
      cases hpc : s.decode.pc with
      | outside => simp [step, hpc] at h
      | left => simp [step, hpc] at h
      | loop batchFrame =>
          have hlooks : s.looks o (.score e) =
              decide (batchFrame ≠ 0 ∧ batchFrame % o.updateInterval = 0) := by
            simp only [looks, hpc]
          simp only [step, hpc] at h
          obtain ⟨decode, hdecode, rfl⟩ := Option.map_eq_some_iff.mp h
          rw [hlooks]
          by_cases hdue : batchFrame ≠ 0 ∧ batchFrame % o.updateInterval = 0
          · simp only [adjustBeam, if_pos hdue]
            exact ⟨hdecode, rfl, Or.inr ⟨decide_eq_true hdue, rfl, rfl, rfl⟩⟩
          · simp only [adjustBeam, if_neg hdue]
            exact ⟨hdecode, rfl, Or.inl ⟨decide_eq_false hdue, rfl, rfl, rfl⟩⟩
  | finish =>
      obtain ⟨decode, hdecode, rfl⟩ := Option.map_eq_some_iff.mp h
      exact ⟨hdecode, rfl, Or.inl ⟨rfl, rfl, rfl, rfl⟩⟩

end Steps

variable [IsStrictOrderedRing K]

/-! ## The bounds of the beam -/

/-- The beam is positive, at most the one of the options, and each look has narrowed it by
`max_beam_update` at most. -/
structure Inv (o : OnlineFasterDecoderOpts K) (s : BeamSession K) : Prop where
  clock : s.tstart ≤ s.now
  least : o.beam * (1 - o.maxBeamUpdate) ^ s.checks ≤ s.effectiveBeam
  most : s.effectiveBeam ≤ o.beam

section Bounds

variable {o : OnlineFasterDecoderOpts K} {batchSize : Nat} {s t : BeamSession K} {time : K}
  {l : DecodeLabel}

theorem Inv.elapsed_nonneg (h : Inv o s) (htime : 0 ≤ time) :
    0 ≤ (s.wait time).elapsed := by
  have hclock := h.clock
  show 0 ≤ (s.now + time - s.tstart) * 1000
  linarith

theorem Inv.pos (h : Inv o s) (hsound : o.Sound) : 0 < s.effectiveBeam := by
  have hbeam := hsound.beam
  have hless : 0 < 1 - o.maxBeamUpdate := sub_pos.mpr hsound.maxBeamUpdate_lt
  have hpos : 0 < o.beam * (1 - o.maxBeamUpdate) ^ s.checks := by positivity
  exact hpos.trans_le h.least

omit [IsStrictOrderedRing K] in
theorem inv_create (o : OnlineFasterDecoderOpts K) : Inv o (create o) := by
  refine ⟨le_rfl, ?_, le_rfl⟩
  simp [create]

/-- One look at the clock. -/
theorem Inv.adjust (h : Inv o s) (hsound : o.Sound) {factor : K} (hfactor : 0 ≤ factor) :
    o.beam * (1 - o.maxBeamUpdate) ^ (s.checks + 1) ≤ o.adjust s.effectiveBeam factor := by
  have hless : 0 < 1 - o.maxBeamUpdate := sub_pos.mpr hsound.maxBeamUpdate_lt
  have hpow : (1 - o.maxBeamUpdate) ^ (s.checks + 1) ≤ 1 := by
    apply pow_le_one₀ hless.le
    linarith [hsound.maxBeamUpdate]
  rw [adjust_eq h.most]
  refine le_min ?_ ?_
  · calc o.beam * (1 - o.maxBeamUpdate) ^ (s.checks + 1)
        = o.beam * (1 - o.maxBeamUpdate) ^ s.checks * (1 - o.maxBeamUpdate) := by ring
      _ ≤ s.effectiveBeam * (1 + o.rate factor) :=
        mul_le_mul h.least (hsound.one_add_rate hfactor) hless.le (h.pos hsound).le
  · exact mul_le_of_le_one_right hsound.beam.le hpow

theorem Inv.step (h : Inv o s) (hsound : o.Sound) (htime : 0 ≤ time)
    (hs : step o batchSize s (time, l) = some t) : Inv o t := by
  have hclock := h.clock
  obtain ⟨-, hnow, ⟨-, hstart, hbeam, hchecks⟩ | ⟨-, hstart, hchecks, hbeam⟩⟩ := step_cases hs
  · refine ⟨?_, ?_, ?_⟩
    · rw [hstart]
      split
      · exact le_rfl
      · linarith
    · rw [hbeam, hchecks]
      exact h.least
    · rw [hbeam]
      exact h.most
  · have hfactor := hsound.factor_nonneg (h.elapsed_nonneg htime)
    refine ⟨hstart.le, ?_, ?_⟩
    · rw [hbeam, hchecks]
      exact h.adjust hsound hfactor
    · rw [hbeam, adjust_eq h.most]
      exact min_le_right _ _

theorem inv_of_reachable (hsound : o.Sound)
    (hs : (system o batchSize).ReachableVia Forward s) : Inv o s := by
  refine hs.invariant (Inv o) (inv_create o) ?_
  rintro s ⟨time, l⟩ t - htime hinv hstep
  exact hinv.step hsound htime hstep

/-- **The beam stays within its bounds.**  Whatever the clock says, as long as it does not go
back, the beam of a session is positive and at most the beam of the options, and it is
narrower by `max_beam_update` at most for each look at the clock. -/
theorem beam_bounds (hsound : o.Sound) (hs : (system o batchSize).ReachableVia Forward s) :
    0 < s.effectiveBeam ∧ s.effectiveBeam ≤ o.beam ∧
      o.beam * (1 - o.maxBeamUpdate) ^ s.checks ≤ s.effectiveBeam := by
  have hinv := inv_of_reachable hsound hs
  exact ⟨hinv.pos hsound, hinv.most, hinv.least⟩

end Bounds

/-! ## A slower machine -/

/-- The session on a slower machine: the same frames, after a longer time, with a beam that
is not wider. -/
structure Slower (o : OnlineFasterDecoderOpts K) (s t : BeamSession K) : Prop where
  fast : Inv o s
  slow : Inv o t
  decode : t.decode = s.decode
  clock : s.now - s.tstart ≤ t.now - t.tstart
  beam : t.effectiveBeam ≤ s.effectiveBeam

/-- The same step, which takes longer. -/
def Delayed (e f : K × DecodeLabel) : Prop := e.2 = f.2 ∧ 0 ≤ e.1 ∧ e.1 ≤ f.1

section Slower

variable {o : OnlineFasterDecoderOpts K} {batchSize : Nat} {s s' t : BeamSession K}

omit [IsStrictOrderedRing K] in
/-- The steps that can be taken are those of the decoder. -/
theorem step_isSome {time : K} {l : DecodeLabel} {decode : DecodeSession}
    (h : s.decode.step batchSize l = some decode) :
    ∃ t, step o batchSize s (time, l) = some t := by
  cases l with
  | call => exact ⟨_, Option.map_eq_some_iff.mpr ⟨decode, h, rfl⟩⟩
  | finish => exact ⟨_, Option.map_eq_some_iff.mpr ⟨decode, h, rfl⟩⟩
  | score e =>
      cases hpc : s.decode.pc with
      | outside => simp [DecodeSession.step, DecodeSession.score, hpc] at h
      | left => simp [DecodeSession.step, DecodeSession.score, hpc] at h
      | loop batchFrame =>
          simp only [step, hpc]
          exact ⟨_, Option.map_eq_some_iff.mpr ⟨decode, h, rfl⟩⟩

theorem Slower.step (hsound : o.Sound) (h : Slower o s t) {e f : K × DecodeLabel}
    (hdelayed : Delayed e f) (hs : step o batchSize s e = some s') :
    ∃ t', step o batchSize t f = some t' ∧ Slower o s' t' := by
  obtain ⟨time, l⟩ := e
  obtain ⟨longer, m⟩ := f
  obtain ⟨heq, htime, hle⟩ := hdelayed
  dsimp only at heq htime hle
  subst heq
  have hdecode := (step_cases hs).1
  rw [← h.decode] at hdecode
  obtain ⟨t', ht⟩ : ∃ t', BeamSession.step o batchSize t (longer, l) = some t' :=
    step_isSome hdecode
  refine ⟨t', ht, ?_⟩
  have hfast := h.fast.step hsound htime hs
  have hslow := h.slow.step hsound (htime.trans hle) ht
  obtain ⟨hown, hnow, hcases⟩ := step_cases hs
  obtain ⟨hown', hnow', hcases'⟩ := step_cases ht
  have hsame : t'.decode = s'.decode := Option.some.inj (hown'.symm.trans hdecode)
  have hlooks : t.looks o l = s.looks o l := by
    unfold looks
    rw [h.decode]
  rcases hcases with ⟨hnot, hstart, hbeam, -⟩ | ⟨hlook, hstart, -, hbeam⟩
  · obtain ⟨-, hstart', hbeam', -⟩ := hcases'.resolve_right fun hlook => by
      simp [hlooks, hnot] at hlook
    refine ⟨hfast, hslow, hsame, ?_, ?_⟩
    · rw [hstart, hstart']
      split
      · rw [sub_self, sub_self]
      · rw [hnow, hnow']
        linarith [h.clock]
    · rw [hbeam, hbeam']
      exact h.beam
  · obtain ⟨-, hstart', -, hbeam'⟩ := hcases'.resolve_left fun hnot => by
      simp [hlooks, hlook] at hnot
    refine ⟨hfast, hslow, hsame, by rw [hstart, hstart', sub_self, sub_self], ?_⟩
    have helapsed : (s.wait time).elapsed ≤ (t.wait longer).elapsed := by
      show (s.now + time - s.tstart) * 1000 ≤ (t.now + longer - t.tstart) * 1000
      linarith [h.clock]
    rw [hbeam, hbeam']
    exact hsound.adjust_mono (h.slow.pos hsound).le h.beam h.fast.most
      (hsound.factor_nonneg (h.fast.elapsed_nonneg htime)) (hsound.factor_le helapsed)

/-- **A slower machine does not search wider.**  When every step of a session takes as long
or longer, the beam is as wide or narrower after it. -/
theorem beam_slower (hsound : o.Sound) {es fs : List (K × DecodeLabel)}
    (hdelayed : List.Forall₂ Delayed es fs)
    (hrun : (system o batchSize).runFrom (create o) es = some s) :
    ∃ t, (system o batchSize).runFrom (create o) fs = some t ∧ t.decode = s.decode ∧
      t.effectiveBeam ≤ s.effectiveBeam := by
  have hcreate : Slower o (create o) (create o) :=
    ⟨inv_create o, inv_create o, rfl, le_rfl, le_rfl⟩
  have hsimulates : ∃ t, (system o batchSize).runFrom (create o) fs = some t ∧ Slower o s t :=
    Transition.System.runFrom_simulates (Slower o) Delayed
      (fun _ _ _ _ _ h hd hs => h.step hsound hd hs) hcreate hdelayed hrun
  obtain ⟨t, ht, hrel⟩ := hsimulates
  exact ⟨t, ht, hrel.decode, hrel.beam⟩

end Slower

/-! ## Recovery -/

/-- The clock does not go back, and a look at it finds the frames fast. -/
def Fast (o : OnlineFasterDecoderOpts K) (s : BeamSession K) (l : K × DecodeLabel) : Prop :=
  0 ≤ l.1 ∧ (s.looks o l.2 →
    o.factor (s.wait l.1).elapsed < o.minFactor ∧ o.factor (s.wait l.1).elapsed ≤ 1)

instance (o : OnlineFasterDecoderOpts K) (s : BeamSession K) (l : K × DecodeLabel) :
    Decidable (Fast o s l) :=
  inferInstanceAs (Decidable (_ ∧ (_ → _ ∧ _)))

section Recovery

variable {o : OnlineFasterDecoderOpts K} {batchSize : Nat} {s t : BeamSession K}

/-- One step of fast frames. -/
theorem Inv.recovers (h : Inv o s) (hsound : o.Sound) {l : K × DecodeLabel} (hfast : Fast o s l)
    (hs : BeamSession.step o batchSize s l = some t) {n : Nat} {beam : K}
    (hn : min o.beam (beam * (1 + o.recovery) ^ n) ≤ s.effectiveBeam) :
    min o.beam (beam * (1 + o.recovery) ^ (n + (t.checks - s.checks))) ≤ t.effectiveBeam ∧
      s.checks ≤ t.checks := by
  obtain ⟨time, l⟩ := l
  obtain ⟨-, -, ⟨-, -, hsame, hchecks⟩ | ⟨hlooks, -, hchecks, hadjust⟩⟩ := step_cases hs
  · rw [hchecks, Nat.sub_self, Nat.add_zero, hsame]
    exact ⟨hn, le_rfl⟩
  · obtain ⟨hmin, hone⟩ := hfast.2 hlooks
    have hrate := hsound.recovery_le (hsound.factor_nonneg (h.elapsed_nonneg hfast.1))
      (not_lt.mpr hone) hmin
    have hrecovery := hsound.recovery_pos
    rw [hchecks, Nat.add_sub_cancel_left, hadjust, adjust_eq h.most]
    refine ⟨?_, Nat.le_succ _⟩
    refine le_min ?_ (min_le_left _ _)
    have hgrow : s.effectiveBeam * (1 + o.recovery) ≤
        s.effectiveBeam * (1 + o.rate (o.factor (s.wait time).elapsed)) := by
      have := (h.pos hsound).le
      gcongr
    refine le_trans ?_ hgrow
    rcases min_le_iff.mp hn with hmax | hpow
    · have hle : o.beam ≤ s.effectiveBeam * (1 + o.recovery) :=
        hmax.trans (le_mul_of_one_le_right (h.pos hsound).le (by linarith))
      exact (min_le_left _ _).trans hle
    · refine (min_le_right _ _).trans ?_
      rw [pow_succ, ← mul_assoc]
      gcongr

end Recovery

/-! ## The options of the server -/

/-- The defaults of the code, with a beam of 16. -/
def defaultOpts : OnlineFasterDecoderOpts ℚ where
  beam := 16
  rtMin := 7 / 10
  rtMax := 3 / 4
  updateInterval := 3
  beamUpdate := 1 / 100
  maxBeamUpdate := 1 / 20

theorem defaultOpts_sound : defaultOpts.Sound := by
  constructor <;> norm_num [defaultOpts]

/-- The first four frames, of which each takes this time. -/
def fourFrames (time : ℚ) : List (ℚ × DecodeLabel) :=
  [(0, .call), (time, .score ⟨true, some (27, true), false⟩),
    (time, .score ⟨true, none, false⟩), (time, .score ⟨true, none, false⟩),
    (time, .score ⟨true, none, false⟩)]

/-- The frames take a second each, a hundred times as long as they may. -/
def afterSlow : BeamSession ℚ :=
  ((system defaultOpts 27).runFrom (create defaultOpts) (fourFrames 1)).getD (create defaultOpts)

theorem afterSlow_reachable : (system defaultOpts 27).ReachableVia Forward afterSlow := by
  have hrun : (system defaultOpts 27).runVia Forward (create defaultOpts) (fourFrames 1) =
      some afterSlow := rfl
  exact Transition.System.ReachableVia.init.run hrun

theorem beam_bounds_slow :
    0 < afterSlow.effectiveBeam ∧ afterSlow.effectiveBeam ≤ 16 ∧
      16 * (1 - 1 / 20) ^ 1 ≤ afterSlow.effectiveBeam :=
  beam_bounds defaultOpts_sound afterSlow_reachable

theorem beam_slower_hundred :
    ∃ s, (system defaultOpts 27).runFrom (create defaultOpts) (fourFrames (1 / 100)) = some s ∧
      afterSlow.effectiveBeam ≤ s.effectiveBeam := by
  obtain ⟨s, hs⟩ : ∃ s, (system defaultOpts 27).runFrom (create defaultOpts)
      (fourFrames (1 / 100)) = some s := ⟨_, rfl⟩
  have hdelayed : List.Forall₂ Delayed (fourFrames (1 / 100)) (fourFrames 1) := by
    simp only [fourFrames, List.forall₂_cons, Delayed]
    norm_num
  have hslow : (system defaultOpts 27).runFrom (create defaultOpts) (fourFrames 1) =
      some afterSlow := rfl
  obtain ⟨t, ht, -, hle⟩ := beam_slower defaultOpts_sound hdelayed hs
  obtain rfl := Option.some.inj (ht.symm.trans hslow)
  exact ⟨s, hs, hle⟩

/-- Three more frames, which take no time. -/
def afterFast : BeamSession ℚ :=
  ((system defaultOpts 27).runFrom afterSlow
    (List.replicate 3 (0, .score ⟨true, none, false⟩))).getD afterSlow

end BeamSession

end ThreadedServer
