import Mathlib.Tactic.ByContra
import Mathlib.Tactic.Basic

/-!
# The energy detector

`SimpleEnergyVad::Process` judges one frame after the other by its energy.  Speech
begins when the energy exceeds one threshold; it is about to end when the energy
falls below a second one; and it has ended when the energy has then stayed at or
below a third one for long enough.  Nothing is said of the order of the three.

The counter is tested before it is incremented and has to exceed
`hangover_frames_`, so the end comes two frames later than the name of the member
suggests: with the second frame after the first `hangover_frames_` quiet ones.
-/

namespace ThreadedServer

/-- `SimpleEnergyVad::VadState` -/
inductive VadState
  | silence
  | endingSpeech
  | speech
  deriving DecidableEq, Repr

/-- What the constructor of `SimpleEnergyVad` is given. -/
structure VadThresholds (E : Type*) where
  onset : E
  offset : E
  recover : E
  hangoverFrames : Nat

/-- The members that `Process` changes. -/
structure SimpleEnergyVad where
  hangoverCounter : Nat
  state : VadState
  deriving DecidableEq, Repr

namespace SimpleEnergyVad

variable {E : Type*} [LT E] [DecidableLT E]

/-- The constructor. -/
def create : SimpleEnergyVad := ⟨0, .silence⟩

/-- The answer of `Process` in a state. -/
def vad (v : SimpleEnergyVad) : Bool := v.state = .speech || v.state = .endingSpeech

/-- The change of state in `Process`. -/
def next (t : VadThresholds E) (v : SimpleEnergyVad) (energy : E) : SimpleEnergyVad :=
  if v.state = .silence ∧ t.onset < energy then { v with state := .speech }
  else if v.state = .speech ∧ energy < t.offset then
    { hangoverCounter := 0, state := .endingSpeech }
  else if v.state = .endingSpeech then
    if t.recover < energy then { v with state := .speech }
    -- `hangover_counter_++ > hangover_frames_`
    else if v.hangoverCounter > t.hangoverFrames then
      { hangoverCounter := v.hangoverCounter + 1, state := .silence }
    else { v with hangoverCounter := v.hangoverCounter + 1 }
  else v

def process (t : VadThresholds E) (v : SimpleEnergyVad) (energy : E) : SimpleEnergyVad × Bool :=
  (next t v energy, (next t v energy).vad)

section Next

variable {t : VadThresholds E} {v : SimpleEnergyVad} {energy : E}

theorem next_silence (h : v.state = .silence) :
    (next t v energy).state = if t.onset < energy then .speech else .silence := by
  by_cases honset : t.onset < energy <;> simp [next, h, honset]

theorem next_speech (h : v.state = .speech) :
    (next t v energy).state = if energy < t.offset then .endingSpeech else .speech := by
  by_cases hoffset : energy < t.offset <;> simp [next, h, hoffset]

/-- The counter begins at zero. -/
theorem next_below (h : v.state = .speech) (hoffset : energy < t.offset) :
    next t v energy = ⟨0, .endingSpeech⟩ := by
  simp [next, h, hoffset]

theorem next_recover (h : v.state = .endingSpeech) (hrecover : t.recover < energy) :
    next t v energy = { v with state := .speech } := by
  simp [next, h, hrecover]

theorem next_quiet (h : v.state = .endingSpeech) (hrecover : ¬ t.recover < energy) :
    next t v energy =
      ⟨v.hangoverCounter + 1,
        if v.hangoverCounter > t.hangoverFrames then .silence else .endingSpeech⟩ := by
  by_cases hcounter : v.hangoverCounter > t.hangoverFrames <;>
    simp [next, h, hrecover, hcounter]

end Next

/-! ## Runs -/

/-- The detector when the first `n` frames have been processed. -/
def after (t : VadThresholds E) (e : Nat → E) : Nat → SimpleEnergyVad
  | 0 => create
  | n + 1 => (process t (after t e n) (e n)).1

/-- The answer of `Process` for frame `n`. -/
def answer (t : VadThresholds E) (e : Nat → E) (n : Nat) : Bool :=
  (process t (after t e n) (e n)).2

/-- The answer for the frame before; there has been no speech before the first one. -/
def lastAnswer (t : VadThresholds E) (e : Nat → E) : Nat → Bool
  | 0 => false
  | n + 1 => answer t e n

/-- The answer turns from false to true at frame `n`. -/
def Rises (t : VadThresholds E) (e : Nat → E) (n : Nat) : Prop :=
  lastAnswer t e n = false ∧ answer t e n = true

/-- The answer turns from true to false at frame `n`. -/
def Falls (t : VadThresholds E) (e : Nat → E) (n : Nat) : Prop :=
  lastAnswer t e n = true ∧ answer t e n = false

/-- Frame `m` is processed in the speech state and has too little energy for it. -/
def Drops (t : VadThresholds E) (e : Nat → E) (m : Nat) : Prop :=
  (after t e m).state = .speech ∧ e m < t.offset

/-- The frames between `m` and `n` have energies that are not above
`recover_threshold_`. -/
def Quiet (t : VadThresholds E) (e : Nat → E) (m n : Nat) : Prop :=
  ∀ k, m < k → k < n → ¬ t.recover < e k

section Runs

variable {t : VadThresholds E} {e : Nat → E} {m n k j : Nat}

theorem after_succ : after t e (n + 1) = next t (after t e n) (e n) := rfl

theorem answer_eq : answer t e n = (after t e (n + 1)).vad := rfl

theorem lastAnswer_eq : lastAnswer t e n = (after t e n).vad := by
  cases n with
  | zero => rfl
  | succ n => rfl

theorem vad_eq_false {v : SimpleEnergyVad} : v.vad = false ↔ v.state = .silence := by
  cases hv : v.state <;> simp [vad, hv]

theorem vad_eq_true {v : SimpleEnergyVad} :
    v.vad = true ↔ v.state = .speech ∨ v.state = .endingSpeech := by
  cases hv : v.state <;> simp [vad, hv]

/-- While an ending goes on, the counter tells which frame it began with. -/
theorem ending_since (h : (after t e n).state = .endingSpeech) :
    ∃ m, n = m + 1 + (after t e n).hangoverCounter ∧
      (after t e n).hangoverCounter ≤ t.hangoverFrames + 1 ∧
      Drops t e m ∧ Quiet t e m n := by
  induction n with
  | zero => cases h
  | succ n ih =>
      rw [after_succ] at h ⊢
      cases hstate : (after t e n).state with
      | silence =>
          rw [next_silence hstate] at h
          split at h <;> cases h
      | speech =>
          by_cases hoffset : e n < t.offset
          · rw [next_below hstate hoffset]
            refine ⟨n, rfl, Nat.zero_le _, ⟨hstate, hoffset⟩, ?_⟩
            intro k hlo hhi
            omega
          · rw [next_speech hstate, if_neg hoffset] at h
            cases h
      | endingSpeech =>
          by_cases hrecover : t.recover < e n
          · rw [next_recover hstate hrecover] at h
            cases h
          · obtain ⟨m, hn, -, hdrops, hquiet⟩ := ih hstate
            rw [next_quiet hstate hrecover] at h ⊢
            have hcounter : ¬ (after t e n).hangoverCounter > t.hangoverFrames := by
              intro hlt
              simp [hlt] at h
            refine ⟨m, ?_, ?_, hdrops, ?_⟩
            · show n + 1 = m + 1 + ((after t e n).hangoverCounter + 1)
              omega
            · show (after t e n).hangoverCounter + 1 ≤ t.hangoverFrames + 1
              omega
            · intro k hlo hhi
              rcases Nat.lt_or_ge k n with hlt | hge
              · exact hquiet k hlo hlt
              · obtain rfl : k = n := by omega
                exact hrecover

/-- The counter never exceeds `hangover_frames_` by more than two. -/
theorem hangoverCounter_le (n : Nat) : (after t e n).hangoverCounter ≤ t.hangoverFrames + 2 := by
  induction n with
  | zero => exact Nat.zero_le _
  | succ n ih =>
      rw [after_succ, next]
      split
      · exact ih
      split
      · exact Nat.zero_le _
      split
      case isFalse => exact ih
      case isTrue hstate =>
        obtain ⟨-, -, hle, -⟩ := ending_since hstate
        split
        · exact ih
        split
        · exact Nat.succ_le_succ hle
        · exact Nat.succ_le_succ hle

/-- An ending goes on as long as the frames are quiet. -/
theorem Drops.ending (h : Drops t e m) (hj : j ≤ t.hangoverFrames + 1)
    (hquiet : Quiet t e m (m + 1 + j)) : after t e (m + 1 + j) = ⟨j, .endingSpeech⟩ := by
  induction j with
  | zero => exact next_below h.1 h.2
  | succ j ih =>
      have hprev : after t e (m + 1 + j) = ⟨j, .endingSpeech⟩ := by
        apply ih (by omega)
        intro k hlo hhi
        exact hquiet k hlo (by omega)
      have hstate : (after t e (m + 1 + j)).state = .endingSpeech := by rw [hprev]
      have hlow : ¬ t.recover < e (m + 1 + j) := hquiet _ (by omega) (by omega)
      have hcounter : ¬ j > t.hangoverFrames := by omega
      rw [← Nat.add_assoc, after_succ, next_quiet hstate hlow, hprev]
      simp only [hcounter, if_false]

theorem rises_iff :
    Rises t e n ↔ lastAnswer t e n = false ∧ t.onset < e n := by
  rw [Rises, and_congr_right_iff, lastAnswer_eq, vad_eq_false]
  intro hstate
  rw [answer_eq, vad_eq_true, after_succ, next_silence hstate]
  by_cases honset : t.onset < e n <;> simp [honset]

theorem falls_iff :
    Falls t e n ↔ ∃ m, n = m + (t.hangoverFrames + 2) ∧ Drops t e m ∧ Quiet t e m (n + 1) := by
  rw [Falls, lastAnswer_eq, answer_eq, vad_eq_true, vad_eq_false, after_succ]
  constructor
  · intro h
    obtain ⟨hspeech | hending, hfalls⟩ := h
    · rw [next_speech hspeech] at hfalls
      split at hfalls <;> cases hfalls
    · obtain ⟨m, hn, hle, hdrops, hquiet⟩ := ending_since hending
      by_cases hrecover : t.recover < e n
      · rw [next_recover hending hrecover] at hfalls
        cases hfalls
      · rw [next_quiet hending hrecover] at hfalls
        have hcounter : (after t e n).hangoverCounter > t.hangoverFrames := by
          by_contra hle
          simp [hle] at hfalls
        refine ⟨m, by omega, hdrops, ?_⟩
        intro k hlo hhi
        rcases Nat.lt_or_ge k n with hlt | hge
        · exact hquiet k hlo hlt
        · obtain rfl : k = n := by omega
          exact hrecover
  · intro h
    obtain ⟨m, rfl, hdrops, hquiet⟩ := h
    have hending : after t e (m + (t.hangoverFrames + 2)) =
        ⟨t.hangoverFrames + 1, .endingSpeech⟩ := by
      have hsum : m + (t.hangoverFrames + 2) = m + 1 + (t.hangoverFrames + 1) := by omega
      rw [hsum]
      apply hdrops.ending (Nat.le_refl _)
      intro k hlo hhi
      exact hquiet k hlo (by omega)
    have hstate : (after t e (m + (t.hangoverFrames + 2))).state = .endingSpeech := by
      rw [hending]
    have hlow : ¬ t.recover < e (m + (t.hangoverFrames + 2)) :=
      hquiet _ (by omega) (by omega)
    refine ⟨Or.inr hstate, ?_⟩
    rw [next_quiet hstate hlow, hending]
    exact if_pos (Nat.lt_succ_self _)

/-- A frame above `recover_threshold_` during an ending leads back to speech, -/
theorem Drops.recovers (h : Drops t e m) (hlo : m < k) (hhi : k ≤ m + (t.hangoverFrames + 2))
    (hquiet : Quiet t e m k) (hrecover : t.recover < e k) :
    (after t e k).state = .endingSpeech ∧ (after t e (k + 1)).state = .speech := by
  obtain ⟨j, rfl⟩ : ∃ j, k = m + 1 + j := ⟨k - (m + 1), by omega⟩
  have hstate : (after t e (m + 1 + j)).state = .endingSpeech := by
    rw [h.ending (by omega) hquiet]
  refine ⟨hstate, ?_⟩
  rw [after_succ, next_recover hstate hrecover]

/-- and what ends later began to end later. -/
theorem Falls.after_recover (h : Falls t e n) (hk : (after t e k).state = .endingSpeech)
    (hrecover : t.recover < e k) (hle : k ≤ n) :
    ∃ m, k < m ∧ n = m + (t.hangoverFrames + 2) ∧ Drops t e m ∧ Quiet t e m (n + 1) := by
  obtain ⟨m, hn, hdrops, hquiet⟩ := falls_iff.mp h
  refine ⟨m, ?_, hn, hdrops, hquiet⟩
  rcases Nat.lt_trichotomy k m with hlt | heq | hgt
  · exact hlt
  · have hspeech := hdrops.1
    rw [← heq, hk] at hspeech
    cases hspeech
  · exact absurd hrecover (hquiet k hgt (by omega))

end Runs

/-- **When speech begins and when it ends.**  For a fresh detector and any energies: the
answer becomes true with a frame above `onset_threshold_`; it becomes false with the
last of `hangover_frames_ + 2` quiet frames behind one that fell below
`offset_threshold_` in the speech state; and a frame above `recover_threshold_` among
them leads back to speech, such that a later end has its own falling frame and its own
quiet frames, all behind that one. -/
theorem process_turns (t : VadThresholds E) (e : Nat → E) (n : Nat) :
    (Rises t e n ↔ lastAnswer t e n = false ∧ t.onset < e n) ∧
    (Falls t e n ↔
      ∃ m, n = m + (t.hangoverFrames + 2) ∧ Drops t e m ∧ Quiet t e m (n + 1)) ∧
    ∀ m k, Drops t e m → m < k → k ≤ m + (t.hangoverFrames + 2) → Quiet t e m k →
      t.recover < e k →
      (after t e (k + 1)).state = .speech ∧
      (k ≤ n → Falls t e n →
        ∃ m', k < m' ∧ n = m' + (t.hangoverFrames + 2) ∧ Drops t e m' ∧
          Quiet t e m' (n + 1)) := by
  refine ⟨rises_iff, falls_iff, ?_⟩
  intro m k hdrops hlo hhi hquiet hrecover
  obtain ⟨hending, hspeech⟩ := hdrops.recovers hlo hhi hquiet hrecover
  refine ⟨hspeech, ?_⟩
  intro hle hfalls
  exact hfalls.after_recover hending hrecover hle

/-- With no hangover at all, speech still ends only with the second quiet frame. -/
example : (List.range 5).map (answer ⟨10, 5, 7, 0⟩ fun n => [20, 3, 6, 7, 1].getD n 0) =
    [true, true, true, false, false] := by decide

end SimpleEnergyVad

end ThreadedServer
