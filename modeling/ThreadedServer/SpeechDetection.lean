import Mathlib.Algebra.Order.Ring.Nat
import ThreadedServer.EnergyVad
import ThreadedServer.Hangover

/-!
# From energies to utterances

`DoVad` cuts the samples at the back of the buffer into frames, has `SimpleEnergyVad`
process them one after the other, and takes the batch for speech if more than three tenths
of its frames are.  The detector goes on from batch to batch.

A frame above the first threshold keeps it in speech for `hangover_frames_ + 2` frames more,
however quiet these are; and after one quiet frame more it is silent for as long as they
stay quiet.  So the feature input loses no loud speech, extracts nothing where nothing has
been loud, and ends each utterance that is followed by silence.

How a frame is cut out and what its energy is are left open, and so is the arithmetic of
the ratio at three tenths exactly.
-/

namespace ThreadedServer

/-- `num_speech_frames/float(num_frames) > .3`, for numbers of frames that a `float` can
tell apart. -/
structure SpeechRatio where
  exceeded : Nat → Nat → Bool
  above : ∀ n frames, frames < 2 ^ 20 → 3 * frames < 10 * n → exceeded n frames = true
  /-- with no frames the ratio is not a number -/
  none : ∀ frames, exceeded 0 frames = false

namespace SimpleEnergyVad

variable {E : Type*} [LinearOrder E]

/-- The loop of `DoVad` over the frames: the detector and `num_speech_frames`. -/
def countSpeech (t : VadThresholds E) (v : SimpleEnergyVad) : List E → SimpleEnergyVad × Nat
  | [] => (v, 0)
  | energy :: energies =>
      let (v, speech) := process t v energy
      let (v, n) := countSpeech t v energies
      (v, (if speech then 1 else 0) + n)

/-- `DoVad`, for a batch whose frames have these energies. -/
def doVad (ratio : SpeechRatio) (t : VadThresholds E) (v : SimpleEnergyVad) (energies : List E) :
    SimpleEnergyVad × Bool :=
  let (v, n) := countSpeech t v energies
  (v, ratio.exceeded n energies.length)

section Count

variable {t : VadThresholds E} {v : SimpleEnergyVad} {energy : E} {energies : List E}

/-- The frames that are taken for speech whatever their energies. -/
def reserve (t : VadThresholds E) (v : SimpleEnergyVad) : Nat :=
  match v.state with
  | .silence => 0
  | .endingSpeech => t.hangoverFrames + 1 - v.hangoverCounter
  | .speech => t.hangoverFrames + 2

/-- A frame uses up one of them. -/
theorem reserve_next (t : VadThresholds E) (v : SimpleEnergyVad) (energy : E) :
    reserve t v ≤ reserve t (next t v energy) + 1 ∧
      (0 < reserve t v → (next t v energy).vad = true) := by
  obtain ⟨counter, state⟩ := v
  cases state with
  | silence =>
      refine ⟨Nat.zero_le _, ?_⟩
      intro hpos
      cases hpos
  | speech =>
      by_cases hoffset : energy < t.offset
      · rw [next_below rfl hoffset]
        simp [reserve, vad]
      · have hstate : (next t ⟨counter, .speech⟩ energy).state = .speech := by
          rw [next_speech rfl, if_neg hoffset]
        simp [reserve, vad, hstate]
  | endingSpeech =>
      by_cases hrecover : t.recover < energy
      · rw [next_recover rfl hrecover]
        simp only [reserve, vad]
        refine ⟨by omega, fun _ => rfl⟩
      · rw [next_quiet rfl hrecover]
        by_cases hcounter : counter > t.hangoverFrames
        · simp only [reserve, hcounter, if_true]
          refine ⟨by omega, ?_⟩
          intro hpos
          omega
        · simp only [reserve, hcounter, if_false, vad]
          refine ⟨by omega, fun _ => rfl⟩

theorem le_countSpeech (t : VadThresholds E) (v : SimpleEnergyVad) (energies : List E) :
    min (reserve t v) energies.length ≤ (countSpeech t v energies).2 := by
  induction energies generalizing v with
  | nil => exact Nat.min_le_right _ _
  | cons energy energies ih =>
      obtain ⟨hstep, hvad⟩ := reserve_next t v energy
      have hrest := ih (next t v energy)
      show _ ≤ (if (next t v energy).vad then 1 else 0) + (countSpeech t (next t v energy)
        energies).2
      rw [List.length_cons]
      by_cases hpos : 0 < reserve t v
      · rw [hvad hpos, if_pos rfl]
        omega
      · omega

/-- A loud frame is taken for speech. -/
theorem next_loud (hoffset : t.offset ≤ t.onset) (hrecover : t.recover ≤ t.onset)
    (hloud : t.onset < energy) : (next t v energy).state = .speech := by
  obtain ⟨counter, state⟩ := v
  cases state with
  | silence => rw [next_silence rfl, if_pos hloud]
  | speech => rw [next_speech rfl, if_neg (not_lt_of_ge (le_trans hoffset (le_of_lt hloud)))]
  | endingSpeech => rw [next_recover rfl (lt_of_le_of_lt hrecover hloud)]

/-- A frame is loud, and there are enough frames behind it. -/
def Loud (t : VadThresholds E) (energies : List E) : Prop :=
  energies.length < 2 ^ 20 ∧
    ∃ before energy after, energies = before ++ energy :: after ∧ t.onset < energy ∧
      3 * energies.length < 10 * min (after.length + 1) (t.hangoverFrames + 3)

theorem countSpeech_append (t : VadThresholds E) (v : SimpleEnergyVad) (before after : List E) :
    (countSpeech t v (before ++ after)).2 = (countSpeech t v before).2 +
      (countSpeech t (countSpeech t v before).1 after).2 := by
  induction before generalizing v with
  | nil => simp [countSpeech]
  | cons energy before ih =>
      simp only [List.cons_append, countSpeech, ih]
      omega

/-- A loud batch is judged to be speech, whatever came before it. -/
theorem doVad_loud (ratio : SpeechRatio) (hoffset : t.offset ≤ t.onset)
    (hrecover : t.recover ≤ t.onset) (hloud : Loud t energies) (v : SimpleEnergyVad) :
    (doVad ratio t v energies).2 = true := by
  obtain ⟨hframes, before, energy, after, hsplit, honset, hmany⟩ := hloud
  apply ratio.above _ _ hframes
  have hspeech := next_loud (v := (countSpeech t v before).1) hoffset hrecover honset
  have hvad : (next t (countSpeech t v before).1 energy).vad = true :=
    vad_eq_true.mpr (.inl hspeech)
  have hreserve : reserve t (next t (countSpeech t v before).1 energy) = t.hangoverFrames + 2 := by
    rw [reserve, hspeech]
  have hafter := le_countSpeech t (next t (countSpeech t v before).1 energy) after
  have hcount : (countSpeech t (countSpeech t v before).1 (energy :: after)).2 =
      1 + (countSpeech t (next t (countSpeech t v before).1 energy) after).2 := by
    show (if (next t (countSpeech t v before).1 energy).vad then 1 else 0) + _ = _
    rw [hvad, if_pos rfl]
  have htotal := countSpeech_append t v before (energy :: after)
  rw [← hsplit, hcount] at htotal
  rw [hreserve] at hafter
  omega

/-- A frame below all three thresholds. -/
def Silent (t : VadThresholds E) (energy : E) : Prop :=
  energy ≤ t.onset ∧ energy < t.offset ∧ energy ≤ t.recover

/-- The quiet frames that lead to silence. -/
def untilSilence (t : VadThresholds E) (v : SimpleEnergyVad) : Nat :=
  if v.state = .silence then 0 else reserve t v + 1

omit [LinearOrder E] in
theorem untilSilence_eq_zero : untilSilence t v = 0 ↔ v.state = .silence := by
  unfold untilSilence
  split
  case isTrue h => exact ⟨fun _ => h, fun _ => rfl⟩
  case isFalse h => simp [h]

omit [LinearOrder E] in
theorem untilSilence_le : untilSilence t v ≤ t.hangoverFrames + 3 := by
  obtain ⟨counter, state⟩ := v
  cases state <;> simp only [untilSilence, reserve] <;> split <;> omega

theorem next_silent_silence (honset : energy ≤ t.onset) (hstate : v.state = .silence) :
    (next t v energy).state = .silence := by
  rw [next_silence hstate, if_neg (not_lt_of_ge honset)]

theorem untilSilence_next (hquiet : Silent t energy) :
    untilSilence t (next t v energy) ≤ untilSilence t v - 1 := by
  obtain ⟨honset, hoffset, hrecover⟩ := hquiet
  obtain ⟨counter, state⟩ := v
  cases state with
  | silence =>
      rw [untilSilence_eq_zero.mpr (next_silent_silence honset rfl)]
      exact Nat.zero_le _
  | speech =>
      rw [next_below rfl hoffset]
      exact Nat.le_refl _
  | endingSpeech =>
      rw [next_quiet rfl (not_lt_of_ge hrecover)]
      by_cases hcounter : counter > t.hangoverFrames
      · rw [untilSilence_eq_zero.mpr (if_pos hcounter)]
        exact Nat.zero_le _
      · simp only [untilSilence, reserve, hcounter, if_false, reduceCtorEq]
        omega

/-- In silence it takes a loud frame to count one. -/
theorem countSpeech_silence (hquiet : ∀ energy ∈ energies, energy ≤ t.onset)
    (hstate : v.state = .silence) :
    (countSpeech t v energies).1.state = .silence ∧ (countSpeech t v energies).2 = 0 := by
  induction energies generalizing v with
  | nil => exact ⟨hstate, rfl⟩
  | cons energy energies ih =>
      obtain ⟨honset, hrest⟩ := List.forall_mem_cons.mp hquiet
      have hnext := next_silent_silence honset hstate
      obtain ⟨hend, hcount⟩ := ih hrest hnext
      refine ⟨hend, ?_⟩
      show (if (next t v energy).vad then 1 else 0) + _ = 0
      rw [vad_eq_false.mpr hnext, hcount]
      rfl

theorem untilSilence_countSpeech (hquiet : ∀ energy ∈ energies, Silent t energy) :
    untilSilence t (countSpeech t v energies).1 ≤ untilSilence t v - energies.length := by
  induction energies generalizing v with
  | nil => exact Nat.le_refl _
  | cons energy energies ih =>
      obtain ⟨hfirst, hrest⟩ := List.forall_mem_cons.mp hquiet
      have hnext := untilSilence_next (v := v) hfirst
      have hend := ih (v := next t v energy) hrest
      show untilSilence t (countSpeech t (next t v energy) energies).1 ≤ _
      rw [List.length_cons]
      omega

/-- A batch without a loud frame is not judged to be speech by a silent detector. -/
theorem doVad_silence (ratio : SpeechRatio) (hquiet : ∀ energy ∈ energies, energy ≤ t.onset)
    (hstate : v.state = .silence) :
    (doVad ratio t v energies).1.state = .silence ∧ (doVad ratio t v energies).2 = false := by
  obtain ⟨hend, hcount⟩ := countSpeech_silence hquiet hstate
  refine ⟨hend, ?_⟩
  show ratio.exceeded (countSpeech t v energies).2 _ = false
  rw [hcount, ratio.none]

end Count

end SimpleEnergyVad

/-! ## The feature input with its detector -/

/-- The feature input, the detector, and the energies that it has processed in the
iterations so far, the last one first. -/
structure DetectedSession (α E : Type*) where
  session : VadSession α
  detector : SimpleEnergyVad
  judged : List (List E)
  deriving DecidableEq, Repr

/-- The steps of the feature input, with the energies of the frames at the back of the
buffer in place of the answer. -/
inductive DetectedLabel (α E : Type*)
  | call (c : ComputeCall) (first : List α)
  | batch (energies : List E) (block : List α)
  deriving DecidableEq, Repr

namespace DetectedSession

open SimpleEnergyVad VadSession

variable {α E : Type*} [LinearOrder E]

def create (o : VadOptions) : DetectedSession α E := ⟨.create o, .create, []⟩

def step (o : VadOptions) (ratio : SpeechRatio) (t : VadThresholds E)
    (s : DetectedSession α E) : DetectedLabel α E → Option (DetectedSession α E)
  | .call c first => (s.session.enter o c first).map fun session => { s with session }
  | .batch energies block =>
      let (detector, speech) := doVad ratio t s.detector energies
      (s.session.batch o speech block).map fun session =>
        { session, detector, judged := energies :: s.judged }

/-- The feature input and the detector under all energies. -/
def system (o : VadOptions) (ratio : SpeechRatio) (t : VadThresholds E) (α : Type*) :
    Transition.System (DetectedSession α E) (DetectedLabel α E) where
  init := create o
  step := step o ratio t

/-- What the step is for the feature input. -/
def vadLabel (ratio : SpeechRatio) (t : VadThresholds E) (s : DetectedSession α E) :
    DetectedLabel α E → VadLabel α
  | .call c first => .call c first
  | .batch energies block => .batch (doVad ratio t s.detector energies).2 block

/-- Speech does not resume while an end is held back, and no end outruns the speech. -/
def Steady (o : VadOptions) (ratio : SpeechRatio) (t : VadThresholds E)
    (s : DetectedSession α E) (l : DetectedLabel α E) : Prop :=
  VadSession.Steady o s.session (vadLabel ratio t s l)

instance (o : VadOptions) (ratio : SpeechRatio) (t : VadThresholds E)
    (s : DetectedSession α E) (l : DetectedLabel α E) : Decidable (Steady o ratio t s l) :=
  inferInstanceAs (Decidable (VadSession.Steady _ _ _))

section Steps

variable {o : VadOptions} {ratio : SpeechRatio} {t : VadThresholds E}
  {s s' : DetectedSession α E}

/-- The two steps. -/
theorem step_cases {l : DetectedLabel α E} (h : (system o ratio t α).step s l = some s') :
    (∃ c first, l = .call c first ∧ s.session.enter o c first = some s'.session ∧
      s'.detector = s.detector ∧ s'.judged = s.judged) ∨
    ∃ energies block c b, l = .batch energies block ∧
      Iterated o s.session s'.session c b ∧
      b.speech = (doVad ratio t s.detector energies).2 ∧
      s'.detector = (doVad ratio t s.detector energies).1 ∧
      s'.judged = energies :: s.judged := by
  cases l with
  | call c first =>
      obtain ⟨session, hsession, rfl⟩ := Option.map_eq_some_iff.mp h
      exact .inl ⟨c, first, rfl, hsession, rfl, rfl⟩
  | batch energies block =>
      obtain ⟨session, hsession, rfl⟩ := Option.map_eq_some_iff.mp h
      obtain ⟨c, b, hit, hspeech, -⟩ := batch_iterated hsession
      exact .inr ⟨energies, block, c, b, rfl, hit, hspeech, rfl, rfl⟩

theorem step_session {l : DetectedLabel α E} (h : (system o ratio t α).step s l = some s') :
    (VadSession.system o α).step s.session (vadLabel ratio t s l) = some s'.session := by
  cases l with
  | call c first =>
      obtain ⟨session, hsession, rfl⟩ := Option.map_eq_some_iff.mp h
      exact hsession
  | batch energies block =>
      obtain ⟨session, hsession, rfl⟩ := Option.map_eq_some_iff.mp h
      exact hsession

end Steps

/-- The ratio in whole numbers. -/
def threeTenths : SpeechRatio where
  exceeded n frames := 3 * frames < 10 * n
  above _ _ _ h := decide_eq_true h
  none _ := decide_eq_false (Nat.not_lt_zero _)

/-- Speech above 10, and no hangover. -/
def aboveTen : VadThresholds Nat := ⟨10, 5, 7, 0⟩

/-- A call of `Compute` for one frame, and an iteration of it. -/
def oneFrame (energies : List Nat) : List (DetectedLabel Nat Nat) :=
  [.call ⟨1, none⟩ [], .batch energies [0]]

/-! ## Loud speech is extracted -/

/-- The iterations with the energies that were processed in them, the last one first. -/
def batches (s : DetectedSession α E) : List (Batch α × List E) := s.session.log.zip s.judged

/-- Every loud batch was judged to be speech. -/
def Heard (t : VadThresholds E) (s : DetectedSession α E) : Prop :=
  List.Forall₂ (fun b energies => Loud t energies → b.speech = true) s.session.log s.judged

section Loud

variable {o : VadOptions} {ratio : SpeechRatio} {t : VadThresholds E}
  {s : DetectedSession α E}

theorem enter_log {o : VadOptions} {s s' : VadSession α} {c : ComputeCall} {first : List α}
    (h : s.enter o c first = some s') : s'.log = s.log := by
  obtain ⟨-, ⟨-, rfl⟩ | ⟨-, -, -, -, -, hlog, -⟩⟩ := enter_cases h
  · rfl
  · exact hlog

theorem heard_of_reachable (hoffset : t.offset ≤ t.onset) (hrecover : t.recover ≤ t.onset)
    (h : (system o ratio t α).Reachable s) : Heard t s := by
  refine Transition.System.Reachable.invariant (Heard t) ?_ ?_ h
  · exact .nil
  intro s l s' hheard hs
  rcases step_cases hs with ⟨c, first, -, henter, -, hjudged⟩ |
    ⟨energies, block, c, b, -, hit, hspeech, -, hjudged⟩
  · rw [Heard, enter_log henter, hjudged]
    exact hheard
  · rw [Heard, hit.log, hjudged]
    refine .cons ?_ hheard
    intro hloud
    rw [hspeech]
    exact doVad_loud ratio hoffset hrecover hloud s.detector

/-- **No loud speech is lost.**  In runs in which speech does not resume while an end is
held back: at every end of speech, whatever energies were processed, the samples of each
batch with a loud frame and enough frames behind it have been given to the extractor. -/
theorem loud_extracted (ho : 0 < o.nVadListeners) (hshift : o.frameShift ≤ o.frameSize)
    (hoffset : t.offset ≤ t.onset) (hrecover : t.recover ≤ t.onset)
    (h : (system o ratio t α).ReachableVia (Steady o ratio t) s)
    {newer older : List (Batch α × List E)} {b : Batch α × List E}
    (hsplit : batches s = newer ++ b :: older) (hends : Ends b.1) :
    ∀ c ∈ older, Loud t c.2 → ∀ p, Judged o s.session.feInput.bufferLength c.1 p →
      Extracted o (older.map Prod.fst) p := by
  intro c hc hloud p hp
  have hsteady : (VadSession.system o α).ReachableVia (VadSession.Steady o) s.session :=
    h.project DetectedSession.session (vadLabel ratio t) rfl fun _ _ _ => step_session
  have hheard := heard_of_reachable hoffset hrecover h.reachable
  have hlog : s.session.log = newer.map Prod.fst ++ b.1 :: older.map Prod.fst := by
    rw [← List.map_fst_zip (Nat.le_of_eq hheard.length_eq)]
    show (batches s).map Prod.fst = _
    rw [hsplit, List.map_append, List.map_cons]
  have hspeech : c.1.speech = true := by
    apply (List.forall₂_iff_zip.mp hheard).2 _ hloud
    show c ∈ batches s
    rw [hsplit]
    exact List.mem_append_right _ (List.mem_cons_of_mem _ hc)
  exact ((paused_of_steady ho hshift hsteady).ends _ _ _ hlog hends).kept c.1
    (List.mem_map_of_mem hc) hspeech p hp

/-- One loud frame, three quiet ones, and two more until the end. -/
theorem loud_extracted_one : ∃ (s : DetectedSession Nat Nat) (b c : Batch Nat × List Nat)
    (older : List (Batch Nat × List Nat)), batches s = b :: older ∧ Ends b.1 ∧ c ∈ older ∧
      c.2 = [20] ∧ ∀ p, Judged oneSample s.session.feInput.bufferLength c.1 p →
        Extracted oneSample (older.map Prod.fst) p := by
  have hrun : ∃ s, (system oneSample threeTenths aboveTen Nat).runVia
      (Steady oneSample threeTenths aboveTen) (create oneSample)
      (oneFrame [20] ++ oneFrame [1, 1, 1] ++ oneFrame [1] ++ oneFrame [1]) = some s ∧
      ∃ b older c, batches s = b :: older ∧ (0, VadEvent.speechEnd) ∈ b.1.events ∧
        c ∈ older ∧ c.2 = [20] :=
    ⟨_, rfl, _, _, _, rfl, List.mem_singleton_self _, .tail _ (.tail _ (.head _)), rfl⟩
  obtain ⟨s, hs, b, older, c, hsplit, hends, hc, henergies⟩ := hrun
  have hsplit' : batches s = [] ++ b :: older := hsplit
  have hloud : SimpleEnergyVad.Loud aboveTen c.2 := by
    rw [henergies]
    exact ⟨by decide, [], 20, [], rfl, by decide, by decide⟩
  exact ⟨s, b, c, older, hsplit, ⟨0, hends⟩, hc, henergies,
    loud_extracted (by decide) (by decide) (by decide) (by decide)
      (Transition.System.ReachableVia.init.run hs) hsplit' ⟨0, hends⟩ c hc hloud⟩

end Loud

/-! ## Nothing is heard where nothing is loud -/

section Quiet

variable {o : VadOptions} {ratio : SpeechRatio} {t : VadThresholds E}
  {s : DetectedSession α E}

/-- What holds as long as no frame has been loud. -/
structure Idle (o : VadOptions) (s : DetectedSession α E) : Prop where
  detector : s.detector.state = .silence
  vad : s.session.feInput.batchVad = false
  log : ∀ b ∈ s.session.log, b.features = none ∧ b.events = [] ∧
    (b.block.length = o.samplesReq b.nvec → b.returned = none)

theorem enter_feInput {o : VadOptions} {s s' : VadSession α} {c : ComputeCall}
    {first : List α} (h : s.enter o c first = some s') :
    s'.feInput.batchVad = s.feInput.batchVad ∧
      s'.feInput.hangoverCount = s.feInput.hangoverCount ∧
      s.feInput.bufferLength ≤ s'.feInput.bufferLength := by
  obtain ⟨-, ⟨-, rfl⟩ | ⟨-, -, -, hfe, -, -, -⟩⟩ := enter_cases h
  · exact ⟨rfl, rfl, Nat.le_refl _⟩
  · rw [hfe]
    refine ⟨initBuffer_same.1, initBuffer_same.2.1, ?_⟩
    unfold OnlineVadFeInput.initBuffer
    split
    · exact Nat.le_refl _
    · exact Nat.le_add_right _ _

omit [LinearOrder E] in
theorem Idle.iterated (h : Idle o s) {s' : DetectedSession α E} {c : ComputeCall}
    {b : Batch α} (hit : Iterated o s.session s'.session c b) (hspeech : b.speech = false)
    (hdetector : s'.detector.state = .silence) : Idle o s' := by
  have hvad := h.vad
  have hnotice := hit.notice
  rw [hvad, hspeech, OnlineVadFeInput.notify_same] at hnotice
  obtain ⟨-, hvad', hevents⟩ := OnlineVadFeInput.Notice.mk.inj hnotice
  refine ⟨hdetector, hvad'.symm, ?_⟩
  rw [hit.log]
  intro e he
  rcases List.mem_cons.mp he with rfl | he
  · have hactive : (e.lastBatchVad || e.batchVad) = false := by
      rw [hit.last, hit.vad, hvad, ← hvad']
      rfl
    refine ⟨by rw [hit.features, hactive]; rfl, hevents.symm, ?_⟩
    intro hfull
    rw [hit.returned, hactive, ← hit.nvec]
    simp [hfull]
  · exact h.log e he

/-- **Nothing is heard where nothing is loud.**  As long as no frame is above the first
threshold, no features are extracted and no listener is told of anything, and `Compute`
waits for as long as the source delivers. -/
theorem quiet_idle (h : (system o ratio t α).Reachable s)
    (hquiet : ∀ energies ∈ s.judged, ∀ energy ∈ energies, energy ≤ t.onset) :
    ∀ b ∈ s.session.log, b.features = none ∧ b.events = [] ∧
      (b.block.length = o.samplesReq b.nvec → b.returned = none) := by
  have hidle : (∀ energies ∈ s.judged, ∀ energy ∈ energies, energy ≤ t.onset) → Idle o s := by
    refine h.invariant (fun s => (∀ energies ∈ s.judged, ∀ energy ∈ energies,
      energy ≤ t.onset) → Idle o s) ?_ ?_
    · intro _
      exact ⟨rfl, rfl, List.forall_mem_nil _⟩
    · intro s l s' ih hs hquiet'
      rcases step_cases hs with ⟨c, first, -, henter, hdetector, hjudged⟩ |
        ⟨energies, block, c, b, -, hit, hspeech, hdetector, hjudged⟩
      · rw [hjudged] at hquiet'
        obtain ⟨hstate, hvad, hlog⟩ := ih hquiet'
        refine ⟨hdetector ▸ hstate, (enter_feInput henter).1.trans hvad, ?_⟩
        rw [enter_log henter]
        exact hlog
      · rw [hjudged] at hquiet'
        obtain ⟨hfirst, hrest⟩ := List.forall_mem_cons.mp hquiet'
        have hidle := ih hrest
        obtain ⟨hstate, hno⟩ := doVad_silence ratio hfirst hidle.detector
        exact hidle.iterated hit (hspeech.trans hno) (hdetector ▸ hstate)
  exact (hidle hquiet).log

/-- Two quiet frames. -/
theorem quiet_idle_two : ∃ s : DetectedSession Nat Nat, s.judged = [[8], [3]] ∧
    ∀ b ∈ s.session.log, b.features = none ∧ b.events = [] ∧
      (b.block.length = oneSample.samplesReq b.nvec → b.returned = none) := by
  have hrun : ∃ s, (system oneSample threeTenths aboveTen Nat).runFrom (create oneSample)
      [.call ⟨1, none⟩ [], .batch [3] [0], .batch [8] [0]] = some s ∧
      s.judged = [[8], [3]] :=
    ⟨_, rfl, rfl⟩
  obtain ⟨s, hs, hjudged⟩ := hrun
  refine ⟨s, hjudged, quiet_idle (Transition.System.reachable_of_run hs) ?_⟩
  show ∀ energies ∈ s.judged, ∀ energy ∈ energies, energy ≤ 10
  rw [hjudged]
  decide

end Quiet

/-! ## Silence ends an utterance -/

/-- A step in which no frame is above any threshold. -/
def QuietStep (t : VadThresholds E) : DetectedLabel α E → Prop
  | .call _ _ => True
  | .batch energies _ => ∀ energy ∈ energies, Silent t energy

/-- How many frames are processed. -/
def frames : DetectedLabel α E → Nat
  | .call _ _ => 0
  | .batch energies _ => energies.length

/-- `OnSpeechEnd` was fired between two states. -/
def Ended (s s' : DetectedSession α E) : Prop :=
  ∃ newer, s'.session.log = newer ++ s.session.log ∧ ∃ b ∈ newer, Ends b

/-- Since the detector was silent, every batch has been added to the counter. -/
structure Held (o : VadOptions) (s s' : DetectedSession α E) : Prop where
  vad : s'.session.feInput.batchVad = true
  detector : s'.detector.state = .silence
  grown : s.session.feInput.bufferLength ≤ s'.session.feInput.bufferLength
  counted : s'.session.feInput.hangoverCount + shifted o s.session.log =
    s.session.feInput.hangoverCount + shifted o s'.session.log
  within : s'.session.log = s.session.log ∨
    s'.session.feInput.hangoverCount ≤ s'.session.feInput.bufferLength

section Silence

variable {o : VadOptions} {ratio : SpeechRatio} {t : VadThresholds E}
  {s s' u : DetectedSession α E}

omit [LinearOrder E] in
theorem Held.refl (hvad : s.session.feInput.batchVad = true)
    (hdetector : s.detector.state = .silence) : Held o s s :=
  ⟨hvad, hdetector, Nat.le_refl _, rfl, .inl rfl⟩

/-- The log only grows. -/
theorem log_grows (h : (system o ratio t α).Leads s s') :
    ∃ newer, s'.session.log = newer ++ s.session.log := by
  obtain ⟨ls, hrun⟩ := h
  refine Transition.System.runFrom_invariant (fun s' : DetectedSession α E =>
    ∃ newer, s'.session.log = newer ++ s.session.log) ?_ ⟨[], rfl⟩ hrun
  rintro v l v' ⟨newer, hnewer⟩ hs
  rcases step_cases hs with ⟨c, first, -, henter, -⟩ | ⟨energies, block, c, b, -, hit, -⟩
  · exact ⟨newer, (enter_log henter).trans hnewer⟩
  · refine ⟨b :: newer, ?_⟩
    rw [hit.log, hnewer, List.cons_append]

theorem Ended.leads (h : Ended s u) (hleads : (system o ratio t α).Leads u s') :
    Ended s s' := by
  obtain ⟨newer, hlog, b, hb, hends⟩ := h
  obtain ⟨newest, hlog'⟩ := log_grows hleads
  refine ⟨newest ++ newer, ?_, b, List.mem_append_right _ hb, hends⟩
  rw [hlog', hlog, List.append_assoc]

theorem ended_of_leads (h : Ended u s') (hleads : (system o ratio t α).Leads s u) :
    Ended s s' := by
  obtain ⟨newer, hlog, b, hb, hends⟩ := h
  obtain ⟨older, hlog'⟩ := log_grows hleads
  refine ⟨newer ++ older, ?_, b, List.mem_append_left _ hb, hends⟩
  rw [hlog, hlog', List.append_assoc]

omit [LinearOrder E] in
/-- In an utterance an iteration ends it, or it goes on. -/
theorem iterated_ended (ho : 0 < o.nVadListeners) {c : ComputeCall} {b : Batch α}
    (hit : Iterated o s.session s'.session c b)
    (hvad : s.session.feInput.batchVad = true) :
    Ended s s' ∨ s'.session.feInput.batchVad = true ∧
      (b.speech = false → s'.session.feInput.hangoverCount =
          s.session.feInput.hangoverCount + o.samplesReq b.nvec ∧
        s'.session.feInput.hangoverCount ≤ s'.session.feInput.bufferLength) := by
  rw [hit.bufferLength, hit.nvec]
  rcases hit.outcome ho with ⟨hno, -⟩ | ⟨hno, -⟩ | ⟨-, hspeech, hvad', -⟩ |
    ⟨-, -, hvad', hle, hcount, -⟩ | ⟨-, -, -, -, hevents⟩
  · cases hvad.symm.trans hno
  · cases hvad.symm.trans hno
  · refine .inr ⟨hvad', ?_⟩
    intro hno
    cases hspeech.symm.trans hno
  · exact .inr ⟨hvad', fun _ => ⟨hcount, hcount ▸ hle⟩⟩
  · exact .inl ⟨[b], hit.log, b, List.mem_singleton_self b, 0, by simp [hevents, ho]⟩

/-- **Quiet runs.**  What a quiet step keeps, unless it ends the utterance, a quiet run keeps;
it may depend on the number of frames so far. -/
theorem quiet_run (rel : Nat → DetectedSession α E → Prop)
    (hstep : ∀ n u l v, rel n u → QuietStep t l → (system o ratio t α).step u l = some v →
      Ended u v ∨ rel (n + frames l) v)
    {ls : List (DetectedLabel α E)} (n : Nat) (hrel : rel n s)
    (hrun : (system o ratio t α).runFrom s ls = some s') (hquiet : ∀ l ∈ ls, QuietStep t l) :
    Ended s s' ∨ rel (n + (ls.map frames).sum) s' := by
  induction ls generalizing s n with
  | nil =>
      obtain rfl : s = s' := Option.some.inj hrun
      exact .inr hrel
  | cons l ls ih =>
      obtain ⟨u, hu, hrest⟩ := Option.bind_eq_some_iff.mp hrun
      obtain ⟨hfirst, hquiet⟩ := List.forall_mem_cons.mp hquiet
      rcases hstep n s l u hrel hfirst hu with hended | hrel'
      · exact .inl (hended.leads ⟨ls, hrest⟩)
      · rw [List.map_cons, List.sum_cons, ← Nat.add_assoc]
        refine (ih (n + frames l) hrel' hrest hquiet).imp_left fun hended => ?_
        exact ended_of_leads hended (.head hu (.refl _))

/-- Quiet frames lead the detector to silence, unless the utterance ends before. -/
theorem silenced_run (ho : 0 < o.nVadListeners) {ls : List (DetectedLabel α E)}
    (hrun : (system o ratio t α).runFrom s ls = some s')
    (hvad : s.session.feInput.batchVad = true) (hquiet : ∀ l ∈ ls, QuietStep t l) :
    Ended s s' ∨ s'.session.feInput.batchVad = true ∧
      untilSilence t s'.detector ≤ untilSilence t s.detector - (ls.map frames).sum := by
  rw [← Nat.zero_add (ls.map frames).sum]
  refine quiet_run (fun n v => v.session.feInput.batchVad = true ∧
    untilSilence t v.detector ≤ untilSilence t s.detector - n) ?_ 0 ⟨hvad, Nat.le_refl _⟩ hrun
    hquiet
  rintro n u l v ⟨hvad, hle⟩ hquiet hstep
  rcases step_cases hstep with ⟨c, first, rfl, henter, hdetector, -⟩ |
    ⟨energies, block, c, b, rfl, hit, -, hdetector, -⟩
  · rw [(enter_feInput henter).1, hdetector]
    exact .inr ⟨hvad, hle⟩
  · refine (iterated_ended ho hit hvad).imp_right fun hgoes => ⟨hgoes.1, ?_⟩
    have hframes : untilSilence t v.detector ≤ untilSilence t u.detector - energies.length := by
      rw [hdetector]
      exact untilSilence_countSpeech hquiet
    show _ ≤ _ - (n + energies.length)
    omega

omit [LinearOrder E] in
theorem Held.call (h : Held o s u) {v : DetectedSession α E} {c : ComputeCall} {first : List α}
    (henter : u.session.enter o c first = some v.session) (hsame : v.detector = u.detector) :
    Held o s v := by
  obtain ⟨hvad, hcount, hgrown⟩ := enter_feInput henter
  have hlog := enter_log henter
  refine ⟨hvad.trans h.vad, hsame ▸ h.detector, Nat.le_trans h.grown hgrown, ?_, ?_⟩
  · rw [hcount, hlog]
    exact h.counted
  · rw [hcount, hlog]
    exact h.within.imp_right fun hwithin => Nat.le_trans hwithin hgrown

/-- While the detector is silent, the counter measures the samples. -/
theorem held_run (ho : 0 < o.nVadListeners) {ls : List (DetectedLabel α E)}
    (hrun : (system o ratio t α).runFrom s ls = some s')
    (hvad : s.session.feInput.batchVad = true) (hdetector : s.detector.state = .silence)
    (hquiet : ∀ l ∈ ls, QuietStep t l) : Ended s s' ∨ Held o s s' := by
  refine quiet_run (fun _ v => Held o s v) ?_ 0 (.refl hvad hdetector) hrun hquiet
  intro n u l v h hquiet hstep
  rcases step_cases hstep with ⟨c, first, rfl, henter, hsame, -⟩ |
    ⟨energies, block, c, b, rfl, hit, hspeech, hnext, -⟩
  · exact .inr (h.call henter hsame)
  · have honset : ∀ energy ∈ energies, energy ≤ t.onset := by
      intro energy hmem
      exact (hquiet energy hmem).1
    obtain ⟨hstate, hno⟩ := doVad_silence ratio honset h.detector
    refine (iterated_ended ho hit h.vad).imp_right ?_
    rintro ⟨hvad', hheld⟩
    obtain ⟨hcount, hwithin⟩ := hheld (hspeech.trans hno)
    have hcounted := h.counted
    have hgrown := h.grown
    rw [← hit.bufferLength] at hgrown
    refine ⟨hvad', hnext ▸ hstate, hgrown, ?_, .inr hwithin⟩
    rw [hcount, hit.log, shifted_cons]
    omega

/-- **Silence ends an utterance.**  When the detector has processed `hangover_frames_ + 3`
quiet frames and quiet samples have then filled the buffer once and more, `OnSpeechEnd`
has been fired. -/
theorem silence_ends (ho : 0 < o.nVadListeners) {ls ls' : List (DetectedLabel α E)}
    (hvad : s.session.feInput.batchVad = true)
    (hfirst : (system o ratio t α).runFrom s ls = some u)
    (hsecond : (system o ratio t α).runFrom u ls' = some s')
    (hquiet : ∀ l ∈ ls ++ ls', QuietStep t l)
    (hframes : t.hangoverFrames + 3 ≤ (ls.map frames).sum)
    (hlong : shifted o u.session.log + s'.session.feInput.bufferLength <
      shifted o s'.session.log) : Ended s s' := by
  obtain ⟨hquiet, hquiet'⟩ := List.forall_mem_append.mp hquiet
  rcases silenced_run ho hfirst hvad hquiet with hended | ⟨hvad', hsilence⟩
  · exact hended.leads ⟨ls', hsecond⟩
  · have hstate : u.detector.state = .silence := by
      have hmost : untilSilence t s.detector ≤ t.hangoverFrames + 3 := untilSilence_le
      have hzero : untilSilence t u.detector = 0 := by omega
      exact untilSilence_eq_zero.mp hzero
    rcases held_run ho hsecond hvad' hstate hquiet' with hended | hheld
    · exact ended_of_leads hended ⟨ls, hfirst⟩
    · -- otherwise the counter would have passed the buffer
      exfalso
      have hcounted := hheld.counted
      rcases hheld.within with hsame | hwithin
      · rw [hsame] at hlong
        omega
      · omega

/-- After a loud frame, three quiet frames and two batches of silence. -/
theorem silence_ends_five : ∃ s s' : DetectedSession Nat Nat,
    s.session.feInput.batchVad = true ∧
      s'.judged = [[1], [1], [1, 1, 1]] ++ s.judged ∧ Ended s s' := by
  have hrun : ∃ s, (system oneSample threeTenths aboveTen Nat).runFrom (create oneSample)
      (oneFrame [20]) = some s ∧ s.session.feInput.batchVad = true ∧
      ∃ u, (system oneSample threeTenths aboveTen Nat).runFrom s (oneFrame [1, 1, 1]) = some u ∧
      ∃ s', (system oneSample threeTenths aboveTen Nat).runFrom u
        (oneFrame [1] ++ oneFrame [1]) = some s' ∧
      s'.judged = [[1], [1], [1, 1, 1]] ++ s.judged ∧
      shifted oneSample u.session.log + s'.session.feInput.bufferLength <
        shifted oneSample s'.session.log :=
    ⟨_, rfl, rfl, _, rfl, _, rfl, rfl, by decide⟩
  obtain ⟨s, -, hvad, u, hfirst, s', hsecond, hjudged, hlong⟩ := hrun
  refine ⟨s, s', hvad, hjudged, silence_ends (by decide) hvad hfirst hsecond ?_ (by decide)
    hlong⟩
  simp [oneFrame, QuietStep, SimpleEnergyVad.Silent, aboveTen]

end Silence

end DetectedSession

end ThreadedServer
