import ThreadedServer.Permits

/-!
# When Dispatch finds a worker

`Dispatch` relies on the permit it got from the semaphore: at least one worker
must be free.  That much is true, by the ledger of permits: some worker has no
task.  But `TryAssign` only tries the mutex, and a worker without a task can
still hold it: its thread takes the mutex when it starts and gives it back when
it first waits, and it keeps the mutex after `Done()` has raised the semaphore.

So `Dispatch` fails exactly when the offer goes wrong at the last chance: the
worker is the only one left that could take the task, and its own thread has
the mutex at that moment.
-/

namespace ThreadedServer

namespace TaskDispatcher

open BackgroundWorker

variable {Task : Type*}

/-- One of the workers from index `i` on has no task. -/
def Free (size : Nat) (workers : Nat → BackgroundWorker Task) (i : Nat) : Prop :=
  ∃ j, i ≤ j ∧ j < size ∧ (workers j).task = none

/-- The offer meets a mutex held by the worker's own thread, on the last worker
that has no task. -/
def Contended (d : TaskDispatcher Task) : Prop :=
  ∃ t i, d.main = .tryAssign t i .trylock ∧
    (d.workers i).taskAssignedMutex = some .thread ∧
    (d.workers i).task = none ∧ ¬ Free d.size d.workers (i + 1)

theorem free_iff {size i : Nat} {workers : Nat → BackgroundWorker Task} :
    (∃ j < size, i ≤ j ∧ (workers j).task = none) ↔ Free size workers i := by
  constructor
  · rintro ⟨j, hj, hij, htask⟩
    exact ⟨j, hij, hj, htask⟩
  · rintro ⟨j, hij, hj, htask⟩
    exact ⟨j, hj, hij, htask⟩

instance (size : Nat) (workers : Nat → BackgroundWorker Task) (i : Nat) :
    Decidable (Free size workers i) := decidable_of_iff _ free_iff

/-- The worker whose mutex `TryAssign` is about to try. -/
def offeredTo : MainPc Task → Option Nat
  | .tryAssign _ i .trylock => some i
  | _ => none

theorem contended_iff {d : TaskDispatcher Task} :
    (∃ i ∈ offeredTo d.main, (d.workers i).taskAssignedMutex = some .thread ∧
      (d.workers i).task = none ∧ ¬ Free d.size d.workers (i + 1)) ↔ Contended d := by
  constructor
  · rintro ⟨i, hi, hrest⟩
    unfold offeredTo at hi
    split at hi
    case h_1 t j hmain => exact ⟨t, i, by rw [hmain, Option.some.inj hi], hrest⟩
    case h_2 => cases hi
  · rintro ⟨t, i, hmain, hrest⟩
    exact ⟨i, by rw [hmain]; rfl, hrest⟩

instance (d : TaskDispatcher Task) : Decidable (Contended d) := decidable_of_iff _ contended_iff

/-- A `Dispatch` call has returned from `Wait` and has neither returned nor
failed. -/
def Offering : MainPc Task → Prop
  | .setObserver _ | .loop _ _ | .tryAssign _ _ _ => True
  | _ => False

/-- The task that is being offered. -/
def offeredTask : MainPc Task → Option Task
  | .setObserver t | .loop t _ | .tryAssign t _ _ => some t
  | _ => none

/-- What is left to find while the accept loop offers a task: a worker without
one. -/
def Findable (size : Nat) (workers : Nat → BackgroundWorker Task) :
    MainPc Task → Prop
  | .loop _ i | .tryAssign _ i .trylock | .tryAssign _ i .check => Free size workers i
  | .tryAssign _ i .unlockFalse | .tryAssign _ i (.ret false) => Free size workers (i + 1)
  | .assertFailed _ => False
  | _ => True

/-- The permit that `Wait` has taken means that some worker has no task. -/
theorem Inv.free {d : TaskDispatcher Task} (h : Inv d)
    (hstake : stake d.main (d.semaphore.pc .main) = 1) : Free d.size d.workers 0 := by
  by_contra hnone
  have hbusy : busy d = ∑ i ∈ Finset.range d.size, (1 : Int) := by
    refine Finset.sum_congr rfl fun i hi => load_of_task fun htask => ?_
    exact hnone ⟨i, Nat.zero_le i, Finset.mem_range.mp hi, htask⟩
  have hledger := h.ledger
  have hcounter := h.sound.counter
  rw [hstake, hbusy] at hledger
  simp at hledger
  omega

/-- A worker that is passed over and has a task is not the free one. -/
theorem Free.next {size i : Nat} {workers : Nat → BackgroundWorker Task}
    (h : Free size workers i) (hi : (workers i).task ≠ none) :
    Free size workers (i + 1) := by
  obtain ⟨j, hij, hj, htask⟩ := h
  have hne : i ≠ j := by
    rintro rfl
    exact hi htask
  exact ⟨j, by omega, hj, htask⟩

/-- Tasks that go away only make workers free. -/
theorem Findable.mono {size : Nat} {workers workers' : Nat → BackgroundWorker Task}
    {main : MainPc Task} (h : Findable size workers main)
    (htask : ∀ j, (workers j).task = none → (workers' j).task = none) :
    Findable size workers' main := by
  have hfree : ∀ {i}, Free size workers i → Free size workers' i := by
    rintro i ⟨j, hij, hj, hnone⟩
    exact ⟨j, hij, hj, htask j hnone⟩
  cases main with
  | loop t i => exact hfree h
  | tryAssign t i pc =>
      cases pc with
      | trylock | check | unlockFalse => exact hfree h
      | ret b =>
          cases b with
          | false => exact hfree h
          | true => trivial
      | _ => trivial
  | _ => exact h

/-- A line of a worker's thread concerns its own worker. -/
theorem threadStep_worker [DecidableEq Task] {d d' : TaskDispatcher Task} {i : Nat}
    (h : d.threadStep i = some d') :
    ∃ w, (d.workers i).threadStep = some w ∧ d'.size = d.size ∧ d'.main = d.main ∧
      d'.workers = Function.update d.workers i w := by
  unfold TaskDispatcher.threadStep at h
  split at h
  case h_1 t _ =>
    obtain ⟨w, hw, rfl⟩ := Option.map_eq_some_iff.mp h
    refine ⟨w, hw, ?_⟩
    unfold taskDone
    split <;> exact ⟨rfl, rfl, rfl⟩
  case h_2 =>
    split at h
    case isTrue =>
      obtain ⟨w, hw, rfl⟩ := Option.map_eq_some_iff.mp h
      exact ⟨w, hw, rfl, rfl, rfl⟩
    case isFalse => cases h
  case h_3 =>
    obtain ⟨w, hw, rfl⟩ := Option.map_eq_some_iff.mp h
    exact ⟨w, hw, rfl, rfl, rfl⟩

/-- Replacing a worker by one that has a task only if it had one before. -/
theorem Findable.update {size : Nat} {workers : Nat → BackgroundWorker Task}
    {main : MainPc Task} (h : Findable size workers main) {i : Nat}
    {w : BackgroundWorker Task} (htask : (workers i).task = none → w.task = none) :
    Findable size (Function.update workers i w) main := by
  refine h.mono fun j hj => ?_
  by_cases hji : j = i
  · subst j
    simpa using htask hj
  · simpa [hji] using hj

/-- **One line of TryAssign.**  Unless the offer meets a thread on its own mutex
at the last chance, a worker without a task is still ahead. -/
theorem Findable.tryAssign {d : TaskDispatcher Task} (hinv : Inv d)
    (hok : ¬ Contended d) {t : Task} {i : Nat} {pc pc' : TryPc}
    (hmain : d.main = .tryAssign t i pc) (h : Findable d.size d.workers d.main)
    {w : BackgroundWorker Task} (hs : (d.workers i).tryAssignStep t pc = (w, pc')) :
    Findable d.size (Function.update d.workers i w) (.tryAssign t i pc') := by
  rw [hmain] at h
  cases pc with
  | trylock =>
      by_cases hm : (d.workers i).taskAssignedMutex = none
      · obtain ⟨rfl, rfl⟩ : _ = w ∧ .check = pc' := by
          simpa [BackgroundWorker.tryAssignStep, hm] using hs
        have hcheck : Findable d.size d.workers (.tryAssign t i .check) := h
        exact hcheck.update id
      · obtain ⟨rfl, rfl⟩ : d.workers i = w ∧ .ret false = pc' := by
          simpa [BackgroundWorker.tryAssignStep, hm] using hs
        rw [Function.update_eq_self]
        show Free d.size d.workers (i + 1)
        by_cases htask : (d.workers i).task = none
        · -- nobody but the worker's thread can be on the mutex
          have howner := (hinv.worker i).owner
          have hthread : (d.workers i).taskAssignedMutex = some .thread := by
            cases hheld : (d.workers i).taskAssignedMutex with
            | none => exact absurd hheld hm
            | some q =>
                cases q with
                | thread => rfl
                | owner => simp [hheld, hmain, Owns, TryHolds] at howner
          by_contra hfree
          exact hok ⟨t, i, hmain, hthread, htask, hfree⟩
        · exact Free.next h htask
  | check =>
      obtain ⟨rfl, rfl⟩ : d.workers i = w ∧ _ = pc' := by
        simpa [BackgroundWorker.tryAssignStep] using hs
      rw [Function.update_eq_self]
      cases htask : (d.workers i).task with
      | none => trivial
      | some u => exact Free.next h (by simp [htask])
  | unlockFalse =>
      obtain ⟨rfl, rfl⟩ : _ = w ∧ .ret false = pc' := by
        simpa [BackgroundWorker.tryAssignStep] using hs
      have hret : Findable d.size d.workers (.tryAssign t i (.ret false)) := h
      exact hret.update id
  | assign | signal | unlockTrue =>
      obtain ⟨rfl, rfl⟩ : _ = w ∧ _ = pc' := by
        simpa [BackgroundWorker.tryAssignStep] using hs
      trivial
  | ret b =>
      obtain ⟨rfl, rfl⟩ : d.workers i = w ∧ .ret b = pc' := by
        simpa [BackgroundWorker.tryAssignStep] using hs
      rwa [Function.update_eq_self]

/-- **One line of the accept loop.** -/
theorem Findable.mainStep [DecidableEq Task] {d d' : TaskDispatcher Task} (hinv : Inv d)
    (hok : ¬ Contended d) (h : Findable d.size d.workers d.main)
    (hs : d.mainStep = some d') : Findable d'.size d'.workers d'.main := by
  unfold TaskDispatcher.mainStep at hs
  split at hs
  case h_1 => cases hs
  case h_2 | h_3 =>
    obtain ⟨-, rfl⟩ : d.semaphore.pc .main = .out ∧ _ = d' := by simpa using hs
    trivial
  case h_4 t hmain =>
    obtain rfl := Option.some.inj hs
    exact hinv.free (by simp [hmain, stake])
  case h_5 t i hmain =>
    obtain rfl := Option.some.inj hs
    simp only [hmain] at h
    obtain ⟨j, hij, hj, htask⟩ := h
    have hi : i < d.size := by omega
    simp only [if_pos hi]
    exact ⟨j, hij, hj, htask⟩
  case h_6 =>
    obtain rfl := Option.some.inj hs
    trivial
  case h_7 t i hmain =>
    obtain rfl := Option.some.inj hs
    rw [hmain] at h
    exact h
  case h_8 t i pc _ _ hmain =>
    obtain rfl := Option.some.inj hs
    exact Findable.tryAssign hinv hok hmain h rfl
  case h_9 => cases hs

/-- The accept loop never waits while it offers a task. -/
theorem mainStep_of_offering [DecidableEq Task] {d : TaskDispatcher Task}
    (h : Offering d.main) : ∃ d', d.mainStep = some d' := by
  unfold TaskDispatcher.mainStep
  split <;> simp_all [Offering]

/-- While no offer meets a thread on its own mutex at the last chance, a worker
without a task is always ahead. -/
theorem findable_of_uncontended [DecidableEq Task] {d : TaskDispatcher Task}
    (h : (system Task).ReachableVia (fun d _ => ¬ Contended d) d) :
    Findable d.size d.workers d.main := by
  refine h.invariant (fun d : TaskDispatcher Task => Findable d.size d.workers d.main)
    (show Findable 0 _ .idle from trivial) ?_
  intro d l d' hreach hok hd hs
  have hinv := inv_of_reachable hreach
  cases l with
  | addWorker | dispatch =>
      simp only [system, step, TaskDispatcher.addWorker, TaskDispatcher.dispatch] at hs
      split at hs
      · obtain rfl := Option.some.inj hs
        trivial
      · cases hs
  | main => exact hd.mainStep hinv hok hs
  | mainSem a =>
      obtain ⟨s, -, rfl⟩ := Option.map_eq_some_iff.mp hs
      exact hd
  | thread i =>
      obtain ⟨-, hthread⟩ : i < d.size ∧ d.threadStep i = some d' := by
        simpa [system, step] using hs
      obtain ⟨w, hw, hsize, hmain, hworkers⟩ := threadStep_worker hthread
      rw [hsize, hmain, hworkers]
      refine hd.update fun hnone => ?_
      rcases threadStep_task hw with htask | ⟨htask, -⟩
      · rw [htask, hnone]
      · exact htask
  | spurious i =>
      obtain ⟨-, w, hw, rfl⟩ : i < d.size ∧ ∃ w, (d.workers i).spuriousWake = some w ∧
          d.setWorker i w = d' := by
        simpa [system, step] using hs
      obtain ⟨-, rfl⟩ := spuriousWake_cases hw
      exact hd.update id
  | threadSem i a =>
      obtain ⟨-, s, -, rfl⟩ : i < d.size ∧
          ∃ s, d.semaphore.step (.worker i) a = some s ∧ _ = d' := by
        simpa [system, step] using hs
      exact hd

theorem not_assertFailed_of_uncontended [DecidableEq Task] {d : TaskDispatcher Task}
    (h : (system Task).ReachableVia (fun d _ => ¬ Contended d) d) (t : Task) :
    d.main ≠ .assertFailed t := by
  intro hmain
  have hfind := findable_of_uncontended h
  rw [hmain] at hfind
  exact hfind

section Going

variable [DecidableEq Task] {d : TaskDispatcher Task} {t : Task}

/-- One line of `TryAssign`, by the accept loop. -/
theorem step_tryAssign {i : Nat} {pc pc' : TryPc} {v w : BackgroundWorker Task}
    (hmain : d.main = .tryAssign t i pc) (hpc : ∀ b, pc ≠ .ret b)
    (hv : d.workers i = v) (hs : v.tryAssignStep t pc = (w, pc')) :
    (system Task).step d .main =
      some { d.setWorker i w with main := .tryAssign t i pc' } := by
  subst hv
  have hstep : (system Task).step d .main = d.mainStep := rfl
  rw [hstep, TaskDispatcher.mainStep.eq_def, hmain]
  cases pc with
  | ret b => exact absurd rfl (hpc b)
  | _ => simp [hs]

/-- An offer that `TryAssign` has turned down goes to the next worker. -/
theorem step_refused {i : Nat} (hmain : d.main = .tryAssign t i (.ret false)) :
    (system Task).step d .main = some { d with main := .loop t (i + 1) } := by
  have hstep : (system Task).step d .main = d.mainStep := rfl
  rw [hstep, TaskDispatcher.mainStep.eq_def, hmain]

/-- The test of the loop condition. -/
theorem step_loop {i : Nat} (hmain : d.main = .loop t i) :
    (system Task).step d .main = some { d with
      main := if i < d.size then .tryAssign t i .trylock else .assertFailed t } := by
  have hstep : (system Task).step d .main = d.mainStep := rfl
  rw [hstep, TaskDispatcher.mainStep.eq_def, hmain]

/-- A worker whose mutex is taken, or that has a task, turns the offer down; the
tasks of all workers stay as they are. -/
theorem offer_refused {i : Nat} (hmain : d.main = .tryAssign t i .trylock)
    (hbusy : (d.workers i).taskAssignedMutex ≠ none ∨ (d.workers i).task ≠ none) :
    ∃ d', (system Task).LeadsBy .main d d' ∧ d'.main = .loop t (i + 1) ∧
      d'.size = d.size ∧ ∀ j, (d'.workers j).task = (d.workers j).task := by
  by_cases hm : (d.workers i).taskAssignedMutex = none
  · have htask : (d.workers i).task.isSome := by
      rcases hbusy with h | h
      · exact absurd hm h
      · exact Option.isSome_iff_ne_none.mpr h
    let held := { d.workers i with taskAssignedMutex := some Holder.owner }
    let released := { d.workers i with taskAssignedMutex := none }
    have hlock : (d.workers i).tryAssignStep t .trylock = (held, .check) := if_pos hm
    have hcheck : held.tryAssignStep t .check = (held, .unlockFalse) := by
      simp [BackgroundWorker.tryAssignStep, held, htask]
    have hunlock : held.tryAssignStep t .unlockFalse = (released, .ret false) := rfl
    refine ⟨_, .head (step_tryAssign hmain (by simp) rfl hlock)
      (.head (step_tryAssign rfl (by simp) (by simp [setWorker]) hcheck)
      (.head (step_tryAssign rfl (by simp) (by simp [setWorker]) hunlock)
      (.head (step_refused rfl) (.refl _ _)))), rfl, rfl, fun j => ?_⟩
    by_cases hji : j = i
    · subst j
      simp [setWorker, released]
    · simp [setWorker, hji]
  · refine ⟨_, .head (step_tryAssign hmain (by simp) rfl (if_neg hm))
      (.head (step_refused rfl) (.refl _ _)), rfl, rfl, fun j => ?_⟩
    simp [setWorker]

/-- The accept loop runs past workers that all have a task into the failing
assertion. -/
theorem loop_fails (k : Nat) {d : TaskDispatcher Task} {i : Nat} (hk : d.size - i = k)
    (hmain : d.main = .loop t i) (hfree : ¬ Free d.size d.workers i) :
    ∃ d', (system Task).LeadsBy .main d d' ∧ d'.main = .assertFailed t := by
  induction k generalizing d i with
  | zero =>
      have hi : ¬ i < d.size := by omega
      refine ⟨_, .head (step_loop hmain) (.refl _ _), ?_⟩
      simp [hi]
  | succ k ih =>
      have hi : i < d.size := by omega
      have htask : (d.workers i).task ≠ none := fun h => hfree ⟨i, le_rfl, hi, h⟩
      have hstep := step_loop hmain
      rw [if_pos hi] at hstep
      obtain ⟨d₁, hleads, hmain₁, hsize, htasks⟩ :=
        offer_refused (d := { d with main := .tryAssign t i .trylock }) rfl (Or.inr htask)
      replace hsize : d₁.size = d.size := hsize
      obtain ⟨d₂, hrest, hfail⟩ := ih (by omega) hmain₁ fun ⟨j, hij, hj, hnone⟩ =>
        hfree ⟨j, by omega, by omega, by rw [← htasks j]; exact hnone⟩
      exact ⟨d₂, .head hstep (hleads.trans hrest), hfail⟩

/-- An offer that meets a thread on its own mutex at the last chance fails, if
the accept loop just goes on. -/
theorem contended_fails (h : Contended d) :
    ∃ d' t, (system Task).LeadsBy .main d d' ∧ d'.main = .assertFailed t := by
  obtain ⟨t, i, hmain, hheld, -, hfree⟩ := h
  obtain ⟨d₁, hleads, hmain₁, hsize, htasks⟩ :=
    offer_refused hmain (Or.inl (by simp [hheld]))
  obtain ⟨d₂, hrest, hfail⟩ := loop_fails _ rfl hmain₁ fun ⟨j, hij, hj, hnone⟩ =>
    hfree ⟨j, hij, by omega, by rw [← htasks j]; exact hnone⟩
  exact ⟨d₂, t, hleads.trans hrest, hfail⟩

/-- The lines of `TryAssign` from a control point on. -/
def tryLinesLeft : TryPc → Nat
  | .trylock => 6
  | .check => 5
  | .assign => 4
  | .signal => 3
  | .unlockTrue | .unlockFalse => 2
  | .ret _ => 1

/-- A bound of the lines until the offer has ended. -/
def offerLinesLeft (size : Nat) : MainPc Task → Nat
  | .setObserver _ => 7 * size + 2
  | .loop _ i => 7 * (size - i) + 1
  | .tryAssign _ i pc => 7 * (size - (i + 1)) + 1 + tryLinesLeft pc
  | _ => 0

omit [DecidableEq Task] in
theorem tryLinesLeft_step {v w : BackgroundWorker Task} {pc pc' : TryPc}
    (hpc : ∀ b, pc ≠ .ret b) (h : v.tryAssignStep t pc = (w, pc')) :
    tryLinesLeft pc' < tryLinesLeft pc := by
  have hpc' : (v.tryAssignStep t pc).2 = pc' := congrArg Prod.snd h
  rw [← hpc']
  cases pc with
  | trylock =>
      show tryLinesLeft (ite _ _ _ : BackgroundWorker Task × TryPc).2 < 6
      split
      · exact Nat.lt_succ_self 5
      · exact Nat.lt_add_of_pos_right (Nat.succ_pos 4)
  | check =>
      show tryLinesLeft (ite _ _ _) < 5
      split <;> decide
  | assign => exact Nat.lt_succ_self 3
  | signal => exact Nat.lt_succ_self 2
  | unlockTrue | unlockFalse => exact Nat.lt_succ_self 1
  | ret b => exact absurd rfl (hpc b)

/-- A line of the accept loop, short of the end of an offer. -/
theorem offer_step (ht : offeredTask d.main = some t)
    (hgoing : ∀ i, d.main ≠ .tryAssign t i (.ret true)) :
    ∃ d', (system Task).step d .main = some d' ∧ d'.size = d.size ∧
      ((∀ u, d'.main ≠ .assertFailed u) →
        offeredTask d'.main = some t ∧
          offerLinesLeft d.size d'.main < offerLinesLeft d.size d.main) := by
  cases hmain : d.main with
  | setObserver u =>
      rw [hmain] at ht
      obtain rfl := Option.some.inj ht
      have hstep : (system Task).step d .main = d.mainStep := rfl
      rw [hstep, TaskDispatcher.mainStep.eq_def, hmain]
      exact ⟨_, rfl, rfl, fun _ => ⟨rfl, Nat.lt_succ_self _⟩⟩
  | loop u i =>
      rw [hmain] at ht
      obtain rfl := Option.some.inj ht
      refine ⟨_, step_loop hmain, rfl, ?_⟩
      intro hlive
      by_cases hi : i < d.size
      · rw [if_pos hi]
        refine ⟨rfl, ?_⟩
        simp only [offerLinesLeft, tryLinesLeft]
        omega
      · exact absurd (if_neg hi) (hlive u)
  | tryAssign u i pc =>
      rw [hmain] at ht
      obtain rfl := Option.some.inj ht
      by_cases hpc : ∃ b, pc = .ret b
      · obtain ⟨b, rfl⟩ := hpc
        cases b with
        | true => exact absurd hmain (hgoing i)
        | false =>
            refine ⟨_, step_refused hmain, rfl, fun _ => ⟨rfl, ?_⟩⟩
            simp only [offerLinesLeft, tryLinesLeft]
            omega
      · have hpc := not_exists.mp hpc
        refine ⟨_, step_tryAssign hmain hpc rfl rfl, rfl, fun _ => ⟨rfl, ?_⟩⟩
        exact Nat.add_lt_add_left (tryLinesLeft_step hpc rfl) _
  | idle | addSignal | wait u | assertFailed u =>
      rw [hmain] at ht
      cases ht

/-- The accept loop, going on by itself, gets its task accepted or meets a thread on its own
mutex at the last chance. -/
theorem offer_ends (n : Nat) {d : TaskDispatcher Task}
    (hd : (system Task).ReachableVia (fun d _ => ¬ Contended d) d)
    (ht : offeredTask d.main = some t) (hn : offerLinesLeft d.size d.main ≤ n) :
    ∃ d', (system Task).LeadsBy .main d d' ∧
      (Contended d' ∨ ∃ i, d'.main = .tryAssign t i (.ret true)) := by
  induction n generalizing d with
  | zero =>
      cases hmain : d.main with
      | setObserver u | loop u i | tryAssign u i pc =>
          rw [hmain] at hn
          simp only [offerLinesLeft] at hn
          omega
      | idle | addSignal | wait u | assertFailed u =>
          rw [hmain] at ht
          cases ht
  | succ n ih =>
      by_cases hcontended : Contended d
      · exact ⟨d, .refl _ d, .inl hcontended⟩
      by_cases hgoing : ∃ i, d.main = .tryAssign t i (.ret true)
      · exact ⟨d, .refl _ d, .inr hgoing⟩
      obtain ⟨u, hu, hsize, hnext⟩ := offer_step ht (not_exists.mp hgoing)
      have hvia : (system Task).ReachableVia (fun d _ => ¬ Contended d) u :=
        .step hd hcontended hu
      obtain ⟨ht', hless⟩ := hnext (not_assertFailed_of_uncontended hvia)
      obtain ⟨d', hleads, hend⟩ := ih hvia ht' (by rw [hsize]; omega)
      exact ⟨d', .head hu hleads, hend⟩

end Going

/-- **Dispatch and its permit.**  In a run in which no offer meets a thread on
its own mutex at the last chance, the assertion of `Dispatch` never fails: the
call, once back from `Wait`, always has a next line, and the accept loop, going on
by itself, gets the task accepted by some worker, unless it comes to such a moment.
From any such moment the accept loop, going on by itself, fails the assertion. -/
theorem dispatch_assigns [DecidableEq Task] :
    (∀ d, (system Task).ReachableVia (fun d _ => ¬ Contended d) d →
      (∀ t, d.main ≠ .assertFailed t) ∧
      (Offering d.main → ∃ d', (system Task).step d .main = some d') ∧
      ∀ t, offeredTask d.main = some t → ∃ d', (system Task).LeadsBy .main d d' ∧
        (Contended d' ∨ ∃ i, d'.main = .tryAssign t i (.ret true))) ∧
    (∀ d, (system Task).Reachable d → Contended d →
      ∃ d' t, (system Task).LeadsBy .main d d' ∧ d'.main = .assertFailed t) := by
  refine ⟨fun d hd => ?_, fun d _ => contended_fails⟩
  exact ⟨not_assertFailed_of_uncontended hd, mainStep_of_offering,
    fun t ht => offer_ends _ hd ht (Nat.le_refl _)⟩

/-- One worker is registered, its thread has the mutex from its start, and the
first task of all finds nobody. -/
theorem dispatch_drops_first_task :
    ∃ d, (system Nat).Reachable d ∧ d.main = .assertFailed 7 := by
  have hrun : (((system Nat).runFrom create
      [.addWorker, .mainSem .run, .mainSem .run, .mainSem (.wake none), .mainSem .run, .main,
        .thread 0, .dispatch 7, .mainSem .run, .mainSem .run, .mainSem .run, .mainSem .run,
        .main, .main, .main, .main, .main, .main]).map TaskDispatcher.main) =
      some (.assertFailed 7) := by
    decide
  obtain ⟨d, hd, hmain⟩ := Option.map_eq_some_iff.mp hrun
  exact ⟨d, Transition.System.reachable_of_run hd, hmain⟩

end TaskDispatcher

end ThreadedServer
