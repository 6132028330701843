import ThreadedServer.Permits

/-!
# Counting the permits

Beside the state of the dispatcher this file keeps four counts of what happened
so far: the signals of `AddWorker`, the permits that `Dispatch` took in `Wait`,
the tasks that `TryAssign` stored and the signals of `Done()`.  The counter of
the semaphore is what the signals brought less what `Wait` took.  What `Wait`
took is with a `Dispatch` call that has not assigned its task yet, or with a
worker; and what is with the workers are the tasks in progress, at most one for
each of them.
-/

namespace ThreadedServer

namespace TaskDispatcher

variable {Task : Type*}

/-- What happened so far. -/
structure Counts where
  /-- signals of `AddWorker` that raised the counter -/
  addSignals : Nat
  /-- `Dispatch` calls that have decremented the counter in `Wait` -/
  waits : Nat
  /-- tasks that a `TryAssign` has stored -/
  assigned : Nat
  /-- signals of `Done()` that raised the counter -/
  doneSignals : Nat
  deriving DecidableEq, Repr

namespace Counts

/-- What a step of the accept loop inside the semaphore adds. -/
def mainSem (k : Counts) : MainPc Task → SemPc → Counts
  | .addSignal, .signalRaise => { k with addSignals := k.addSignals + 1 }
  | .wait _, .waitTake => { k with waits := k.waits + 1 }
  | _, _ => k

/-- What a line of the accept loop adds. -/
def main (k : Counts) : MainPc Task → Counts
  | .tryAssign _ _ .assign => { k with assigned := k.assigned + 1 }
  | _ => k

/-- What a step of a worker's thread inside the semaphore adds. -/
def threadSem (k : Counts) : SemPc → Counts
  | .signalRaise => { k with doneSignals := k.doneSignals + 1 }
  | _ => k

/-- What a step adds. -/
def after (k : Counts) (d : TaskDispatcher Task) : DispatchLabel Task → Counts
  | .mainSem .run => k.mainSem d.main (d.semaphore.pc .main)
  | .main => k.main d.main
  | .threadSem i .run => k.threadSem (d.semaphore.pc (.worker i))
  | _ => k

end Counts

/-- A dispatcher with the counts of its run. -/
structure Counted (Task : Type*) where
  dispatcher : TaskDispatcher Task
  counts : Counts

/-- The dispatcher with its counts. -/
def countedSystem (Task : Type*) [DecidableEq Task] :
    Transition.System (Counted Task) (DispatchLabel Task) where
  init := ⟨create, ⟨0, 0, 0, 0⟩⟩
  step c l := (c.dispatcher.step l).map fun d => ⟨d, c.counts.after c.dispatcher l⟩

/-- The accepted task of a worker whose `Done()` has not raised the semaphore
yet: it is in `task_`, or `worker_func` has it in its local variable. -/
def unsignalled (w : BackgroundWorker Task) (p : SemPc) : Option Task :=
  match w.task, w.pc, p with
  | some t, _, _ => some t
  | none, .done y, _ => y
  | none, .inDone y, .signalLock | none, .inDone y, .signalRaise => y
  | none, _, _ => none

/-- The tasks in progress. -/
def inProgress (d : TaskDispatcher Task) : List Task :=
  (List.range d.size).filterMap fun i => unsignalled (d.workers i) (d.semaphore.pc (.worker i))

/-- The signal of an `AddWorker` call that has not raised the semaphore yet. -/
def raising : MainPc Task → SemPc → Int
  | .addSignal, .signalLock | .addSignal, .signalRaise => 1
  | _, _ => 0

/-! ## The tasks in progress are the permits of the workers -/

theorem load_eq {observer : Task → Bool} {owned live : Prop} {w : BackgroundWorker Task}
    {p : SemPc}
    (h : WorkerInv observer owned live w p) :
    load w p = if (unsignalled w p).isSome then 1 else 0 := by
  have hfits := h.task
  unfold load unsignalled
  cases htask : w.task with
  | some t => simp
  | none =>
      cases hpc : w.pc with
      | done y => simp_all [TaskFits]
      | inDone y => cases p <;> simp_all [TaskFits]
      | _ => simp

theorem length_filterMap_range (f : Nat → Option Task) (n : Nat) :
    (((List.range n).filterMap f).length : Int) =
      ∑ i ∈ Finset.range n, if (f i).isSome then 1 else 0 := by
  induction n with
  | zero => rfl
  | succ n ih =>
      rw [Finset.sum_range_succ, ← ih, List.range_succ, List.filterMap_append]
      cases h : f n <;> simp [h]

theorem length_inProgress {d : TaskDispatcher Task}
    (h : Inv d) : ((inProgress d).length : Int) = busy d := by
  rw [inProgress, length_filterMap_range, busy]
  exact Finset.sum_congr rfl fun i _ => (load_eq (h.worker i)).symm

theorem length_inProgress_le (d : TaskDispatcher Task) : (inProgress d).length ≤ d.size := by
  have hlen := List.length_filterMap_le
    (fun i => unsignalled (d.workers i) (d.semaphore.pc (.worker i))) (List.range d.size)
  simpa [inProgress] using hlen

/-! ## The counts add up -/

/-- The counts explain the counter, the registered workers and the permit that
the accept loop has. -/
structure Tallied (c : Counted Task) : Prop where
  counter : c.dispatcher.semaphore.counter =
    c.counts.addSignals + c.counts.doneSignals - c.counts.waits
  added : c.counts.addSignals + raising c.dispatcher.main (c.dispatcher.semaphore.pc .main) =
    c.dispatcher.size
  taken : c.counts.waits + raising c.dispatcher.main (c.dispatcher.semaphore.pc .main) =
    c.counts.assigned + stake c.dispatcher.main (c.dispatcher.semaphore.pc .main)

/-- What a step of a worker leaves to the accept loop. -/
structure SameLoop (d d' : TaskDispatcher Task) : Prop where
  main : d'.main = d.main
  size : d'.size = d.size
  pc : d'.semaphore.pc .main = d.semaphore.pc .main
  counter : d'.semaphore.counter = d.semaphore.counter

theorem Tallied.same {c : Counted Task}
    (h : Tallied c)
    {d : TaskDispatcher Task}
    (hsame : SameLoop c.dispatcher d) : Tallied ⟨d, c.counts⟩ := by
  obtain ⟨hmain, hsize, hpc, hcounter⟩ := hsame
  refine ⟨?_, ?_, ?_⟩
  · rw [hcounter, h.counter]
  · rw [hmain, hpc, hsize, h.added]
  · rw [hmain, hpc, h.taken]

theorem sameLoop_threadStep [DecidableEq Task] {d d' : TaskDispatcher Task} {i : Nat}
    (hs : d.threadStep i = some d') : SameLoop d d' := by
  unfold TaskDispatcher.threadStep at hs
  split at hs
  · obtain ⟨w, -, rfl⟩ := Option.map_eq_some_iff.mp hs
    unfold taskDone
    split
    · exact ⟨rfl, rfl, by simp [onTaskDone, Semaphore.signal, setWorker], rfl⟩
    · exact ⟨rfl, rfl, rfl, rfl⟩
  · split at hs
    · obtain ⟨w, -, rfl⟩ := Option.map_eq_some_iff.mp hs
      exact ⟨rfl, rfl, rfl, rfl⟩
    · cases hs
  · obtain ⟨w, -, rfl⟩ := Option.map_eq_some_iff.mp hs
    exact ⟨rfl, rfl, rfl, rfl⟩

/-- A move inside the semaphore that keeps the counter leaves the permit of the
accept loop where it is. -/
theorem place_kept {i : Party} {main : MainPc Task} {p p' : SemPc} {l l' : Option Party}
    {c c' : Int}
    (hfits : SemFits main p)
    (hm : Semaphore.Move i p l c p' l' c')
    (hc : c' = c) :
    stake main p' = stake main p ∧ raising main p' = raising main p := by
  cases main with
  | addSignal | wait => cases hm <;> simp_all [SemFits, stake, raising]
  | _ =>
      obtain rfl : p = .out := hfits
      cases hm
      exact ⟨rfl, rfl⟩

/-- Inside the semaphore nothing is counted unless the counter changes. -/
theorem Tallied.semaphore {d : TaskDispatcher Task} {k : Counts}
    (h : Tallied ⟨d, k⟩)
    {s : Semaphore Party}
    (hcounter : s.counter = d.semaphore.counter)
    (hstake : stake d.main (s.pc .main) = stake d.main (d.semaphore.pc .main))
    (hraising : raising d.main (s.pc .main) = raising d.main (d.semaphore.pc .main)) :
    Tallied ⟨{ d with semaphore := s }, k⟩ := by
  refine ⟨?_, ?_, ?_⟩
  · exact hcounter.trans h.counter
  · have hadded := h.added
    rwa [← hraising] at hadded
  · have htaken := h.taken
    rwa [← hraising, ← hstake] at htaken

/-- A step of the accept loop inside the semaphore: a signal of `AddWorker` or
a permit taken by `Wait` is counted when the counter changes. -/
theorem Tallied.mainSem {c : Counted Task}
    (h : Tallied c)
    (hinv : Inv c.dispatcher)
    {a : SemAct Party} {s : Semaphore Party}
    (hs : c.dispatcher.semaphore.step .main a = some s) :
    Tallied ⟨{ c.dispatcher with semaphore := s }, c.counts.after c.dispatcher (.mainSem a)⟩ := by
  obtain ⟨d, k⟩ := c
  have hcounter := h.counter
  have hadded := h.added
  have htaken := h.taken
  have hsem := hinv.sem
  simp only at hcounter hadded htaken hsem hs ⊢
  rcases Semaphore.step_counter hs with ⟨rfl, hpc, hpc', hc⟩ | ⟨rfl, hpc, hpc', hc⟩ | ⟨hno, hc⟩
  · obtain hmain : d.main = .addSignal := by
      rw [hpc] at hsem
      cases hmain : d.main <;> simp_all [SemFits]
    refine ⟨?_, ?_, ?_⟩ <;> simp_all [Counts.after, Counts.mainSem, raising, stake]
    omega
  · obtain ⟨t, hmain⟩ : ∃ t, d.main = .wait t := by
      rw [hpc] at hsem
      cases hmain : d.main <;> simp_all [SemFits]
    refine ⟨?_, ?_, ?_⟩ <;> simp_all [Counts.after, Counts.mainSem, raising, stake]
    omega
  · have hk : k.after d (.mainSem a) = k := by
      cases a with
      | run => unfold Counts.after Counts.mainSem; split <;> simp_all
      | _ => rfl
    obtain ⟨hmove, -⟩ := Semaphore.step_move hs
    obtain ⟨hstake, hraising⟩ := place_kept hsem hmove hc
    rw [hk]
    exact h.semaphore hc hstake hraising

/-- A step of a worker's thread inside the semaphore: a signal of `Done()`. -/
theorem Tallied.threadSem {c : Counted Task}
    (h : Tallied c)
    (hinv : Inv c.dispatcher)
    {i : Nat} {a : SemAct Party} {s : Semaphore Party}
    (hs : c.dispatcher.semaphore.step (.worker i) a = some s) :
    Tallied ⟨{ c.dispatcher with semaphore := s },
      c.counts.after c.dispatcher (.threadSem i a)⟩ := by
  obtain ⟨d, k⟩ := c
  have hcounter := h.counter
  have hadded := h.added
  have htaken := h.taken
  have hworker := (hinv.worker i).sem
  obtain ⟨-, hother⟩ := Semaphore.step_move hs
  have hmain : s.pc .main = d.semaphore.pc .main := hother .main (by simp)
  simp only at hcounter hadded htaken hworker hs ⊢
  rcases Semaphore.step_counter hs with ⟨rfl, hpc, -, hc⟩ | ⟨rfl, hpc, -, -⟩ | ⟨hno, hc⟩
  · have hk : k.after d (.threadSem i .run) = { k with doneSignals := k.doneSignals + 1 } := by
      simp [Counts.after, Counts.threadSem, hpc]
    rw [hk]
    refine ⟨?_, by simpa [hmain] using hadded, by simpa [hmain] using htaken⟩
    simp only [hc, hcounter]
    push_cast
    omega
  · simp [hpc] at hworker
  · have hk : k.after d (.threadSem i a) = k := by
      cases a with
      | run => unfold Counts.after Counts.threadSem; split <;> simp_all
      | _ => rfl
    rw [hk]
    exact h.semaphore hc (by rw [hmain]) (by rw [hmain])

/-- The store of `TryAssign` hands the permit on. -/
theorem tryStake_step {w w' : BackgroundWorker Task} {t : Task} {pc pc' : TryPc}
    (hs : w.tryAssignStep t pc = (w', pc')) :
    WorkerInv.tryStake pc' + (if pc = .assign then 1 else 0) = WorkerInv.tryStake pc := by
  obtain rfl : (w.tryAssignStep t pc).2 = pc' := congrArg Prod.snd hs
  cases pc with
  | trylock =>
      by_cases hm : w.taskAssignedMutex = none <;>
        simp [BackgroundWorker.tryAssignStep, hm, WorkerInv.tryStake]
  | check =>
      cases hx : w.task <;> simp [BackgroundWorker.tryAssignStep, hx, WorkerInv.tryStake]
  | _ => simp [BackgroundWorker.tryAssignStep, WorkerInv.tryStake]

/-- A line of `TryAssign`. -/
theorem Tallied.tryAssign {d : TaskDispatcher Task} {k : Counts}
    (h : Tallied ⟨d, k⟩)
    {t : Task} {i : Nat} {pc pc' : TryPc}
    (hmain : d.main = .tryAssign t i pc)
    {w : BackgroundWorker Task}
    (hs : (d.workers i).tryAssignStep t pc = (w, pc')) :
    Tallied ⟨⟨d.semaphore, d.size, Function.update d.workers i w, d.observer,
      .tryAssign t i pc'⟩, k.after d .main⟩ := by
  obtain ⟨hcounter, hadded, htaken⟩ := h
  have hassign := tryStake_step hs
  simp only [hmain, raising, stake] at hadded htaken
  by_cases hpc : pc = .assign
  · have hk : k.after d .main = { k with assigned := k.assigned + 1 } := by
      simp [Counts.after, Counts.main, hmain, hpc]
    rw [if_pos hpc] at hassign
    rw [hk]
    refine ⟨hcounter, hadded, ?_⟩
    simp only [raising, stake]
    push_cast
    omega
  · have hk : k.after d .main = k := by simp [Counts.after, Counts.main, hmain, hpc]
    rw [if_neg hpc] at hassign
    rw [hk]
    refine ⟨hcounter, hadded, ?_⟩
    simp only [raising, stake]
    omega

/-- A line of the accept loop: the store of `TryAssign` is counted. -/
theorem Tallied.main [DecidableEq Task] {c : Counted Task}
    (h : Tallied c)
    {d' : TaskDispatcher Task}
    (hs : c.dispatcher.mainStep = some d') :
    Tallied ⟨d', c.counts.after c.dispatcher .main⟩ := by
  obtain ⟨d, k⟩ := c
  obtain ⟨hcounter, hadded, htaken⟩ := h
  simp only at hcounter hadded htaken hs ⊢
  unfold TaskDispatcher.mainStep at hs
  split at hs
  case h_1 => cases hs
  case h_2 hmain =>
    obtain ⟨hout, rfl⟩ : d.semaphore.pc .main = .out ∧ _ = d' := by simpa using hs
    refine ⟨?_, ?_, ?_⟩ <;> simp_all [Counts.after, Counts.main, raising, stake]
  case h_3 t hmain =>
    obtain ⟨hout, rfl⟩ : d.semaphore.pc .main = .out ∧ _ = d' := by simpa using hs
    refine ⟨?_, ?_, ?_⟩ <;> simp_all [Counts.after, Counts.main, raising, stake]
  case h_4 t hmain =>
    obtain rfl := Option.some.inj hs
    refine ⟨?_, ?_, ?_⟩ <;> simp_all [Counts.after, Counts.main, raising, stake]
  case h_5 t i hmain =>
    obtain rfl := Option.some.inj hs
    have hk : k.after d .main = k := by simp [Counts.after, Counts.main, hmain]
    simp only [hmain, raising, stake] at hadded htaken
    by_cases hi : i < d.size
    · simp only [if_pos hi, hk]
      exact ⟨hcounter, hadded, htaken⟩
    · simp only [if_neg hi, hk]
      exact ⟨hcounter, hadded, htaken⟩
  case h_6 t i hmain =>
    obtain rfl := Option.some.inj hs
    refine ⟨?_, ?_, ?_⟩ <;>
      simp_all [Counts.after, Counts.main, raising, stake, WorkerInv.tryStake]
  case h_7 t i hmain =>
    obtain rfl := Option.some.inj hs
    refine ⟨?_, ?_, ?_⟩ <;>
      simp_all [Counts.after, Counts.main, raising, stake, WorkerInv.tryStake]
  case h_8 t i pc hfalse htrue hmain =>
    obtain rfl := Option.some.inj hs
    exact Tallied.tryAssign ⟨hcounter, hadded, htaken⟩ hmain rfl
  case h_9 => cases hs

/-- The accept loop calls `AddWorker`. -/
theorem Tallied.addWorker {c : Counted Task}
    (h : Tallied c)
    (hinv : Inv c.dispatcher)
    {d' : TaskDispatcher Task}
    (hs : c.dispatcher.addWorker = some d') : Tallied ⟨d', c.counts⟩ := by
  obtain ⟨d, k⟩ := c
  obtain ⟨hcounter, hadded, htaken⟩ := h
  simp only at hcounter hadded htaken hs
  unfold TaskDispatcher.addWorker at hs
  split at hs
  case h_1 hmain =>
    obtain rfl := Option.some.inj hs
    simp only [hmain, raising, stake] at hadded htaken
    refine ⟨hcounter, ?_, ?_⟩ <;>
      simp only [Semaphore.signal, Semaphore.goto_pc, if_true, raising, stake]
    · push_cast
      omega
    · omega
  case h_2 => cases hs

/-- The accept loop calls `Dispatch`. -/
theorem Tallied.dispatch {c : Counted Task}
    (h : Tallied c)
    {t : Task} {d' : TaskDispatcher Task}
    (hs : c.dispatcher.dispatch t = some d') : Tallied ⟨d', c.counts⟩ := by
  obtain ⟨d, k⟩ := c
  obtain ⟨hcounter, hadded, htaken⟩ := h
  simp only at hcounter hadded htaken hs
  unfold TaskDispatcher.dispatch at hs
  split at hs
  case h_1 hmain =>
    obtain rfl := Option.some.inj hs
    simp only [hmain, raising, stake] at hadded htaken
    refine ⟨hcounter, ?_, ?_⟩ <;>
      simp only [Semaphore.wait, Semaphore.goto_pc, if_true, raising, stake]
    · exact hadded
    · exact htaken
  case h_2 => cases hs

variable [DecidableEq Task]

/-- The counts and the invariant of the dispatcher, at every moment of every
run. -/
theorem tallied_of_reachable {c : Counted Task}
    (h : (countedSystem Task).Reachable c) : Inv c.dispatcher ∧ Tallied c := by
  refine h.invariant (fun c => Inv c.dispatcher ∧ Tallied c) ⟨inv_create, ?_⟩ ?_
  · exact ⟨rfl, rfl, rfl⟩
  · intro c l c' hc he
    obtain ⟨hinv, hd⟩ := hc
    obtain ⟨d', hs, rfl⟩ := Option.map_eq_some_iff.mp he
    refine ⟨hinv.step hs, ?_⟩
    cases l with
    | addWorker => exact hd.addWorker hinv hs
    | dispatch t => exact hd.dispatch hs
    | main => exact hd.main hs
    | mainSem a =>
        obtain ⟨s, hsem, rfl⟩ := Option.map_eq_some_iff.mp hs
        exact hd.mainSem hinv hsem
    | thread i =>
        obtain ⟨-, hs⟩ : i < c.dispatcher.size ∧ c.dispatcher.threadStep i = some d' := by
          simpa [step] using hs
        exact hd.same (sameLoop_threadStep hs)
    | spurious i =>
        obtain ⟨-, w, -, rfl⟩ : i < c.dispatcher.size ∧
            ∃ w, (c.dispatcher.workers i).spuriousWake = some w ∧
              c.dispatcher.setWorker i w = d' := by
          simpa [step] using hs
        exact hd.same ⟨rfl, rfl, rfl, rfl⟩
    | threadSem i a =>
        obtain ⟨-, s, hsem, rfl⟩ : i < c.dispatcher.size ∧
            ∃ s, c.dispatcher.semaphore.step (.worker i) a = some s ∧ _ = d' := by
          simpa [step] using hs
        exact hd.threadSem hinv hsem

/-- Every run of the dispatcher can be counted. -/
theorem exists_counts {d : TaskDispatcher Task}
    (h : (system Task).Reachable d) :
    ∃ k, (countedSystem Task).Reachable ⟨d, k⟩ := by
  have hstart : (countedSystem Task).Reachable ⟨create, ⟨0, 0, 0, 0⟩⟩ := .init
  refine h.invariant (fun d => ∃ k, (countedSystem Task).Reachable ⟨d, k⟩) ⟨_, hstart⟩ ?_
  intro d l d' hd hs
  obtain ⟨k, hk⟩ := hd
  refine ⟨k.after d l, .step (e := l) hk trivial ?_⟩
  replace hs : d.step l = some d' := hs
  simp [countedSystem, hs]

omit [DecidableEq Task] in
/-- The accept loop has at most one permit in hand. -/
theorem stake_bounds (main : MainPc Task) (p : SemPc) :
    0 ≤ raising main p ∧ raising main p ≤ stake main p ∧ stake main p ≤ raising main p + 1 := by
  cases main with
  | addSignal | wait => cases p <;> simp [raising, stake]
  | tryAssign t i pc =>
      simp only [raising, stake, WorkerInv.tryStake]
      split <;> simp
  | _ => simp [raising, stake]

/-- **Conservation of the permits.**  At every moment of every run the counter,
the `Dispatch` calls that are past `Wait` and have not assigned their task yet,
and the accepted tasks whose `Done()` has not signalled yet, add up to the
signals of `AddWorker`.  There is at most one such call, these tasks are the
tasks in progress, and neither the counter nor their number exceeds the number
of workers. -/
theorem permits_conserved {c : Counted Task}
    (h : (countedSystem Task).Reachable c) :
    c.dispatcher.semaphore.counter + (c.counts.waits - c.counts.assigned : Nat) +
        (c.counts.assigned - c.counts.doneSignals : Nat) = c.counts.addSignals ∧
      c.counts.assigned ≤ c.counts.waits ∧ c.counts.waits ≤ c.counts.assigned + 1 ∧
      c.counts.assigned = c.counts.doneSignals + (inProgress c.dispatcher).length ∧
      c.counts.addSignals ≤ c.dispatcher.size ∧
      0 ≤ c.dispatcher.semaphore.counter ∧
      c.dispatcher.semaphore.counter ≤ c.dispatcher.size ∧
      (inProgress c.dispatcher).length ≤ c.dispatcher.size := by
  obtain ⟨hinv, hcounter, hadded, htaken⟩ := tallied_of_reachable h
  obtain ⟨hraising, hlow, hhigh⟩ :=
    stake_bounds c.dispatcher.main (c.dispatcher.semaphore.pc .main)
  have hprogress : (c.counts.assigned : Int) =
      c.counts.doneSignals + (inProgress c.dispatcher).length := by
    rw [length_inProgress hinv]
    have hledger := hinv.ledger
    omega
  have hpos := hinv.sound.counter
  have hle := length_inProgress_le c.dispatcher
  refine ⟨?_, ?_, ?_, ?_, ?_, hpos, ?_, hle⟩ <;> omega

/-- A worker is added and its task 7 is dispatched and stored. -/
def addAndAssign : List (DispatchLabel Nat) :=
  [.addWorker, .mainSem .run, .mainSem .run, .mainSem (.wake none), .mainSem .run, .main,
    .dispatch 7, .mainSem .run, .mainSem .run, .mainSem .run, .mainSem .run,
    .main, .main, .main, .main, .main, .main]

theorem permits_conserved_one :
    ∃ c, (countedSystem Nat).Reachable c ∧ c.counts.assigned = 1 ∧
      c.counts.assigned = c.counts.doneSignals + (inProgress c.dispatcher).length := by
  have hrun : (((countedSystem Nat).runFrom (countedSystem Nat).init addAndAssign).map
      fun c => c.counts.assigned) = some 1 := by
    decide
  obtain ⟨c, hc, hassigned⟩ := Option.map_eq_some_iff.mp hrun
  have hreach := Transition.System.reachable_of_run hc
  exact ⟨c, hreach, hassigned, (permits_conserved hreach).2.2.2.1⟩

end TaskDispatcher

end ThreadedServer
