import Mathlib.Algebra.Order.BigOperators.Group.Finset
import ThreadedServer.PoolTasks
import ThreadedServer.WorkerEnd

/-!
# The shutdown comes to its end

The destructor of the pool waits in two places: for the mutex of the worker that it
deletes, and for the thread of this worker.  In both the thread is on its way and
needs nothing from the destructor; at most it waits for the semaphore, which another
worker's thread holds that only has to raise it.  So the shutdown gets stuck only in a
`Work()` that does not return, and a `Work()` that is begun with during the deletion of
its worker ends the process (`WorkerEnd`).

Nor does it go on for ever.  Nobody assigns tasks any more, so each thread has a
bounded way to its next sleep, or out of its function.  What a thread does after a
spurious wake-up is added to that.
-/

namespace ThreadedServer

namespace Pool

open BackgroundWorker

variable {Task : Type*}

/-- The lines of `Signal` that a thread still has to run. -/
def signalRank : SemPc → Nat
  | .signalLock => 4
  | .signalRaise => 3
  | .signalCond => 2
  | .signalUnlock => 1
  | _ => 0

/-- The lines of `worker_func` that a thread runs at most, from the test of `enabled_` on, until
it sleeps or has left. -/
def loopRank (w : BackgroundWorker Task) : Nat :=
  if w.enabled then if w.task.isSome then 17 else 3 else 2

/-- The lines that a worker's thread runs at most until it sleeps or has left, with its place in
the semaphore. -/
def rank (w : BackgroundWorker Task) (p : SemPc) : Nat :=
  match w.pc with
  | .exited | .waiting => 0
  | .unlock | .condWait => 1
  | .check => if w.task.isSome then 16 else 2
  | .loop => loopRank w
  | .start => loopRank w + 1
  | .recheck => if w.task.isSome then 15 else loopRank w + 1
  | .woken => if w.task.isSome then 16 else loopRank w + 2
  | .work => 14
  | .working => 13
  | .take => 12
  | .clear _ => 11
  | .done _ => loopRank w + 7
  | .inDone _ => loopRank w + 2 + signalRank p
  | .delete _ => loopRank w + 1

theorem loopRank_le (w : BackgroundWorker Task) : loopRank w ≤ 17 := by
  unfold loopRank
  split
  · split <;> omega
  · omega

theorem loopRank_none {w : BackgroundWorker Task} (h : ¬ w.task.isSome = true) :
    loopRank w ≤ 3 := by
  unfold loopRank
  rw [if_neg h]
  split <;> omega

theorem signalRank_le (p : SemPc) : signalRank p ≤ 4 := by
  cases p <;> simp [signalRank]

theorem rank_le (w : BackgroundWorker Task) (p : SemPc) : rank w p ≤ 24 := by
  have hloop := loopRank_le w
  have hsignal := signalRank_le p
  unfold rank
  cases w.pc <;> dsimp only <;> first | omega | (split <;> omega)

/-- A line of the thread takes it on its way. -/
theorem rank_threadStep {w w' : BackgroundWorker Task} (h : w.threadStep = some w')
    (p p' : SemPc) : rank w' p' < rank w p := by
  have hsignal := signalRank_le p'
  cases threadStep_cases h with
  | @start x en => simp [rank, loopRank]
  | @stay m x => cases x <;> simp [rank, loopRank]
  | @leave m x => simp [rank, loopRank]
  | @relock x en => cases x <;> simp [rank, loopRank]
  | @missed m en => simp [rank, loopRank]
  | @clear m x y en => cases en <;> simp [rank, loopRank]
  | @done m x t en =>
      simp only [rank, loopRank]
      omega
  | @observed m x y en =>
      simp only [rank, loopRank]
      omega
  | @delete m x y en => simp [rank, loopRank]
  | _ => simp [rank]

theorem rank_woken (w : BackgroundWorker Task) (p : SemPc) :
    rank { w with pc := .woken } p ≤ 16 := by
  have hsame : loopRank { w with pc := .woken } = loopRank w := rfl
  simp only [rank, hsame]
  split
  · exact le_rfl
  · rename_i hnone
    have := loopRank_none hnone
    omega

theorem rank_spuriousWake {w w' : BackgroundWorker Task} (h : w.spuriousWake = some w')
    (p : SemPc) : rank w' p ≤ rank w p + 16 := by
  obtain ⟨-, rfl⟩ := spuriousWake_cases h
  have hwoken := rank_woken w p
  omega

/-- Without a task, or told to stop, a thread has no longer way to go. -/
theorem rank_mono (w w' : BackgroundWorker Task) (hpc : w'.pc = w.pc)
    (htask : w'.task = w.task ∨ w'.task = none)
    (henabled : w'.enabled = w.enabled ∨ w'.enabled = false) (p : SemPc) :
    rank w' p ≤ rank w p := by
  have hsome : w'.task.isSome → w.task.isSome := by
    rcases htask with h | h <;> simp [h]
  have hloop : loopRank w' ≤ loopRank w := by
    unfold loopRank
    rcases henabled with h | h <;> simp only [h]
    · split
      · split
        · rename_i hs
          simp [hsome hs]
        · split <;> omega
      · omega
    · simp only [Bool.false_eq_true, if_false]
      split
      · split <;> omega
      · omega
  unfold rank
  rw [hpc]
  cases w.pc <;> dsimp only
  case check | recheck | woken =>
    split
    · rename_i hs
      simp [hsome hs]
    · rename_i hnone
      have := loopRank_none hnone
      split <;> omega
  all_goals omega

/-- The lines that are left of the destructor of a worker; its signal may wake the worker. -/
def destroyRank : DestroyPc → Nat
  | .disable => 25
  | .lock => 24
  | .check => 23
  | .delete => 22
  | .clear => 21
  | .signal => 20
  | .unlock => 3
  | .join => 2
  | .destroyed => 1

/-- The lines that are left of the destructor of the pool. -/
def shutdownRank (remaining : Nat) : ShutdownPc → Nat
  | .pool | .loop => 26 * remaining + 2
  | .destroy pc => 26 * (remaining - 1) + 2 + destroyRank pc
  | .deleteSemaphore => 1
  | .gone => 0

theorem rank_condSignal (w : BackgroundWorker Task) (p : SemPc) :
    rank w.condSignal p ≤ rank w p + 16 := by
  rcases w.condSignal_pc with ⟨hpc, -⟩ | ⟨-, hpc⟩
  · have := rank_mono w w.condSignal hpc (Or.inl (condSignal_task w))
      (Or.inl (condSignal_enabled w)) p
    omega
  · have hwoken := rank_woken w.condSignal p
    rw [← hpc] at hwoken
    have hsame : ({ w.condSignal with pc := w.condSignal.pc } : BackgroundWorker Task) =
        w.condSignal := rfl
    rw [hsame] at hwoken
    omega

/-- A line of the destructor of a worker. -/
theorem rank_destroyStep {w : BackgroundWorker Task} {pc : DestroyPc}
    {r : BackgroundWorker Task × DestroyPc} (h : w.destroyStep pc = some r) (p : SemPc) :
    rank r.1 p + destroyRank r.2 < rank w p + destroyRank pc := by
  cases pc with
  | disable =>
      obtain rfl := Option.some.inj h
      have := rank_mono w { w with enabled := false } rfl (Or.inl rfl)
        (Or.inr rfl) p
      simp only [destroyRank]
      omega
  | lock =>
      obtain ⟨-, rfl⟩ : w.taskAssignedMutex = none ∧ _ = r := by
        simpa [destroyStep] using h
      have := rank_mono w { w with taskAssignedMutex := some .owner } rfl
        (Or.inl rfl) (Or.inl rfl) p
      simp only [destroyRank]
      omega
  | check =>
      obtain rfl := Option.some.inj h
      cases w.task <;> simp [destroyRank]
  | delete =>
      obtain rfl := Option.some.inj h
      simp [destroyRank]
  | clear =>
      obtain rfl := Option.some.inj h
      have := rank_mono w { w with task := none } rfl (Or.inr rfl) (Or.inl rfl) p
      simp only [destroyRank]
      omega
  | signal =>
      obtain rfl := Option.some.inj h
      have := rank_condSignal w p
      simp only [destroyRank]
      omega
  | unlock =>
      obtain rfl := Option.some.inj h
      have := rank_mono w { w with taskAssignedMutex := none } rfl
        (Or.inl rfl) (Or.inl rfl) p
      simp only [destroyRank]
      omega
  | join =>
      cases hpc : w.pc <;> simp [destroyStep, hpc] at h
      subst h
      simp [destroyRank]
  | destroyed => simp [destroyStep] at h

/-- A line of a thread inside `Signal`. -/
theorem signalRank_step {s s' : Semaphore Party} {q : Party} {a : SemAct Party}
    (h : s.step q a = some s') (hpc : s.pc q ≠ .out → Signalling (s.pc q))
    (hwaiting : q ∉ s.waiters) : signalRank (s'.pc q) < signalRank (s.pc q) := by
  cases a with
  | run =>
      replace h : s.runStep q = some s' := h
      unfold Semaphore.runStep at h
      cases hq : s.pc q <;> simp only [hq] at h hpc
      case signalLock =>
        obtain ⟨-, rfl⟩ : s.lock = none ∧ _ = s' := by simpa using h
        simp [signalRank]
      case signalRaise | signalUnlock =>
        obtain rfl := Option.some.inj h
        simp [signalRank]
      all_goals simp_all [Signalling]
  | wake j =>
      cases j with
      | none =>
          obtain ⟨⟨hq, -⟩, rfl⟩ : (s.pc q = .signalCond ∧ s.waiters = []) ∧ _ = s' := by
            simpa [Semaphore.step] using h
          simp [signalRank, hq]
      | some k =>
          obtain ⟨⟨hq, -⟩, rfl⟩ : (s.pc q = .signalCond ∧ k ∈ s.waiters) ∧ _ = s' := by
            simpa [Semaphore.step] using h
          simp [signalRank, hq]
  | spurious => simp [Semaphore.step, hwaiting] at h

/-- The lines that are left to the threads of the workers. -/
def way (d : TaskDispatcher Task) : Nat :=
  ∑ i ∈ Finset.range d.size, rank (d.workers i) (d.semaphore.pc (.worker i))

/-- The lines that are left of the shutdown, unless there are spurious wake-ups. -/
def linesLeft (p : Pool Task) : Nat := way p.dispatcher + shutdownRank p.remaining p.shutdown

theorem linesLeft_le {p : Pool Task} (h : Stage p) :
    linesLeft p ≤ 50 * p.dispatcher.size + 2 := by
  have hway : way p.dispatcher ≤ ∑ i ∈ Finset.range p.dispatcher.size, 24 :=
    Finset.sum_le_sum fun i _ => rank_le _ _
  have hsize := h.size
  have hshutdown : shutdownRank p.remaining p.shutdown ≤ 26 * p.remaining + 2 := by
    cases hnow : p.shutdown with
    | destroy pc =>
        have hpos := h.destroy pc hnow
        have hrank : destroyRank pc ≤ 25 := by cases pc <;> simp [destroyRank]
        simp only [shutdownRank]
        omega
    | _ => simp [shutdownRank]
  rw [Finset.sum_const_nat fun _ _ => rfl, Finset.card_range] at hway
  unfold linesLeft
  omega

/-- When one worker moves, the others have the same way to go. -/
theorem way_change (d d' : TaskDispatcher Task) (hsize : d'.size = d.size) {i : Nat}
    (hi : i < d.size)
    (hother : ∀ j, j ≠ i → d'.workers j = d.workers j ∧
      d'.semaphore.pc (.worker j) = d.semaphore.pc (.worker j)) :
    way d' + rank (d.workers i) (d.semaphore.pc (.worker i)) =
      way d + rank (d'.workers i) (d'.semaphore.pc (.worker i)) := by
  have hmem := Finset.mem_range.mpr hi
  have hrest : ∀ j ∈ (Finset.range d.size).erase i,
      rank (d'.workers j) (d'.semaphore.pc (.worker j)) =
        rank (d.workers j) (d.semaphore.pc (.worker j)) := by
    intro j hj
    obtain ⟨hw, hp⟩ := hother j (Finset.ne_of_mem_erase hj)
    rw [hw, hp]
  unfold way
  rw [hsize, ← Finset.add_sum_erase _ _ hmem, Finset.sum_congr rfl hrest,
    ← Finset.add_sum_erase (Finset.range d.size) (fun j => rank (d.workers j) _) hmem]
  omega

variable [DecidableEq Task]

/-- The steps that nobody has asked for. -/
def isSpurious : PoolLabel Task → Bool
  | .run (.spurious _) => true
  | _ => false

/-- What a step of the shutdown does to the lines that are left. -/
def Goes (l : PoolLabel Task) (p p' : Pool Task) : Prop :=
  (isSpurious l = false → linesLeft p' < linesLeft p) ∧ linesLeft p' ≤ linesLeft p + 16

omit [DecidableEq Task] in
theorem goes_of_lt {l : PoolLabel Task} {p p' : Pool Task} (h : linesLeft p' < linesLeft p) :
    Goes l p p' := ⟨fun _ => h, by omega⟩

/-- During the shutdown the threads go on with their ways, and the accept loop does nothing
else. -/
theorem goes_run {p p' : Pool Task} (h : Inv p) (hnow : p.shutdown ≠ .pool)
    {l : DispatchLabel Task} (hs : p.runStep l = some p') : Goes (.run l) p p' := by
  obtain ⟨hd, hcall, hshutdown, hremaining, -, -, -⟩ := ran_of_runStep hs
  have hidle := h.stage.main hnow
  have hmainOut : p.dispatcher.semaphore.pc .main = .out := by
    have hfits := h.sem.main
    rwa [hidle] at hfits
  have hrest : shutdownRank p'.remaining p'.shutdown =
      shutdownRank (remainingAfter p.remaining l) p.shutdown := by rw [hshutdown, hremaining]
  cases l with
  | addWorker => simp [mayCall, hnow] at hcall
  | dispatch t => simp [mayCall, hnow] at hcall
  | main =>
      replace hd : p.dispatcher.mainStep = some p'.dispatcher := hd
      simp [TaskDispatcher.mainStep, hidle] at hd
  | mainSem a =>
      obtain ⟨s, hsem, -⟩ := Option.map_eq_some_iff.mp hd
      have hlt := signalRank_step hsem (fun hne => absurd hmainOut hne) ?_
      · simp [hmainOut, signalRank] at hlt
      · intro hmem
        have hcond := (h.sem.waiters _ hmem).2
        rw [hmainOut] at hcond
        cases hcond
  | thread i =>
      obtain ⟨hi, hd⟩ := Option.ite_none_right_eq_some.mp hd
      obtain ⟨w, hw, hworkers, hsize, -, hsem⟩ := threadStep_worker hd
      have hplaces : ∀ j, j ≠ i → p'.dispatcher.semaphore.pc (.worker j) =
          p.dispatcher.semaphore.pc (.worker j) := by
        intro j hj
        rcases hsem with ⟨-, -, hsem | hsem⟩ | ⟨-, hsem, -⟩ <;> rw [hsem]
        simp [Semaphore.signal, hj]
      have hchange := way_change p.dispatcher p'.dispatcher hsize hi fun j hj =>
        ⟨by rw [hworkers, Function.update_of_ne hj], hplaces j hj⟩
      have hlower := rank_threadStep hw (p.dispatcher.semaphore.pc (.worker i))
        (p'.dispatcher.semaphore.pc (.worker i))
      rw [hworkers, Function.update_self] at hchange
      refine goes_of_lt ?_
      have hleft : shutdownRank p'.remaining p'.shutdown =
          shutdownRank p.remaining p.shutdown := hrest
      unfold linesLeft
      omega
  | spurious i =>
      obtain ⟨hi, hd⟩ := Option.ite_none_right_eq_some.mp hd
      obtain ⟨w, hw, hd⟩ := Option.map_eq_some_iff.mp hd
      have hchange := way_change p.dispatcher p'.dispatcher (by rw [← hd]; rfl) hi
        fun j hj => by
          rw [← hd]
          exact ⟨Function.update_of_ne hj _ _, rfl⟩
      have hself : p'.dispatcher.workers i = w ∧ p'.dispatcher.semaphore.pc (.worker i) =
          p.dispatcher.semaphore.pc (.worker i) := by
        rw [← hd]
        exact ⟨Function.update_self _ _ _, rfl⟩
      have hraise := rank_spuriousWake hw (p.dispatcher.semaphore.pc (.worker i))
      rw [hself.1, hself.2] at hchange
      refine ⟨by simp [isSpurious], ?_⟩
      have hleft : shutdownRank p'.remaining p'.shutdown =
          shutdownRank p.remaining p.shutdown := hrest
      unfold linesLeft
      omega
  | threadSem i a =>
      obtain ⟨hi, hd⟩ := Option.ite_none_right_eq_some.mp hd
      obtain ⟨s, hsem, hd⟩ := Option.map_eq_some_iff.mp hd
      obtain ⟨-, hother⟩ := Semaphore.step_move hsem
      have hplace := fun hne => (h.sem.worker i hne).2
      have hlower := signalRank_step hsem hplace fun hmem => by
        have := (h.sem.waiters _ hmem).1
        cases this
      have hne : p.dispatcher.semaphore.pc (.worker i) ≠ .out := by
        intro hout
        rw [hout] at hlower
        simp [signalRank] at hlower
      obtain ⟨y, hy⟩ := (h.sem.worker i hne).1
      have hchange := way_change p.dispatcher p'.dispatcher (by rw [← hd]) hi
        fun j hj => by
          rw [← hd]
          exact ⟨rfl, hother _ (by simp [hj])⟩
      have hself : p'.dispatcher.workers i = p.dispatcher.workers i ∧
          p'.dispatcher.semaphore.pc (.worker i) = s.pc (.worker i) := by
        rw [← hd]
        exact ⟨rfl, rfl⟩
      have hrank : rank (p.dispatcher.workers i) (s.pc (.worker i)) <
          rank (p.dispatcher.workers i) (p.dispatcher.semaphore.pc (.worker i)) := by
        simp only [rank, hy]
        omega
      rw [hself.1, hself.2] at hchange
      refine goes_of_lt ?_
      have hleft : shutdownRank p'.remaining p'.shutdown =
          shutdownRank p.remaining p.shutdown := hrest
      unfold linesLeft
      omega

theorem goes_destructor {p p' : Pool Task} (h : Inv p) (hs : p.destructorStep = some p')
    (l : PoolLabel Task) : Goes l p p' := by
  have hsize := h.stage.size
  rcases destructorStep_cases hs with ⟨hnow, rfl⟩ | ⟨hnow, rfl⟩ | ⟨pc, r, hnow, hr, rfl⟩ |
    ⟨hnow, rfl⟩
  · refine goes_of_lt ?_
    unfold linesLeft
    by_cases hempty : p.remaining = 0
    · simp [hempty, hnow, shutdownRank]
    · simp only [if_neg hempty, hnow, shutdownRank, destroyRank]
      omega
  · have hpos := h.stage.destroy _ hnow
    refine goes_of_lt ?_
    unfold linesLeft
    simp only [hnow, shutdownRank, destroyRank]
    omega
  · have hpos := h.stage.destroy _ hnow
    have hi : p.remaining - 1 < p.dispatcher.size := by omega
    have hchange := way_change p.dispatcher
      (p.dispatcher.setWorker (p.remaining - 1) r.1) rfl hi fun j hj =>
        ⟨Function.update_of_ne hj _ _, rfl⟩
    have hlower := rank_destroyStep hr
      (p.dispatcher.semaphore.pc (.worker (p.remaining - 1)))
    have hself : (p.dispatcher.setWorker (p.remaining - 1) r.1).workers (p.remaining - 1) = r.1 :=
      Function.update_self _ _ _
    have hplace : (p.dispatcher.setWorker (p.remaining - 1) r.1).semaphore =
        p.dispatcher.semaphore := rfl
    rw [hself, hplace] at hchange
    refine goes_of_lt ?_
    unfold linesLeft
    simp only [hnow, shutdownRank]
    omega
  · refine goes_of_lt ?_
    unfold linesLeft
    simp [hnow, shutdownRank]

/-! ## Somebody can go on -/

omit [DecidableEq Task] in
/-- The step is the return of a `Work()`, which nobody can count on. -/
def returnsWork (p : Pool Task) : PoolLabel Task → Bool
  | .run (.thread i) => (p.dispatcher.workers i).pc.insideWork
  | _ => false

/-- A step is enabled that is not spurious and not the return of a `Work()`. -/
def CanGo (p : Pool Task) : Prop :=
  ∃ l, isSpurious l = false ∧ p.returnsWork l = false ∧ (p.step l).isSome

omit [DecidableEq Task] in
/-- The worker that is being deleted is inside its `Work()`. -/
def DeletedInWork (p : Pool Task) : Prop :=
  ∃ pc, p.shutdown = .destroy pc ∧
    (p.dispatcher.workers (p.remaining - 1)).pc.insideWork = true

theorem canGo_threadSem {p : Pool Task} {i : Nat} (hi : i < p.dispatcher.size)
    (a : SemAct Party) (hs : (p.dispatcher.semaphore.step (.worker i) a).isSome) : CanGo p := by
  refine ⟨.run (.threadSem i a), rfl, rfl, ?_⟩
  simpa [step, runStep, mayCall, TaskDispatcher.step, hi] using hs

/-- The thread that has the semaphore's mutex can go on. -/
theorem canGo_holder {p : Pool Task} (h : Inv p) (hnow : p.shutdown ≠ .pool) {q : Party}
    (hq : p.dispatcher.semaphore.lock = some q) : CanGo p := by
  have hholds := (h.sem.sound.lock q).mp hq
  have hidle := h.stage.main hnow
  have hmainOut : p.dispatcher.semaphore.pc .main = .out := by
    have hfits := h.sem.main
    rwa [hidle] at hfits
  have hnobody : p.dispatcher.semaphore.waiters = [] := by
    refine List.eq_nil_iff_forall_not_mem.mpr fun r hr => ?_
    have hcond := (h.sem.waiters r hr).2
    rw [hmainOut] at hcond
    cases hcond
  cases q with
  | main =>
      rw [hmainOut] at hholds
      exact hholds.elim
  | worker j =>
      have hne : p.dispatcher.semaphore.pc (.worker j) ≠ .out := by
        intro hout
        rw [hout] at hholds
        exact hholds
      obtain ⟨⟨y, hy⟩, hplace⟩ := h.sem.worker j hne
      have hj : j < p.dispatcher.size := by
        by_contra hj
        rw [h.stage.fresh j (by omega)] at hy
        cases hy
      rcases hplace with hp | hp | hp | hp
      · rw [hp] at hholds
        exact hholds.elim
      · exact canGo_threadSem hj .run (by simp [Semaphore.step, Semaphore.runStep, hp])
      · exact canGo_threadSem hj (.wake none) (by simp [Semaphore.step, hp, hnobody])
      · exact canGo_threadSem hj .run (by simp [Semaphore.step, Semaphore.runStep, hp])

/-- A thread inside `Signal` can go on, or another one in its place. -/
theorem canGo_signalling {p : Pool Task} (h : Inv p) (hnow : p.shutdown ≠ .pool) {i : Nat}
    (hi : i < p.dispatcher.size) (hne : p.dispatcher.semaphore.pc (.worker i) ≠ .out) :
    CanGo p := by
  cases hlock : p.dispatcher.semaphore.lock with
  | some q => exact canGo_holder h hnow hlock
  | none =>
      have hnot : ¬ Semaphore.Holds (p.dispatcher.semaphore.pc (.worker i)) := by
        rw [← h.sem.sound.lock, hlock]
        simp
      rcases (h.sem.worker i hne).2 with hp | hp | hp | hp
      · exact canGo_threadSem hi .run
          (by simp [Semaphore.step, Semaphore.runStep, hp, hlock])
      · simp [hp, Semaphore.Holds] at hnot
      · simp [hp, Semaphore.Holds] at hnot
      · simp [hp, Semaphore.Holds] at hnot

/-- A thread that neither sleeps nor works nor has left, and does not wait for its mutex, can
go on. -/
theorem canGo_thread {p : Pool Task} (h : Inv p) (hnow : p.shutdown ≠ .pool) {i : Nat}
    (hi : i < p.dispatcher.size)
    (hwaiting : (p.dispatcher.workers i).pc ≠ .waiting)
    (hexited : (p.dispatcher.workers i).pc ≠ .exited)
    (hworking : (p.dispatcher.workers i).pc.insideWork = false)
    (hmutex : (p.dispatcher.workers i).pc = .start ∨ (p.dispatcher.workers i).pc = .woken →
      (p.dispatcher.workers i).taskAssignedMutex = none) : CanGo p := by
  have hknows := (OwnedWorker.life_of_reachable (h.view i)).control.threadKnows
  by_cases hsem : p.dispatcher.semaphore.pc (.worker i) = .out
  · have hgo : ((p.dispatcher.workers i).threadStep).isSome := by
      have hworker : (p.view i).worker = p.dispatcher.workers i := rfl
      rw [hworker] at hknows
      cases hpc : (p.dispatcher.workers i).pc with
      | done y =>
          rw [OwnedWorker.ThreadKnows, hpc] at hknows
          obtain ⟨t, rfl⟩ := Option.isSome_iff_exists.mp hknows.1
          simp [BackgroundWorker.threadStep, hpc]
      | waiting => exact absurd hpc hwaiting
      | exited => exact absurd hpc hexited
      | start => simp [BackgroundWorker.threadStep, hpc, hmutex (Or.inl hpc)]
      | woken => simp [BackgroundWorker.threadStep, hpc, hmutex (Or.inr hpc)]
      | _ => simp [BackgroundWorker.threadStep, hpc]
    have hd : (p.dispatcher.threadStep i).isSome := by
      unfold TaskDispatcher.threadStep
      split <;> simp [hsem, hgo]
    refine ⟨.run (.thread i), rfl, hworking, ?_⟩
    simpa [step, runStep, mayCall, TaskDispatcher.step, hi] using hd
  · exact canGo_signalling h hnow hi hsem

/-- While the destructor of a worker waits, the worker's thread can go on. -/
theorem canGo_destroy {p : Pool Task} (h : Inv p) {pc : DestroyPc}
    (hnow : p.shutdown = .destroy pc)
    (hworking : (p.dispatcher.workers (p.remaining - 1)).pc.insideWork = false) : CanGo p := by
  have hpool : p.shutdown ≠ .pool := by simp [hnow]
  have hpos := h.stage.destroy pc hnow
  have hsize := h.stage.size
  have hi : p.remaining - 1 < p.dispatcher.size := by omega
  have howner : (p.view (p.remaining - 1)).owner = .destroy pc := by
    show p.ownerAt (p.remaining - 1) = _
    have hin : ¬ p.remaining ≤ p.remaining - 1 := by omega
    have hat : p.remaining - 1 + 1 = p.remaining := by omega
    simp [ownerAt, hin, hnow, hat]
  obtain ⟨halert, hcontrol⟩ := OwnedWorker.alert_of_reachable (h.view (p.remaining - 1))
  have hworker : (p.view (p.remaining - 1)).worker = p.dispatcher.workers (p.remaining - 1) := rfl
  generalize hw : p.dispatcher.workers (p.remaining - 1) = w at hworker hworking
  cases pc with
  | lock =>
      by_cases hm : w.taskAssignedMutex = none
      · refine ⟨.destructor, rfl, rfl, ?_⟩
        simp [step, destructorStep, hnow, hw, destroyStep, hm]
      · -- the thread has the mutex
        have hthread : w.taskAssignedMutex = some .thread := by
          have hnot := hcontrol.owner
          rw [hworker, howner] at hnot
          obtain ⟨holder, hholder⟩ := Option.ne_none_iff_exists'.mp hm
          cases holder with
          | thread => exact hholder
          | owner => exact absurd (hnot.mp hholder) id
        have hholds : ThreadHolds w.pc := by
          have := hcontrol.thread
          rw [hworker] at this
          exact this.mp hthread
        refine canGo_thread h hpool hi ?_ ?_ ?_ ?_ <;> rw [hw]
        · intro hpc
          rw [hpc] at hholds
          exact hholds
        · intro hpc
          rw [hpc] at hholds
          exact hholds
        · exact hworking
        · rintro (hpc | hpc) <;>
            · rw [hpc] at hholds
              exact hholds.elim
  | join =>
      by_cases hexited : w.pc = .exited
      · refine ⟨.destructor, rfl, rfl, ?_⟩
        simp [step, destructorStep, hnow, hw, destroyStep, hexited]
      · -- the thread is on its way out
        have hleaving := halert.leaving (by rw [howner]; trivial)
        rw [hworker] at hleaving
        refine canGo_thread h hpool hi ?_ ?_ ?_ ?_ <;> rw [hw]
        · intro hpc
          rw [hpc] at hleaving
          exact hleaving
        · exact hexited
        · exact hworking
        · intro hpc
          have hfree := hcontrol.mutex_free ?_ (by rw [howner]; exact id)
          · rwa [hworker] at hfree
          · rw [hworker]
            rcases hpc with hpc | hpc <;> simp [hpc, ThreadHolds]
  | _ =>
      refine ⟨.destructor, rfl, rfl, ?_⟩
      simp [step, destructorStep, hnow, destroyStep]

/-- The shutdown does not get stuck, except in a `Work()`. -/
theorem canGo_of_inv {p : Pool Task} (h : Inv p) (hnow : p.shutdown ≠ .pool)
    (hgone : p.shutdown ≠ .gone) : CanGo p ∨ DeletedInWork p := by
  cases hshutdown : p.shutdown with
  | pool => exact absurd hshutdown hnow
  | gone => exact absurd hshutdown hgone
  | loop | deleteSemaphore =>
      exact Or.inl ⟨.destructor, rfl, rfl, by simp [step, destructorStep, hshutdown]⟩
  | destroy pc =>
      cases hworking : (p.dispatcher.workers (p.remaining - 1)).pc.insideWork with
      | false => exact Or.inl (canGo_destroy h hshutdown hworking)
      | true => exact Or.inr ⟨pc, hshutdown, hworking⟩

/-- A step of the shutdown, and what it does to the lines that are left. -/
theorem goes_step {p p' : Pool Task} (h : Inv p) (hnow : p.shutdown ≠ .pool)
    {l : PoolLabel Task} (hs : p.step l = some p') : p'.shutdown ≠ .pool ∧ Goes l p p' := by
  cases l with
  | run l =>
      have hsame := (ran_of_runStep hs).shutdown
      exact ⟨by rwa [hsame], goes_run h hnow hs⟩
  | shutdown =>
      obtain ⟨⟨hpool, -⟩, -⟩ := Option.ite_none_right_eq_some.mp hs
      exact absurd hpool hnow
  | destructor =>
      refine ⟨?_, goes_destructor h hs .destructor⟩
      rcases destructorStep_cases hs with ⟨-, rfl⟩ | ⟨-, rfl⟩ | ⟨pc, r, -, -, rfl⟩ | ⟨-, rfl⟩
      · show (if p.remaining = 0 then ShutdownPc.deleteSemaphore
          else .destroy .disable) ≠ .pool
        split <;> simp
      · simp
      · simp
      · simp

end Pool

/-! ## The process of the pool -/

/-- The pool in the process that it runs in; `aborted` says that the `Work()` of a worker was
called where it is pure virtual. -/
structure PoolProcess (Task : Type*) where
  pool : Pool Task
  aborted : Bool

namespace PoolProcess

open Pool Transition

variable {Task : Type*}

/-- The step is the call of a pure virtual `Work()`. -/
def callsPure (p : Pool Task) : PoolLabel Task → Bool
  | .run (.thread i) => WorkerProcess.callsPure (p.view i) .thread
  | _ => false

variable [DecidableEq Task]

def step (s : PoolProcess Task) (l : PoolLabel Task) : Option (PoolProcess Task) :=
  if s.aborted then none
  else if callsPure s.pool l then some { s with aborted := true }
  else (s.pool.step l).map fun pool => { s with pool }

def create : PoolProcess Task where
  pool := .create
  aborted := false

def system (Task : Type*) [DecidableEq Task] : System (PoolProcess Task) (PoolLabel Task) where
  init := create
  step := step

section Steps

variable {s t : PoolProcess Task} {l : PoolLabel Task}

theorem step_cases (h : s.step l = some t) :
    s.aborted = false ∧
      (callsPure s.pool l = true ∧ t = { s with aborted := true } ∨
        ∃ pool, s.pool.step l = some pool ∧ t = { s with pool }) := by
  rw [step] at h
  obtain ⟨hlive, h⟩ := Option.ite_none_left_eq_some.mp h
  refine ⟨by simpa using hlive, ?_⟩
  split at h
  case isTrue hcall => exact Or.inl ⟨hcall, (Option.some.inj h).symm⟩
  case isFalse =>
    obtain ⟨pool, hpool, rfl⟩ := Option.map_eq_some_iff.mp h
    exact Or.inr ⟨pool, hpool, rfl⟩

/-- A step that the pool can take is taken, or ends the process. -/
theorem step_isSome (hlive : s.aborted = false) (h : (s.pool.step l).isSome) :
    ∃ t, s.step l = some t := by
  obtain ⟨pool, hpool⟩ := Option.isSome_iff_exists.mp h
  rw [step, hlive, hpool]
  cases callsPure s.pool l with
  | true => exact ⟨_, rfl⟩
  | false => exact ⟨_, rfl⟩

theorem inv_pool (h : (system Task).Reachable s) : Inv s.pool := by
  apply h.invariant fun s => Inv s.pool
  · exact inv_create
  · intro s l t hinv hs
    obtain ⟨-, ⟨-, rfl⟩ | ⟨pool, hpool, rfl⟩⟩ := step_cases hs
    · exact hinv
    · exact hinv.step hpool

/-- The lines that are left of the shutdown, as long as the process lives. -/
def linesLeft (s : PoolProcess Task) : Nat := if s.aborted then 0 else Pool.linesLeft s.pool

omit [DecidableEq Task] in
theorem linesLeft_le (s : PoolProcess Task) : s.linesLeft ≤ Pool.linesLeft s.pool := by
  rw [linesLeft]
  split
  · exact Nat.zero_le _
  · exact le_rfl

/-- A worker that calls `Work()` has lines before it. -/
theorem linesLeft_pos {p : Pool Task} (h : Inv p) (hcall : callsPure p l = true) :
    0 < Pool.linesLeft p := by
  cases l with
  | run l =>
      cases l with
      | thread i =>
          have hwork : (p.dispatcher.workers i).pc.callsWork = true :=
            (Bool.and_eq_true_iff.mp hcall).1
          have hpc : (p.dispatcher.workers i).pc = .work := by
            cases hpc : (p.dispatcher.workers i).pc <;> rw [hpc] at hwork <;>
              first | rfl | cases hwork
          have hi : i < p.dispatcher.size := by
            by_contra hi
            rw [h.stage.fresh i (by omega)] at hpc
            cases hpc
          have hle := Finset.single_le_sum
            (f := fun i => rank (p.dispatcher.workers i) (p.dispatcher.semaphore.pc (.worker i)))
            (fun _ _ => Nat.zero_le _) (Finset.mem_range.mpr hi)
          have hrank : rank (p.dispatcher.workers i) (p.dispatcher.semaphore.pc (.worker i)) =
              14 := by
            rw [rank, hpc]
          rw [Pool.linesLeft, way]
          omega
      | _ => cases hcall
  | shutdown | destructor => cases hcall

end Steps

/-- **The shutdown ends.**  Once the destructor of the pool was called, and until it has
returned or the process has been aborted, some thread can go on that does not wait for a
`Work()` to return, or the worker that is being deleted is inside its `Work()`.  A run from
there is no longer than a multiple of the number of workers and of the spurious wake-ups in
it. -/
theorem shutdown_ends {s : PoolProcess Task} (hs : (system Task).Reachable s)
    (hnow : s.pool.shutdown ≠ .pool) :
    (s.pool.shutdown ≠ .gone → s.aborted = false →
      (∃ l s', isSpurious l = false ∧ s.pool.returnsWork l = false ∧ s.step l = some s') ∨
        DeletedInWork s.pool) ∧
      ∀ ls s', (system Task).runFrom s ls = some s' →
        ls.length ≤ 50 * s.pool.dispatcher.size + 2 + 17 * ls.countP isSpurious := by
  have h := inv_pool hs
  constructor
  · intro hgone hlive
    refine (canGo_of_inv h hnow hgone).imp ?_ id
    rintro ⟨l, hl, hreturn, hstep⟩
    obtain ⟨s', hs'⟩ := step_isSome hlive hstep
    exact ⟨l, s', hl, hreturn, hs'⟩
  · intro ls s' hrun
    have hle := System.runFrom_length_le
      (fun s : PoolProcess Task => Inv s.pool ∧ s.pool.shutdown ≠ .pool) linesLeft isSpurious 16
      ?_ ⟨h, hnow⟩ hrun
    · have hpool := Pool.linesLeft_le h.stage
      have := linesLeft_le s
      omega
    · rintro s l s' ⟨h, hnow⟩ hs
      obtain ⟨hlive, ⟨hcall, rfl⟩ | ⟨pool, hpool, rfl⟩⟩ := step_cases hs
      · have hpos := linesLeft_pos h hcall
        refine ⟨⟨h, hnow⟩, fun _ => ?_, ?_⟩
        · simpa [linesLeft, hlive] using hpos
        · simp [linesLeft]
      · obtain ⟨hstill, hlower, hraise⟩ := goes_step h hnow hpool
        refine ⟨⟨h.step hpool, hstill⟩, ?_⟩
        simpa [linesLeft, hlive] using And.intro hlower hraise

theorem shutdown_ends_seven :
    ∃ s, (system Nat).runFrom create (addAndDispatch ++ [.shutdown]) = some s ∧
      s.pool.dispatcher.size = 1 ∧
      ∀ ls s', (system Nat).runFrom s ls = some s' →
        ls.length ≤ 52 + 17 * ls.countP isSpurious := by
  obtain ⟨s, hrun, hloop, hsize⟩ :
      ∃ s, (system Nat).runFrom create (addAndDispatch ++ [.shutdown]) = some s ∧
        s.pool.shutdown = .loop ∧ s.pool.dispatcher.size = 1 :=
    ⟨_, rfl, by decide, by decide⟩
  have hreach : (system Nat).Reachable s := System.reachable_of_run hrun
  refine ⟨s, hrun, hsize, fun ls s' hls => ?_⟩
  have := (shutdown_ends hreach (by simp [hloop])).2 ls s' hls
  omega

end PoolProcess

end ThreadedServer
