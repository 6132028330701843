import ThreadedServer.Permits
import ThreadedServer.Wakeups

/-!
# Shutting the pool down

`~TaskDispatcher` deletes the workers from the back of `workers_`, one after the
other, and then the semaphore.  Only the worker that is being deleted has been told
to stop: the others go on with the tasks they have, and raise the semaphore when
they are done.  The destructor of a worker takes back a task that the worker has not
begun, waits for one that it has begun, and joins the thread.

This file follows the pool from its first task to the end of the destructor, for
every interleaving of the accept loop with the threads of the workers.  What a worker
sees is a run of a single worker with its owner (`WorkerLife`), because the accept
loop is the owner of every worker and calls one function at a time.  A task is a new
object each time `Dispatch` is called.
-/

namespace ThreadedServer

/-- Control points of `~TaskDispatcher`. -/
inductive ShutdownPc
  /-- not called -/
  | pool
  /-- about to test `workers_.empty()` -/
  | loop
  /-- inside `delete workers_.back()` -/
  | destroy (pc : DestroyPc)
  /-- about to delete the semaphore -/
  | deleteSemaphore
  /-- has returned -/
  | gone
  deriving DecidableEq, Repr

/-- The dispatcher up to its destruction.  `size` of the dispatcher counts the workers that
were ever added and `remaining` those that are still in `workers_`; `log` and `results`
record, with the index of the worker, what was done with a task and what `TryAssign`
returned. -/
structure Pool (Task : Type*) where
  dispatcher : TaskDispatcher Task
  shutdown : ShutdownPc
  remaining : Nat
  given : List Task
  log : List (Nat × Task × TaskEvent)
  results : List (Nat × Task × Bool)

/-- The steps of the pool. -/
inductive PoolLabel (Task : Type*)
  /-- a step of the dispatcher and of its workers -/
  | run (l : DispatchLabel Task)
  /-- `~TaskDispatcher` is called -/
  | shutdown
  /-- the next line of `~TaskDispatcher` -/
  | destructor
  deriving DecidableEq, Repr

namespace Pool

variable {Task : Type*}

/-- An event of worker `i`. -/
def tagged {α : Type*} (i : Nat) (events : List (Task × α)) : List (Nat × Task × α) :=
  events.map fun e => (i, e)

/-- What the next line of the accept loop does with a task. -/
def mainEvents : MainPc Task → List (Nat × Task × TaskEvent)
  | .tryAssign t i pc => tagged i (OwnedWorker.tryAssignEvents t pc)
  | _ => []

/-- What a call of `TryAssign` returns that is over with the next line of the accept loop. -/
def mainResults : MainPc Task → List (Nat × Task × Bool)
  | .tryAssign t i (.ret b) => [(i, t, b)]
  | _ => []

/-- What a step of the dispatcher and its workers does with a task. -/
def runEvents (d : TaskDispatcher Task) : DispatchLabel Task → List (Nat × Task × TaskEvent)
  | .main => mainEvents d.main
  | .thread i => tagged i (OwnedWorker.threadEvents (d.workers i))
  | _ => []

/-- The results of `TryAssign` in a step of the dispatcher and its workers. -/
def runResults (d : TaskDispatcher Task) : DispatchLabel Task → List (Nat × Task × Bool)
  | .main => mainResults d.main
  | _ => []

variable [DecidableEq Task]

/-- Whether the accept loop may make the call: not once the destructor runs, and each task is
given to `Dispatch` once. -/
def mayCall (p : Pool Task) : DispatchLabel Task → Bool
  | .addWorker => p.shutdown = .pool
  | .dispatch t => p.shutdown = .pool ∧ t ∉ p.given
  | _ => true

/-- The tasks given to `Dispatch` after the step. -/
def givenAfter (given : List Task) : DispatchLabel Task → List Task
  | .dispatch t => t :: given
  | _ => given

/-- The workers in `workers_` after the step. -/
def remainingAfter (remaining : Nat) : DispatchLabel Task → Nat
  | .addWorker => remaining + 1
  | _ => remaining

/-- A step of the dispatcher and of its workers. -/
def runStep (p : Pool Task) (l : DispatchLabel Task) : Option (Pool Task) :=
  if p.mayCall l then
    (p.dispatcher.step l).map fun d =>
      { p with
        dispatcher := d
        remaining := remainingAfter p.remaining l
        given := givenAfter p.given l
        log := p.log ++ runEvents p.dispatcher l
        results := p.results ++ runResults p.dispatcher l }
  else none

/-- The next line of `~TaskDispatcher`; the worker that is deleted is the last one in
`workers_`. -/
def destructorStep (p : Pool Task) : Option (Pool Task) :=
  match p.shutdown with
  | .pool | .gone => none
  | .loop =>
      some { p with
        shutdown := if p.remaining = 0 then .deleteSemaphore else .destroy .disable }
  -- `workers_.pop_back()`
  | .destroy .destroyed => some { p with shutdown := .loop, remaining := p.remaining - 1 }
  | .destroy pc =>
      ((p.dispatcher.workers (p.remaining - 1)).destroyStep pc).map fun r =>
        { p with
          dispatcher := p.dispatcher.setWorker (p.remaining - 1) r.1
          shutdown := .destroy r.2
          log := p.log ++ tagged (p.remaining - 1)
            (OwnedWorker.destroyEvents (p.dispatcher.workers (p.remaining - 1)) pc) }
  | .deleteSemaphore => some { p with shutdown := .gone }

/-- A step of the pool. -/
def step (p : Pool Task) : PoolLabel Task → Option (Pool Task)
  | .run l => p.runStep l
  | .shutdown =>
      if p.shutdown = .pool ∧ p.dispatcher.main = .idle then some { p with shutdown := .loop }
      else none
  | .destructor => p.destructorStep

/-- A new dispatcher. -/
def create : Pool Task where
  dispatcher := .create
  shutdown := .pool
  remaining := 0
  given := []
  log := []
  results := []

/-- The pool with the accept loop and the threads of the workers. -/
def system (Task : Type*) [DecidableEq Task] : Transition.System (Pool Task) (PoolLabel Task) where
  init := create
  step := step

/-! ## The stages of the destructor -/

/-- The control points of the destructor with the worker in `workers_` that it is at. -/
structure Stage (p : Pool Task) : Prop where
  main : p.shutdown ≠ .pool → p.dispatcher.main = .idle
  size : p.remaining ≤ p.dispatcher.size
  pool : p.shutdown = .pool → p.remaining = p.dispatcher.size
  destroy : ∀ pc, p.shutdown = .destroy pc → 0 < p.remaining
  empty : p.shutdown = .deleteSemaphore ∨ p.shutdown = .gone → p.remaining = 0
  trying : ∀ t i pc, p.dispatcher.main = .tryAssign t i pc → i < p.dispatcher.size
  fresh : ∀ i, p.dispatcher.size ≤ i → p.dispatcher.workers i = .create

omit [DecidableEq Task] in
theorem stage_create : Stage (create : Pool Task) := by
  constructor <;> simp [create, TaskDispatcher.create]

/-- What a step of a worker's thread does to the dispatcher: it raises the semaphore on behalf
of `Done()` and has to be out of it to go on. -/
theorem threadStep_worker {d d' : TaskDispatcher Task} {i : Nat}
    (h : d.threadStep i = some d') :
    ∃ w, (d.workers i).threadStep = some w ∧ d'.workers = Function.update d.workers i w ∧
      d'.size = d.size ∧ d'.main = d.main ∧
      ((∃ t, (d.workers i).pc = .done (some t) ∧
          (d'.semaphore = d.semaphore ∨ d'.semaphore = d.semaphore.signal (.worker i))) ∨
        (∀ t, (d.workers i).pc ≠ .done (some t)) ∧ d'.semaphore = d.semaphore ∧
          ∀ y, (d.workers i).pc = .inDone y → d.semaphore.pc (.worker i) = .out) := by
  unfold TaskDispatcher.threadStep at h
  split at h
  case h_1 task hpc =>
    obtain ⟨w, hw, rfl⟩ := Option.map_eq_some_iff.mp h
    refine ⟨w, hw, ?_⟩
    unfold TaskDispatcher.taskDone
    split
    · exact ⟨rfl, rfl, rfl, Or.inl ⟨task, hpc, Or.inr rfl⟩⟩
    · exact ⟨rfl, rfl, rfl, Or.inl ⟨task, hpc, Or.inl rfl⟩⟩
  case h_2 y hpc =>
    split at h
    case isTrue hout =>
      obtain ⟨w, hw, rfl⟩ := Option.map_eq_some_iff.mp h
      exact ⟨w, hw, rfl, rfl, rfl, Or.inr ⟨by simp [hpc], rfl, fun _ _ => hout⟩⟩
    case isFalse => cases h
  case h_3 hdone hin =>
    obtain ⟨w, hw, rfl⟩ := Option.map_eq_some_iff.mp h
    exact ⟨w, hw, rfl, rfl, rfl, Or.inr ⟨hdone, rfl, fun y hy => absurd hy (hin y)⟩⟩

omit [DecidableEq Task] in
/-- The task that the accept loop is in `Dispatch` with. -/
def mainTask : MainPc Task → Option Task
  | .wait t | .setObserver t | .loop t _ | .tryAssign t _ _ | .assertFailed t => some t
  | .idle | .addSignal => none

/-- What a line of the accept loop can do. -/
inductive MainMove (d d' : TaskDispatcher Task) : Prop
  /-- a line outside `TryAssign` -/
  | quiet (workers : d'.workers = d.workers)
      (before : ∀ t i pc, d.main ≠ .tryAssign t i pc)
      (after : ∀ t i pc, d'.main ≠ .tryAssign t i pc)
      (task : mainTask d'.main = mainTask d.main)
  /-- the call of `TryAssign` -/
  | offer (t : Task) (i : Nat) (workers : d'.workers = d.workers)
      (before : d.main = .loop t i) (registered : i < d.size)
      (after : d'.main = .tryAssign t i .trylock)
  /-- a line of `TryAssign` -/
  | line (t : Task) (i : Nat) (pc : TryPc) (before : d.main = .tryAssign t i pc)
      (inside : ∀ b, pc ≠ .ret b)
      (workers : d'.workers =
        Function.update d.workers i ((d.workers i).tryAssignStep t pc).1)
      (after : d'.main = .tryAssign t i ((d.workers i).tryAssignStep t pc).2)
  /-- the return from `TryAssign` -/
  | back (t : Task) (i : Nat) (b : Bool) (workers : d'.workers = d.workers)
      (before : d.main = .tryAssign t i (.ret b))
      (after : d'.main = if b then .idle else .loop t (i + 1))

theorem mainStep_move {d d' : TaskDispatcher Task} (h : d.mainStep = some d') :
    MainMove d d' ∧ d'.size = d.size ∧ d'.semaphore = d.semaphore := by
  unfold TaskDispatcher.mainStep at h
  cases hmain : d.main with
  | idle => simp [hmain] at h
  | assertFailed t => simp [hmain] at h
  | addSignal | wait t =>
      simp only [hmain, Option.ite_none_right_eq_some] at h
      obtain ⟨-, h⟩ := h
      obtain rfl := Option.some.inj h
      exact ⟨.quiet rfl (by simp [hmain]) (by simp) (by simp [hmain, mainTask]), rfl, rfl⟩
  | setObserver t =>
      simp only [hmain] at h
      obtain rfl := Option.some.inj h
      exact ⟨.quiet rfl (by simp [hmain]) (by simp) (by simp [hmain, mainTask]), rfl, rfl⟩
  | loop t i =>
      simp only [hmain] at h
      obtain rfl := Option.some.inj h
      by_cases hi : i < d.size
      · exact ⟨.offer t i rfl hmain hi (by simp [hi]), rfl, rfl⟩
      · exact ⟨.quiet rfl (by simp [hmain]) (by simp [hi]) (by simp [hmain, hi, mainTask]),
          rfl, rfl⟩
  | tryAssign t i pc =>
      cases pc with
      | ret b =>
          cases b <;>
            · simp only [hmain] at h
              obtain rfl := Option.some.inj h
              exact ⟨.back t i _ rfl hmain rfl, rfl, rfl⟩
      | _ =>
          simp only [hmain] at h
          obtain rfl := Option.some.inj h
          exact ⟨.line t i _ hmain (by simp) rfl rfl, rfl, rfl⟩

omit [DecidableEq Task] in
/-- The dispatcher of the stage may move, as long as the accept loop and the workers that are
not registered stay in place. -/
theorem Stage.dispatcher {p : Pool Task} (h : Stage p) (d : TaskDispatcher Task)
    (hsize : d.size = p.dispatcher.size)
    (hmain : p.shutdown ≠ .pool → d.main = .idle)
    (htrying : ∀ t i pc, d.main = .tryAssign t i pc → i < d.size)
    (hfresh : ∀ i, d.size ≤ i → d.workers i = p.dispatcher.workers i)
    (given : List Task) (log : List (Nat × Task × TaskEvent))
    (results : List (Nat × Task × Bool)) :
    Stage { p with dispatcher := d, given := given, log := log, results := results } where
  main := hmain
  size := by
    rw [hsize]
    exact h.size
  pool hpool := by
    rw [hsize]
    exact h.pool hpool
  destroy := h.destroy
  empty := h.empty
  trying := htrying
  fresh i hi := by
    have hsame := hfresh i hi
    rw [hsize] at hi
    rw [hsame, h.fresh i hi]

theorem Stage.run {p p' : Pool Task} (h : Stage p) {l : DispatchLabel Task}
    (hs : p.runStep l = some p') : Stage p' := by
  obtain ⟨hcall, hs⟩ := Option.ite_none_right_eq_some.mp hs
  obtain ⟨d, hd, rfl⟩ := Option.map_eq_some_iff.mp hs
  cases l with
  | addWorker =>
      have hpool : p.shutdown = .pool := by simpa [mayCall] using hcall
      replace hd : p.dispatcher.addWorker = some d := hd
      unfold TaskDispatcher.addWorker at hd
      split at hd
      case h_2 => cases hd
      case h_1 hidle =>
        obtain rfl := Option.some.inj hd
        have hsize := h.pool hpool
        refine ⟨fun hno => absurd hpool hno, ?_, fun _ => ?_, fun pc hpc => ?_, ?_, by simp, ?_⟩
        · simp [remainingAfter, hsize]
        · simp [remainingAfter, hsize]
        · simp [remainingAfter]
        · simp [hpool]
        · intro i hi
          have hlt : p.dispatcher.size < i := hi
          have hne : i ≠ p.dispatcher.size := by omega
          simpa [TaskDispatcher.setWorker, hne] using h.fresh i (by omega)
  | dispatch t =>
      have hpool : p.shutdown = .pool := by
        have : p.shutdown = .pool ∧ t ∉ p.given := by simpa [mayCall] using hcall
        exact this.1
      replace hd : p.dispatcher.dispatch t = some d := hd
      unfold TaskDispatcher.dispatch at hd
      split at hd
      case h_2 => cases hd
      case h_1 hidle =>
        obtain rfl := Option.some.inj hd
        refine h.dispatcher { p.dispatcher with
            semaphore := p.dispatcher.semaphore.wait .main, main := .wait t } rfl
          (fun hno => absurd hpool hno) ?_ (fun _ _ => rfl) _ _ _
        intro u i pc hpc
        cases hpc
  | main =>
      replace hd : p.dispatcher.mainStep = some d := hd
      obtain ⟨hmove, hsize, -⟩ := mainStep_move hd
      have hidle : p.shutdown ≠ .pool → d.main = .idle := by
        intro hno
        have := h.main hno
        simp [TaskDispatcher.mainStep, this] at hd
      refine h.dispatcher d hsize hidle ?_ ?_ _ _ _
      · intro t i pc hpc
        rw [hsize]
        cases hmove with
        | quiet _ _ after _ => exact absurd hpc (after t i pc)
        | offer t' i' _ _ hi after =>
            rw [after] at hpc
            obtain ⟨-, rfl, -⟩ : _ ∧ i' = i ∧ _ := by simpa using hpc
            exact hi
        | line t' i' pc' before _ _ after =>
            rw [after] at hpc
            obtain ⟨-, rfl, -⟩ : _ ∧ i' = i ∧ _ := by simpa using hpc
            exact h.trying _ _ _ before
        | back t' i' b _ _ after =>
            rw [after] at hpc
            cases b <;> simp at hpc
      · intro i hi
        rw [hsize] at hi
        cases hmove with
        | quiet workers => rw [workers]
        | offer _ _ workers => rw [workers]
        | back _ _ _ workers => rw [workers]
        | line t' i' pc' before _ workers =>
            have := h.trying _ _ _ before
            have hne : i ≠ i' := by omega
            rw [workers, Function.update_of_ne hne]
  | mainSem a =>
      obtain ⟨s, -, rfl⟩ := Option.map_eq_some_iff.mp hd
      exact h.dispatcher { p.dispatcher with semaphore := s } rfl h.main h.trying
        (fun _ _ => rfl) _ _ _
  | thread i =>
      obtain ⟨hi, hd⟩ := Option.ite_none_right_eq_some.mp hd
      obtain ⟨w, -, hworkers, hsize, hmain, -⟩ := threadStep_worker hd
      refine h.dispatcher d hsize ?_ ?_ ?_ _ _ _
      · rw [hmain]
        exact h.main
      · rw [hmain, hsize]
        exact h.trying
      · intro j hj
        rw [hsize] at hj
        have hne : j ≠ i := by omega
        rw [hworkers, Function.update_of_ne hne]
  | spurious i =>
      obtain ⟨hi, hd⟩ := Option.ite_none_right_eq_some.mp hd
      obtain ⟨w, -, rfl⟩ := Option.map_eq_some_iff.mp hd
      refine h.dispatcher (p.dispatcher.setWorker i w) rfl h.main h.trying ?_ _ _ _
      intro j hj
      have hlt : p.dispatcher.size ≤ j := hj
      have hne : j ≠ i := by omega
      exact Function.update_of_ne hne _ _
  | threadSem i a =>
      obtain ⟨-, hd⟩ := Option.ite_none_right_eq_some.mp hd
      obtain ⟨s, -, rfl⟩ := Option.map_eq_some_iff.mp hd
      exact h.dispatcher { p.dispatcher with semaphore := s } rfl h.main h.trying
        (fun _ _ => rfl) _ _ _

omit [DecidableEq Task] in
/-- What a line of `~TaskDispatcher` can do. -/
theorem destructorStep_cases {p p' : Pool Task} (h : p.destructorStep = some p') :
    p.shutdown = .loop ∧ p' = { p with
        shutdown := if p.remaining = 0 then .deleteSemaphore else .destroy .disable } ∨
      p.shutdown = .destroy .destroyed ∧ p' = { p with
        shutdown := .loop, remaining := p.remaining - 1 } ∨
      (∃ pc r, p.shutdown = .destroy pc ∧
        (p.dispatcher.workers (p.remaining - 1)).destroyStep pc = some r ∧
        p' = { p with
          dispatcher := p.dispatcher.setWorker (p.remaining - 1) r.1
          shutdown := .destroy r.2
          log := p.log ++ tagged (p.remaining - 1)
            (OwnedWorker.destroyEvents (p.dispatcher.workers (p.remaining - 1)) pc) }) ∨
      p.shutdown = .deleteSemaphore ∧ p' = { p with shutdown := .gone } := by
  unfold destructorStep at h
  cases hshutdown : p.shutdown with
  | pool => simp [hshutdown] at h
  | gone => simp [hshutdown] at h
  | loop =>
      simp only [hshutdown] at h
      exact Or.inl ⟨rfl, (Option.some.inj h).symm⟩
  | deleteSemaphore =>
      simp only [hshutdown] at h
      exact Or.inr (Or.inr (Or.inr ⟨rfl, (Option.some.inj h).symm⟩))
  | destroy pc =>
      cases pc with
      | destroyed =>
          simp only [hshutdown] at h
          exact Or.inr (Or.inl ⟨rfl, (Option.some.inj h).symm⟩)
      | _ =>
          simp only [hshutdown] at h
          obtain ⟨r, hr, rfl⟩ := Option.map_eq_some_iff.mp h
          exact Or.inr (Or.inr (Or.inl ⟨_, r, rfl, hr, rfl⟩))

omit [DecidableEq Task] in
theorem Stage.destructor {p p' : Pool Task} (h : Stage p) (hs : p.destructorStep = some p') :
    Stage p' := by
  obtain ⟨hmain, hsize, hpool, hdestroy, hempty, htrying, hfresh⟩ := h
  rcases destructorStep_cases hs with ⟨hnow, rfl⟩ | ⟨hnow, rfl⟩ | ⟨pc, r, hnow, hr, rfl⟩ |
    ⟨hnow, rfl⟩
  · have hidle := hmain (by simp [hnow])
    by_cases hr : p.remaining = 0
    · exact ⟨fun _ => hidle, hsize, by simp [hr], by simp [hr], fun _ => hr, htrying, hfresh⟩
    · exact ⟨fun _ => hidle, hsize, by simp [hr], fun _ _ => Nat.pos_of_ne_zero hr,
        by simp [hr], htrying, hfresh⟩
  · have hidle := hmain (by simp [hnow])
    refine ⟨fun _ => hidle, ?_, by simp, by simp, by simp, htrying, hfresh⟩
    show p.remaining - 1 ≤ p.dispatcher.size
    omega
  · have hidle := hmain (by simp [hnow])
    have hpos := hdestroy pc hnow
    refine ⟨fun _ => hidle, hsize, by simp, fun _ _ => hpos, by simp, htrying, ?_⟩
    intro i hi
    have hlt : p.dispatcher.size ≤ i := hi
    have hne : i ≠ p.remaining - 1 := by omega
    have hsame := hfresh i hlt
    simpa [TaskDispatcher.setWorker, hne] using hsame
  · exact ⟨fun _ => hmain (by simp [hnow]), hsize, by simp, by simp,
      fun _ => hempty (Or.inl hnow), htrying, hfresh⟩

theorem Stage.step {p p' : Pool Task} (h : Stage p) {l : PoolLabel Task}
    (hs : p.step l = some p') : Stage p' := by
  cases l with
  | run l => exact h.run hs
  | destructor => exact h.destructor hs
  | shutdown =>
      obtain ⟨⟨hpool, hidle⟩, hs⟩ := Option.ite_none_right_eq_some.mp hs
      obtain rfl := Option.some.inj hs
      exact ⟨fun _ => hidle, h.size, by simp, by simp, by simp, h.trying, h.fresh⟩

/-! ## The semaphore -/

/-- The control points of `Signal`. -/
def Signalling (p : SemPc) : Prop :=
  p = .signalLock ∨ p = .signalRaise ∨ p = .signalCond ∨ p = .signalUnlock

/-- A thread that does not wait stays in `Signal` until it leaves, and nobody enters by a step
inside the semaphore. -/
theorem move_signalling {ι : Type*} {i : ι} {p p' : SemPc} {l l' : Option ι} {c c' : Int}
    (h : Semaphore.Move i p l c p' l' c') (hp : p ≠ .out → Signalling p) :
    p' ≠ .out → p ≠ .out ∧ Signalling p' := by
  cases h <;> simp_all [Signalling]

/-- Only the accept loop waits, and a worker's thread is in the semaphore only to raise it on
behalf of `Done()`. -/
structure SemSafe (d : TaskDispatcher Task) : Prop where
  sound : d.semaphore.Sound
  worker : ∀ i, d.semaphore.pc (.worker i) ≠ .out →
    (∃ y, (d.workers i).pc = .inDone y) ∧ Signalling (d.semaphore.pc (.worker i))
  main : TaskDispatcher.SemFits d.main (d.semaphore.pc .main)
  waiters : ∀ q ∈ d.semaphore.waiters, q = .main ∧ d.semaphore.pc .main = .waitCond

/-- Who waits on the counter after a step: those who waited before, and a thread that has just
fallen asleep; a thread that is up again does not wait any more. -/
theorem step_waiters {ι : Type*} [DecidableEq ι] {s s' : Semaphore ι} {i : ι} {a : SemAct ι}
    (h : s.step i a = some s') :
    (∀ q ∈ s'.waiters, q ∈ s.waiters ∨ q = i ∧ s.pc i = .waitBlock ∧ s'.pc i = .waitCond) ∧
      (s.pc i = .waitCond → s'.pc i = .waitCond ∨ i ∉ s'.waiters) := by
  have herase : ∀ j, ∀ q ∈ s.waiters.erase j, q ∈ s.waiters :=
    fun j q hq => List.mem_of_mem_erase hq
  cases a with
  | run =>
      replace h : s.runStep i = some s' := h
      unfold Semaphore.runStep at h
      cases hpc : s.pc i <;> simp only [hpc] at h
      case out => cases h
      case signalCond => cases h
      case waitLock | signalLock =>
        obtain ⟨-, rfl⟩ : s.lock = none ∧ _ = s' := by simpa using h
        exact ⟨fun q hq => Or.inl hq, by simp⟩
      case waitCond =>
        obtain ⟨⟨hno, -⟩, rfl⟩ : (i ∉ s.waiters ∧ s.lock = none) ∧ _ = s' := by simpa using h
        exact ⟨fun q hq => Or.inl hq, fun _ => Or.inr hno⟩
      case waitBlock =>
        obtain rfl := Option.some.inj h
        refine ⟨fun q hq => ?_, by simp⟩
        rcases List.mem_cons.mp hq with rfl | hq
        · exact Or.inr ⟨rfl, rfl, by simp⟩
        · exact Or.inl hq
      all_goals
        obtain rfl := Option.some.inj h
        exact ⟨fun q hq => Or.inl hq, by simp⟩
  | wake j =>
      cases j with
      | none =>
          obtain ⟨⟨hpc, -⟩, rfl⟩ : (s.pc i = .signalCond ∧ s.waiters = []) ∧ _ = s' := by
            simpa [Semaphore.step] using h
          exact ⟨fun q hq => Or.inl hq, by simp [hpc]⟩
      | some k =>
          obtain ⟨⟨hpc, -⟩, rfl⟩ : (s.pc i = .signalCond ∧ k ∈ s.waiters) ∧ _ = s' := by
            simpa [Semaphore.step] using h
          exact ⟨fun q hq => Or.inl (herase k q hq), by simp [hpc]⟩
  | spurious =>
      obtain ⟨hmem, rfl⟩ : i ∈ s.waiters ∧ _ = s' := by simpa [Semaphore.step] using h
      exact ⟨fun q hq => Or.inl (herase i q hq), fun hpc => Or.inl hpc⟩

omit [DecidableEq Task] in
/-- A step of one thread inside the semaphore. -/
theorem SemSafe.semStep {d : TaskDispatcher Task} (h : SemSafe d) {q : Party} {a : SemAct Party}
    {s : Semaphore Party} (hs : d.semaphore.step q a = some s) :
    SemSafe { d with semaphore := s } := by
  obtain ⟨hmove, hother⟩ := Semaphore.step_move hs
  obtain ⟨hwaiters, hup⟩ := step_waiters hs
  obtain ⟨hsound, hworker, hmain, hold⟩ := h
  cases q with
  | main =>
      refine ⟨hsound.step hs, ?_, (TaskDispatcher.mainMove hmain hmove).1, ?_⟩
      · intro i
        have hsame := hother (.worker i) (by simp)
        rw [show ({ d with semaphore := s } : TaskDispatcher Task).semaphore = s from rfl, hsame]
        exact hworker i
      · intro r hr
        rcases hwaiters r hr with hr' | ⟨rfl, -, hcond⟩
        · obtain ⟨rfl, hcond⟩ := hold r hr'
          refine ⟨rfl, ?_⟩
          exact (hup hcond).resolve_right fun hno => hno hr
        · exact ⟨rfl, hcond⟩
  | worker i =>
      have hsame := hother .main (by simp)
      refine ⟨hsound.step hs, ?_, by simpa [hsame] using hmain, ?_⟩
      · intro j
        by_cases hj : j = i
        · subst hj
          intro hne
          obtain ⟨hin, hplace⟩ := move_signalling hmove (fun h => (hworker j h).2) hne
          exact ⟨(hworker j hin).1, hplace⟩
        · have hsame := hother (.worker j) (by simp [hj])
          rw [show ({ d with semaphore := s } : TaskDispatcher Task).semaphore = s from rfl, hsame]
          exact hworker j
      · intro r hr
        rcases hwaiters r hr with hr' | ⟨rfl, hblock, -⟩
        · obtain ⟨rfl, hcond⟩ := hold r hr'
          exact ⟨rfl, by simpa [hsame] using hcond⟩
        · have := (hworker i (by simp [hblock])).2
          simp [hblock, Signalling] at this

omit [DecidableEq Task] in
theorem semSafe_create : SemSafe (TaskDispatcher.create : TaskDispatcher Task) where
  sound := Semaphore.sound_create le_rfl
  worker i hi := absurd rfl hi
  main := rfl
  waiters := by simp [TaskDispatcher.create, Semaphore.create]

omit [DecidableEq Task] in
/-- Workers that are out of the semaphore may move. -/
theorem SemSafe.workers {d : TaskDispatcher Task} (h : SemSafe d) {d' : TaskDispatcher Task}
    (hsem : d'.semaphore = d.semaphore) (hmain : d'.main = d.main)
    (hpc : ∀ i, d.semaphore.pc (.worker i) ≠ .out → (d'.workers i).pc = (d.workers i).pc) :
    SemSafe d' where
  sound := by
    rw [hsem]
    exact h.sound
  worker i hi := by
    rw [hsem] at hi ⊢
    rw [hpc i hi]
    exact h.worker i hi
  main := by
    rw [hsem, hmain]
    exact h.main
  waiters := by
    rw [hsem]
    exact h.waiters

omit [DecidableEq Task] in
/-- A thread outside the semaphore calls one of its functions. -/
theorem SemSafe.enter {d d' : TaskDispatcher Task} (h : SemSafe d) {q : Party} {place : SemPc}
    (hsem : d'.semaphore = d.semaphore.goto q place) (hout : d.semaphore.pc q = .out)
    (hfree : ¬ Semaphore.Holds place)
    (hworker : ∀ i, (d.semaphore.goto q place).pc (.worker i) ≠ .out →
      (∃ y, (d'.workers i).pc = .inDone y) ∧
        Signalling ((d.semaphore.goto q place).pc (.worker i)))
    (hmain : TaskDispatcher.SemFits d'.main ((d.semaphore.goto q place).pc .main)) :
    SemSafe d' where
  sound := by
    rw [hsem]
    exact h.sound.goto_out hout hfree
  worker := by
    rw [hsem]
    exact hworker
  main := by
    rw [hsem]
    exact hmain
  waiters r hr := by
    rw [hsem] at hr ⊢
    obtain ⟨rfl, hcond⟩ := h.waiters r hr
    have hne : Party.main ≠ q := by
      rintro rfl
      rw [hout] at hcond
      cases hcond
    exact ⟨rfl, by simpa [hne] using hcond⟩

theorem SemSafe.thread {d d' : TaskDispatcher Task} (h : SemSafe d) {i : Nat}
    (hs : d.threadStep i = some d') : SemSafe d' := by
  obtain ⟨w, hw, hworkers, -, hmain, hsem⟩ := threadStep_worker hs
  have hout : (∀ y, (d.workers i).pc = .inDone y → d.semaphore.pc (.worker i) = .out) →
      d.semaphore.pc (.worker i) = .out := by
    intro hin
    by_contra hne
    obtain ⟨y, hy⟩ := (h.worker i hne).1
    exact hne (hin y hy)
  have hothers : d.semaphore.pc (.worker i) = .out → ∀ j,
      d.semaphore.pc (.worker j) ≠ .out → (d'.workers j).pc = (d.workers j).pc := by
    intro hi j hj
    have hne : j ≠ i := by
      rintro rfl
      exact hj hi
    rw [hworkers, Function.update_of_ne hne]
  rcases hsem with ⟨t, hpc, hsem | hsem⟩ | ⟨-, hsem, hin⟩
  · exact h.workers hsem hmain (hothers (hout fun y hy => by simp [hpc] at hy))
  · have hi := hout fun y hy => by simp [hpc] at hy
    refine h.enter hsem hi id ?_ ?_
    · intro j hj
      by_cases hji : j = i
      · subst hji
        refine ⟨⟨some t, ?_⟩, by simp [Signalling]⟩
        rw [hworkers, Function.update_self]
        simp only [BackgroundWorker.threadStep, hpc] at hw
        obtain rfl := Option.some.inj hw
        rfl
      · simp only [Semaphore.goto_pc, Party.worker.injEq, hji, if_false] at hj ⊢
        rw [hothers hi j hj]
        exact h.worker j hj
    · rw [hmain]
      simpa using h.main
  · exact h.workers hsem hmain (hothers (hout hin))

/-- A line of the accept loop is outside the semaphore, before and after it. -/
theorem mainStep_out {d d' : TaskDispatcher Task}
    (hfits : TaskDispatcher.SemFits d.main (d.semaphore.pc .main))
    (h : d.mainStep = some d') :
    d.semaphore.pc .main = .out ∧ TaskDispatcher.SemFits d'.main .out := by
  unfold TaskDispatcher.mainStep at h
  cases hmain : d.main with
  | idle => simp [hmain] at h
  | assertFailed t => simp [hmain] at h
  | addSignal | wait t =>
      simp only [hmain, Option.ite_none_right_eq_some] at h
      obtain ⟨hout, h⟩ := h
      obtain rfl := Option.some.inj h
      exact ⟨hout, rfl⟩
  | setObserver t =>
      simp only [hmain] at h hfits
      obtain rfl := Option.some.inj h
      exact ⟨hfits, rfl⟩
  | loop t i =>
      simp only [hmain] at h hfits
      obtain rfl := Option.some.inj h
      refine ⟨hfits, ?_⟩
      by_cases hi : i < d.size <;> simp [hi, TaskDispatcher.SemFits]
  | tryAssign t i pc =>
      rw [hmain] at hfits
      cases pc with
      | ret b =>
          cases b <;>
            · simp only [hmain] at h
              obtain rfl := Option.some.inj h
              exact ⟨hfits, rfl⟩
      | _ =>
          simp only [hmain] at h
          obtain rfl := Option.some.inj h
          exact ⟨hfits, rfl⟩

omit [DecidableEq Task] in
theorem tryAssignStep_pc (w : BackgroundWorker Task) (t : Task) (pc : TryPc) :
    (w.tryAssignStep t pc).1.pc = w.pc ∨ w.pc = .waiting := by
  cases pc with
  | trylock =>
      by_cases hm : w.taskAssignedMutex = none <;> simp [BackgroundWorker.tryAssignStep, hm]
  | signal => exact w.condSignal_pc.imp (fun h => h.1) fun h => h.1
  | _ => exact Or.inl rfl

omit [DecidableEq Task] in
theorem destroyStep_pc {w : BackgroundWorker Task} {pc : DestroyPc}
    {r : BackgroundWorker Task × DestroyPc} (h : w.destroyStep pc = some r) :
    r.1.pc = w.pc ∨ w.pc = .waiting := by
  cases pc with
  | lock =>
      obtain ⟨-, rfl⟩ : w.taskAssignedMutex = none ∧ _ = r := by
        simpa [BackgroundWorker.destroyStep] using h
      exact Or.inl rfl
  | join =>
      cases hpc : w.pc <;> simp [BackgroundWorker.destroyStep, hpc] at h
      subst h
      exact Or.inl hpc
  | signal =>
      obtain rfl := Option.some.inj h
      exact w.condSignal_pc.imp (fun h => h.1) fun h => h.1
  | destroyed => simp [BackgroundWorker.destroyStep] at h
  | _ =>
      obtain rfl := Option.some.inj h
      exact Or.inl rfl

omit [DecidableEq Task] in
/-- A worker that waits for a task may be woken: it is not in the semaphore. -/
theorem SemSafe.moved {d d' : TaskDispatcher Task} (h : SemSafe d) {i : Nat}
    {w : BackgroundWorker Task} (hworkers : d'.workers = Function.update d.workers i w)
    (hpc : w.pc = (d.workers i).pc ∨ (d.workers i).pc = .waiting) :
    ∀ j, d.semaphore.pc (.worker j) ≠ .out → (d'.workers j).pc = (d.workers j).pc := by
  intro j hj
  rw [hworkers]
  by_cases hji : j = i
  · subst hji
    rw [Function.update_self]
    refine hpc.resolve_right fun hwaiting => ?_
    obtain ⟨y, hy⟩ := (h.worker j hj).1
    rw [hwaiting] at hy
    cases hy
  · rw [Function.update_of_ne hji]

theorem SemSafe.mainLine {d d' : TaskDispatcher Task} (h : SemSafe d)
    (hs : d.mainStep = some d') : SemSafe d' := by
  obtain ⟨hmove, -, hsem⟩ := mainStep_move hs
  obtain ⟨hout, hfits⟩ := mainStep_out h.main hs
  have hpc : ∀ j, d.semaphore.pc (.worker j) ≠ .out → (d'.workers j).pc = (d.workers j).pc := by
    cases hmove with
    | quiet workers => simp [workers]
    | offer _ _ workers => simp [workers]
    | back _ _ _ workers => simp [workers]
    | line t i pc _ _ workers => exact h.moved workers (tryAssignStep_pc _ _ _)
  refine ⟨by rw [hsem]; exact h.sound, fun i hi => ?_, by rw [hsem, hout]; exact hfits,
    by rw [hsem]; exact h.waiters⟩
  rw [hsem] at hi ⊢
  rw [hpc i hi]
  exact h.worker i hi

theorem SemSafe.run {p p' : Pool Task} (h : SemSafe p.dispatcher) (hstage : Stage p)
    {l : DispatchLabel Task} (hs : p.runStep l = some p') : SemSafe p'.dispatcher := by
  obtain ⟨-, hs⟩ := Option.ite_none_right_eq_some.mp hs
  obtain ⟨d, hd, rfl⟩ := Option.map_eq_some_iff.mp hs
  show SemSafe d
  cases l with
  | addWorker =>
      replace hd : p.dispatcher.addWorker = some d := hd
      unfold TaskDispatcher.addWorker at hd
      split at hd
      case h_2 => cases hd
      case h_1 hidle =>
        obtain rfl := Option.some.inj hd
        have hout : p.dispatcher.semaphore.pc .main = .out := by
          have hfits := h.main
          rwa [hidle] at hfits
        refine h.enter rfl hout id ?_ (by simp [TaskDispatcher.SemFits])
        intro i hi
        have hi : p.dispatcher.semaphore.pc (.worker i) ≠ .out := by simpa using hi
        obtain ⟨⟨y, hy⟩, hplace⟩ := h.worker i hi
        have hne : i ≠ p.dispatcher.size := by
          rintro rfl
          rw [hstage.fresh _ le_rfl] at hy
          cases hy
        exact ⟨⟨y, by simpa [TaskDispatcher.setWorker, hne] using hy⟩, by simpa using hplace⟩
  | dispatch t =>
      replace hd : p.dispatcher.dispatch t = some d := hd
      unfold TaskDispatcher.dispatch at hd
      split at hd
      case h_2 => cases hd
      case h_1 hidle =>
        obtain rfl := Option.some.inj hd
        have hout : p.dispatcher.semaphore.pc .main = .out := by
          have hfits := h.main
          rwa [hidle] at hfits
        refine h.enter rfl hout id ?_ (by simp [TaskDispatcher.SemFits])
        intro i hi
        have hi : p.dispatcher.semaphore.pc (.worker i) ≠ .out := by simpa using hi
        simpa using h.worker i hi
  | main => exact h.mainLine hd
  | mainSem a =>
      obtain ⟨s, hsem, rfl⟩ := Option.map_eq_some_iff.mp hd
      exact h.semStep hsem
  | thread i =>
      obtain ⟨-, hd⟩ := Option.ite_none_right_eq_some.mp hd
      exact h.thread hd
  | spurious i =>
      obtain ⟨-, hd⟩ := Option.ite_none_right_eq_some.mp hd
      obtain ⟨w, hw, rfl⟩ := Option.map_eq_some_iff.mp hd
      obtain ⟨hpc, -⟩ := BackgroundWorker.spuriousWake_cases hw
      exact h.workers rfl rfl (h.moved rfl (Or.inr hpc))
  | threadSem i a =>
      obtain ⟨-, hd⟩ := Option.ite_none_right_eq_some.mp hd
      obtain ⟨s, hsem, rfl⟩ := Option.map_eq_some_iff.mp hd
      exact h.semStep hsem

theorem SemSafe.step {p p' : Pool Task} (h : SemSafe p.dispatcher) (hstage : Stage p)
    {l : PoolLabel Task} (hs : p.step l = some p') : SemSafe p'.dispatcher := by
  cases l with
  | run l => exact h.run hstage hs
  | shutdown =>
      obtain ⟨-, hs⟩ := Option.ite_none_right_eq_some.mp hs
      obtain rfl := Option.some.inj hs
      exact h
  | destructor =>
      rcases destructorStep_cases hs with ⟨-, rfl⟩ | ⟨-, rfl⟩ | ⟨pc, r, -, hr, rfl⟩ | ⟨-, rfl⟩
      · exact h
      · exact h
      · exact h.workers rfl rfl (h.moved rfl (destroyStep_pc hr))
      · exact h

end Pool

end ThreadedServer
