import Mathlib.Data.Option.Basic

/-!
# The background worker

`Worker.cc` splits one object between two threads: the worker's own thread,
which runs `worker_func`, and the thread that owns the worker and calls
`TryAssign` and the destructor.  They meet at `task_assigned_mutex_`, at the
condition variable `task_assigned_cond_` and at the fields `task_` and
`enabled_`.

Every `pthread` call and every access to a shared field is one atomic step
here.  `threadStep` is the next step of `worker_func`, `tryAssignStep` the next
step inside a `TryAssign` call and `destroyStep` the next step inside the
destructor; a step that has to wait is `none`.  The worker's thread is the only
one that ever waits on `task_assigned_cond_`, so that the state of the
condition variable is part of that thread's control point: `waiting` until it
is signalled, `woken` from then on until it has the mutex again.

The call of the virtual `Work()` is one step here and its return another, whichever
`Work()` that is: while the worker is being destroyed it is not the one of the derived
class, and `WorkerEnd` says what comes of that.
-/

namespace ThreadedServer

/-- The two threads that take a worker's `task_assigned_mutex_`. -/
inductive Holder
  | thread
  | owner
  deriving DecidableEq, Repr

/-- Control points of `worker_func`.  The points after `take` carry the local
variable `Task* task`. -/
inductive ThreadPc (Task : Type*)
  /-- created, has not locked the mutex yet -/
  | start
  /-- about to test `worker->enabled_` -/
  | loop
  /-- about to test `!worker->task_` -/
  | check
  /-- about to call `pthread_cond_wait` -/
  | condWait
  /-- blocked in `pthread_cond_wait`, no signal pending -/
  | waiting
  /-- woken in `pthread_cond_wait`, has to lock the mutex again -/
  | woken
  /-- about to test `worker->task_` -/
  | recheck
  /-- about to call `worker->Work()` -/
  | work
  /-- inside `worker->Work()` -/
  | working
  /-- about to read `worker->task_` into `task` -/
  | take
  /-- about to store `NULL` into `worker->task_` -/
  | clear (task : Option Task)
  /-- about to call `task->Done()` -/
  | done (task : Option Task)
  /-- inside `task->Done()` -/
  | inDone (task : Option Task)
  /-- about to `delete task` -/
  | delete (task : Option Task)
  /-- about to unlock the mutex for good -/
  | unlock
  /-- `worker_func` has returned -/
  | exited
  deriving DecidableEq, Repr

/-- `worker_func` is about to call `Work()`. -/
def ThreadPc.callsWork {Task : Type*} : ThreadPc Task → Bool
  | .work => true
  | _ => false

/-- `worker_func` is inside `Work()`. -/
def ThreadPc.insideWork {Task : Type*} : ThreadPc Task → Bool
  | .working => true
  | _ => false

/-- The members of `BackgroundWorker` that its threads share, with the control
point of the worker's own thread. -/
structure BackgroundWorker (Task : Type*) where
  taskAssignedMutex : Option Holder
  task : Option Task
  enabled : Bool
  pc : ThreadPc Task
  deriving DecidableEq, Repr

namespace BackgroundWorker

variable {Task : Type*}

/-- The constructor: the thread is created but has not run yet. -/
def create : BackgroundWorker Task where
  taskAssignedMutex := none
  task := none
  enabled := true
  pc := .start

/-- `GetTask()`. -/
def getTask (w : BackgroundWorker Task) : Option Task := w.task

/-- `pthread_cond_signal(&task_assigned_cond_)`: it wakes the worker's thread
if that is waiting and is forgotten otherwise. -/
def condSignal (w : BackgroundWorker Task) : BackgroundWorker Task :=
  match w.pc with
  | .waiting => { w with pc := .woken }
  | _ => w

/-- The next step of `worker_func`. -/
def threadStep (w : BackgroundWorker Task) : Option (BackgroundWorker Task) :=
  match w.pc with
  | .start =>
      if w.taskAssignedMutex = none then
        some { w with taskAssignedMutex := some .thread, pc := .loop }
      else none
  | .loop => some { w with pc := if w.enabled then .check else .unlock }
  | .check => some { w with pc := if w.task.isNone then .condWait else .recheck }
  | .condWait => some { w with taskAssignedMutex := none, pc := .waiting }
  | .waiting => none
  | .woken =>
      if w.taskAssignedMutex = none then
        some { w with taskAssignedMutex := some .thread, pc := .recheck }
      else none
  | .recheck => some { w with pc := if w.task.isSome then .work else .loop }
  | .work => some { w with pc := .working }
  | .working => some { w with pc := .take }
  | .take => some { w with pc := .clear w.task }
  | .clear task => some { w with task := none, pc := .done task }
  -- a virtual call through a null `task` would not return
  | .done none => none
  | .done (some t) => some { w with pc := .inDone (some t) }
  | .inDone task => some { w with pc := .delete task }
  | .delete _ => some { w with pc := .loop }
  | .unlock => some { w with taskAssignedMutex := none, pc := .exited }
  | .exited => none

/-- A spurious return from `pthread_cond_wait`. -/
def spuriousWake (w : BackgroundWorker Task) : Option (BackgroundWorker Task) :=
  match w.pc with
  | .waiting => some { w with pc := .woken }
  | _ => none

/-- The control points at which the worker's thread holds the mutex. -/
def ThreadHolds : ThreadPc Task → Prop
  | .start | .waiting | .woken | .exited => False
  | _ => True

end BackgroundWorker

/-- Control points of `BackgroundWorker::TryAssign`. -/
inductive TryPc
  /-- about to call `pthread_mutex_trylock` -/
  | trylock
  /-- about to test `task_` -/
  | check
  /-- about to unlock and return false -/
  | unlockFalse
  /-- about to store the task into `task_` -/
  | assign
  /-- about to call `pthread_cond_signal` -/
  | signal
  /-- about to unlock and return true -/
  | unlockTrue
  /-- returns to the caller -/
  | ret (result : Bool)
  deriving DecidableEq, Repr

/-- Control points of `BackgroundWorker::~BackgroundWorker`. -/
inductive DestroyPc
  /-- about to clear `enabled_` -/
  | disable
  /-- about to lock the mutex -/
  | lock
  /-- about to test `task_` -/
  | check
  /-- about to `delete task_` -/
  | delete
  /-- about to store `NULL` into `task_` -/
  | clear
  /-- about to call `pthread_cond_signal` -/
  | signal
  /-- about to unlock the mutex -/
  | unlock
  /-- about to `pthread_join` the worker's thread -/
  | join
  /-- has returned -/
  | destroyed
  deriving DecidableEq, Repr

namespace BackgroundWorker

variable {Task : Type*}

/-- The next step inside `TryAssign(t)`; no step of it ever waits. -/
def tryAssignStep (t : Task) (w : BackgroundWorker Task) :
    TryPc → BackgroundWorker Task × TryPc
  | .trylock =>
      if w.taskAssignedMutex = none then
        ({ w with taskAssignedMutex := some .owner }, .check)
      else (w, .ret false)
  | .check => (w, if w.task.isSome then .unlockFalse else .assign)
  | .unlockFalse => ({ w with taskAssignedMutex := none }, .ret false)
  | .assign => ({ w with task := some t }, .signal)
  | .signal => (w.condSignal, .unlockTrue)
  | .unlockTrue => ({ w with taskAssignedMutex := none }, .ret true)
  | .ret b => (w, .ret b)

/-- The next step inside the destructor. -/
def destroyStep (w : BackgroundWorker Task) :
    DestroyPc → Option (BackgroundWorker Task × DestroyPc)
  | .disable => some ({ w with enabled := false }, .lock)
  | .lock =>
      if w.taskAssignedMutex = none then
        some ({ w with taskAssignedMutex := some .owner }, .check)
      else none
  | .check => some (w, if w.task.isSome then .delete else .signal)
  | .delete => some (w, .clear)
  | .clear => some ({ w with task := none }, .signal)
  | .signal => some (w.condSignal, .unlock)
  | .unlock => some ({ w with taskAssignedMutex := none }, .join)
  | .join =>
      match w.pc with
      | .exited => some (w, .destroyed)
      | _ => none
  | .destroyed => none

/-- The control points of `TryAssign` at which the caller holds the mutex. -/
def TryHolds : TryPc → Prop
  | .trylock | .ret _ => False
  | _ => True

/-- The control points of the destructor at which it holds the mutex. -/
def DestroyHolds : DestroyPc → Prop
  | .check | .delete | .clear | .signal | .unlock => True
  | _ => False

@[simp] theorem condSignal_task (w : BackgroundWorker Task) :
    w.condSignal.task = w.task := by
  unfold condSignal
  split <;> rfl

@[simp] theorem condSignal_mutex (w : BackgroundWorker Task) :
    w.condSignal.taskAssignedMutex = w.taskAssignedMutex := by
  unfold condSignal
  split <;> rfl

@[simp] theorem condSignal_enabled (w : BackgroundWorker Task) :
    w.condSignal.enabled = w.enabled := by
  unfold condSignal
  split <;> rfl

/-- A signal moves the thread only from `waiting` to `woken`. -/
theorem condSignal_pc (w : BackgroundWorker Task) :
    w.condSignal.pc = w.pc ∧ w.pc ≠ .waiting ∨
      w.pc = .waiting ∧ w.condSignal.pc = .woken := by
  unfold condSignal
  split
  case h_1 h => exact Or.inr ⟨h, rfl⟩
  case h_2 h => exact Or.inl ⟨rfl, fun hw => h hw⟩

/-- Being signalled does not give the thread the mutex. -/
@[simp] theorem condSignal_holds (w : BackgroundWorker Task) :
    ThreadHolds w.condSignal.pc ↔ ThreadHolds w.pc := by
  rcases w.condSignal_pc with ⟨h, _⟩ | ⟨h, h'⟩
  · rw [h]
  · simp [h, h', ThreadHolds]

/-- What one step of `worker_func` can be, one case for each outcome. -/
inductive ThreadStep : BackgroundWorker Task → BackgroundWorker Task → Prop
  | start {x en} : ThreadStep ⟨none, x, en, .start⟩ ⟨some .thread, x, en, .loop⟩
  | stay {m x} : ThreadStep ⟨m, x, true, .loop⟩ ⟨m, x, true, .check⟩
  | leave {m x} : ThreadStep ⟨m, x, false, .loop⟩ ⟨m, x, false, .unlock⟩
  | idle {m en} : ThreadStep ⟨m, none, en, .check⟩ ⟨m, none, en, .condWait⟩
  | busy {m t en} : ThreadStep ⟨m, some t, en, .check⟩ ⟨m, some t, en, .recheck⟩
  | condWait {m x en} : ThreadStep ⟨m, x, en, .condWait⟩ ⟨none, x, en, .waiting⟩
  | relock {x en} : ThreadStep ⟨none, x, en, .woken⟩ ⟨some .thread, x, en, .recheck⟩
  | found {m t en} : ThreadStep ⟨m, some t, en, .recheck⟩ ⟨m, some t, en, .work⟩
  | missed {m en} : ThreadStep ⟨m, none, en, .recheck⟩ ⟨m, none, en, .loop⟩
  | work {m x en} : ThreadStep ⟨m, x, en, .work⟩ ⟨m, x, en, .working⟩
  | worked {m x en} : ThreadStep ⟨m, x, en, .working⟩ ⟨m, x, en, .take⟩
  | take {m x en} : ThreadStep ⟨m, x, en, .take⟩ ⟨m, x, en, .clear x⟩
  | clear {m x y en} : ThreadStep ⟨m, x, en, .clear y⟩ ⟨m, none, en, .done y⟩
  | done {m x t en} : ThreadStep ⟨m, x, en, .done (some t)⟩ ⟨m, x, en, .inDone (some t)⟩
  | observed {m x y en} : ThreadStep ⟨m, x, en, .inDone y⟩ ⟨m, x, en, .delete y⟩
  | delete {m x y en} : ThreadStep ⟨m, x, en, .delete y⟩ ⟨m, x, en, .loop⟩
  | unlock {m x en} : ThreadStep ⟨m, x, en, .unlock⟩ ⟨none, x, en, .exited⟩

theorem threadStep_cases {w w' : BackgroundWorker Task}
    (h : w.threadStep = some w') : ThreadStep w w' := by
  obtain ⟨m, x, en, pc⟩ := w
  cases pc with
  | start | woken =>
      obtain ⟨hm, rfl⟩ : m = none ∧ _ = w' := by simpa [threadStep] using h
      subst hm
      constructor
  | loop =>
      obtain rfl := Option.some.inj h
      cases en <;> constructor
  | check | recheck =>
      obtain rfl := Option.some.inj h
      cases x <;> constructor
  | waiting | exited => simp [threadStep] at h
  | done y =>
      cases y with
      | none => simp [threadStep] at h
      | some t =>
          obtain rfl := Option.some.inj h
          constructor
  | _ =>
      obtain rfl := Option.some.inj h
      constructor

/-- The thread's own steps never store a task: they keep `task_` or, after its
work, clear it. -/
theorem threadStep_task {w w' : BackgroundWorker Task} (h : w.threadStep = some w') :
    w'.task = w.task ∨ w'.task = none ∧ ∃ x, w.pc = .clear x := by
  cases threadStep_cases h with
  | clear => exact Or.inr ⟨rfl, _, rfl⟩
  | _ => exact Or.inl rfl

theorem threadStep_ne_exited {w w' : BackgroundWorker Task}
    (h : w.threadStep = some w') : w.pc ≠ .exited := by
  cases threadStep_cases h <;> simp

/-- `TryAssign` is about to store only after it found `task_` empty. -/
theorem tryAssignStep_assign {t : Task} {w w' : BackgroundWorker Task} {pc : TryPc}
    (h : w.tryAssignStep t pc = (w', .assign)) : w'.task = none := by
  cases pc with
  | check =>
      obtain ⟨hpc, rfl⟩ : w.task = none ∧ w = w' := by
        cases htask : w.task <;> simp_all [tryAssignStep]
      exact hpc
  | trylock =>
      simp only [tryAssignStep] at h
      split at h <;> simp at h
  | _ => simp [tryAssignStep] at h

theorem spuriousWake_cases {w w' : BackgroundWorker Task}
    (h : w.spuriousWake = some w') :
    w.pc = .waiting ∧ w' = { w with pc := .woken } := by
  unfold spuriousWake at h
  split at h
  case h_1 hpc => exact ⟨hpc, (Option.some.inj h).symm⟩
  case h_2 => cases h

end BackgroundWorker

end ThreadedServer
