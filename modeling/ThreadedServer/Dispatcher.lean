import ThreadedServer.Transition
import ThreadedServer.Worker
import ThreadedServer.Semaphore

/-!
# The task dispatcher and its pool of workers

`TaskDispatcher.cc` ties the semaphore and the workers together.  `AddWorker`
registers a worker and raises the semaphore; `Dispatch` waits on the semaphore
and then offers the task to one worker after another with `TryAssign`; a worker
that is done with a task raises the semaphore again through `OnTaskDone`.

One thread, the accept loop, calls `AddWorker` and `Dispatch`.  The state below
has a control point for that thread, one for the thread of every worker, and
the place of each of them inside the semaphore; a step is one line of one
thread.  A worker's thread is created by its constructor, before `AddWorker`:
its first steps touch nothing that the accept loop sees before `AddWorker`, so
that they may as well be taken after the registration.
-/

namespace ThreadedServer

/-- The threads that enter the dispatcher's semaphore. -/
inductive Party
  /-- the accept loop -/
  | main
  /-- the thread of the worker with this index in `workers_` -/
  | worker (i : Nat)
  deriving DecidableEq, Repr

/-- Control points of the accept loop. -/
inductive MainPc (Task : Type*)
  /-- in no function of the dispatcher -/
  | idle
  /-- `AddWorker`: inside `semaphore_->Signal()` -/
  | addSignal
  /-- `Dispatch`: inside `semaphore_->Wait()` -/
  | wait (task : Task)
  /-- `Dispatch`: about to call `task->SetObserver(this)` -/
  | setObserver (task : Task)
  /-- `Dispatch`: about to test the loop condition, with `it` at worker `i` -/
  | loop (task : Task) (i : Nat)
  /-- `Dispatch`: inside `TryAssign` of worker `i` -/
  | tryAssign (task : Task) (i : Nat) (pc : TryPc)
  /-- the assertion at the end of `Dispatch` has failed -/
  | assertFailed (task : Task)
  deriving DecidableEq, Repr

/-- A dispatcher, its workers and the accept loop.  `observer t` says that
`t->observer_` is the dispatcher. -/
structure TaskDispatcher (Task : Type*) where
  semaphore : Semaphore Party
  size : Nat
  workers : Nat → BackgroundWorker Task
  observer : Task → Bool
  main : MainPc Task

/-- Whose step comes next. -/
inductive DispatchLabel (Task : Type*)
  /-- the accept loop calls `AddWorker` -/
  | addWorker
  /-- the accept loop calls `Dispatch` -/
  | dispatch (task : Task)
  /-- the next line of the accept loop -/
  | main
  /-- a step of the accept loop inside the semaphore -/
  | mainSem (a : SemAct Party)
  /-- the next line of a worker's thread -/
  | thread (i : Nat)
  /-- a worker's thread returns spuriously from `pthread_cond_wait` -/
  | spurious (i : Nat)
  /-- a step of a worker's thread inside the semaphore -/
  | threadSem (i : Nat) (a : SemAct Party)
  deriving DecidableEq, Repr

namespace TaskDispatcher

variable {Task : Type*}

/-- The constructor. -/
def create : TaskDispatcher Task where
  semaphore := .create 0
  size := 0
  workers := fun _ => .create
  observer := fun _ => false
  main := .idle

/-- Replace the worker with index `i`. -/
def setWorker (d : TaskDispatcher Task) (i : Nat) (w : BackgroundWorker Task) :
    TaskDispatcher Task :=
  { d with workers := Function.update d.workers i w }

/-- `AddWorker`, up to its call of `Signal`. -/
def addWorker (d : TaskDispatcher Task) : Option (TaskDispatcher Task) :=
  match d.main with
  | .idle =>
      some { d.setWorker d.size .create with
        size := d.size + 1
        semaphore := d.semaphore.signal .main
        main := .addSignal }
  | _ => none

/-- `Dispatch`, up to its call of `Wait`. -/
def dispatch (d : TaskDispatcher Task) (task : Task) : Option (TaskDispatcher Task) :=
  match d.main with
  | .idle => some { d with semaphore := d.semaphore.wait .main, main := .wait task }
  | _ => none

/-- `OnTaskDone`, called by the thread of worker `i`, up to its call of
`Signal`. -/
def onTaskDone (d : TaskDispatcher Task) (i : Nat) : TaskDispatcher Task :=
  { d with semaphore := d.semaphore.signal (.worker i) }

/-- `task->Done()`, called by the thread of worker `i`. -/
def taskDone [DecidableEq Task] (d : TaskDispatcher Task) (i : Nat) (task : Task) :
    TaskDispatcher Task :=
  if d.observer task then d.onTaskDone i else d

/-- The next line of the accept loop, outside the semaphore. -/
def mainStep [DecidableEq Task] (d : TaskDispatcher Task) :
    Option (TaskDispatcher Task) :=
  match d.main with
  | .idle => none
  | .addSignal => if d.semaphore.pc .main = .out then some { d with main := .idle } else none
  | .wait task =>
      if d.semaphore.pc .main = .out then some { d with main := .setObserver task } else none
  | .setObserver task =>
      some { d with observer := Function.update d.observer task true, main := .loop task 0 }
  | .loop task i =>
      some { d with
        main := if i < d.size then .tryAssign task i .trylock else .assertFailed task }
  | .tryAssign _ _ (.ret true) => some { d with main := .idle }
  | .tryAssign task i (.ret false) => some { d with main := .loop task (i + 1) }
  | .tryAssign task i pc =>
      let (w, pc') := (d.workers i).tryAssignStep task pc
      some { d.setWorker i w with main := .tryAssign task i pc' }
  | .assertFailed _ => none

/-- The next line of the thread of worker `i`, outside the semaphore. -/
def threadStep [DecidableEq Task] (d : TaskDispatcher Task) (i : Nat) :
    Option (TaskDispatcher Task) :=
  match (d.workers i).pc with
  | .done (some task) =>
      (d.workers i).threadStep.map fun w => (d.setWorker i w).taskDone i task
  | .inDone _ =>
      if d.semaphore.pc (.worker i) = .out then
        (d.workers i).threadStep.map (d.setWorker i)
      else none
  | _ => (d.workers i).threadStep.map (d.setWorker i)

variable [DecidableEq Task]

/-- One step of one thread. -/
def step (d : TaskDispatcher Task) : DispatchLabel Task → Option (TaskDispatcher Task)
  | .addWorker => d.addWorker
  | .dispatch task => d.dispatch task
  | .main => d.mainStep
  | .mainSem a => (d.semaphore.step .main a).map fun s => { d with semaphore := s }
  | .thread i => if i < d.size then d.threadStep i else none
  | .spurious i =>
      if i < d.size then (d.workers i).spuriousWake.map (d.setWorker i) else none
  | .threadSem i a =>
      if i < d.size then
        (d.semaphore.step (.worker i) a).map fun s => { d with semaphore := s }
      else none

/-- The dispatcher with the accept loop and the threads of its workers. -/
def system (Task : Type*) [DecidableEq Task] :
    Transition.System (TaskDispatcher Task) (DispatchLabel Task) where
  init := create
  step := step

end TaskDispatcher

end ThreadedServer
