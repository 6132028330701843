import Mathlib.Data.List.Nodup
import ThreadedServer.Dispatch

/-!
# The descriptors of the clients

`accept` opens a descriptor for every client, and the `SocketTask` that is made of it
owns the `Socket` around it.  From there on the task goes from hand to hand: the
accept loop dispatches it, `TryAssign` stores it with a worker, and the worker's thread
deletes it when it is done.

The first part of this file follows the tasks through the dispatcher: no step loses
one, and only `delete` lets one go (`holds_step`).  (The destructors, which delete tasks
that nobody has begun, do not run: the accept loop never ends.)  The second part adds
the descriptors.  The task is deleted with its `Socket`, but `Socket` has no destructor,
so that the descriptor stays open: `descriptors_exact`.
-/

namespace ThreadedServer

namespace TaskDispatcher

open BackgroundWorker

variable {Task : Type*}

/-! ## Who has a task -/

/-- The task that the accept loop has in hand. -/
def offered : MainPc Task → Option Task
  | .wait t | .setObserver t | .loop t _ | .assertFailed t => some t
  -- the worker has it
  | .tryAssign _ _ .signal | .tryAssign _ _ .unlockTrue | .tryAssign _ _ (.ret true) => none
  | .tryAssign t _ _ => some t
  | .idle | .addSignal => none

/-- The task that only the local variable of `worker_func` refers to. -/
def finishing : ThreadPc Task → Option Task
  | .done y | .inDone y | .delete y => y
  | _ => none

/-- The task of a worker that has not been deleted. -/
def heldTask (w : BackgroundWorker Task) : Option Task := w.task.or (finishing w.pc)

/-- Somebody has the task. -/
def Holds (main : MainPc Task) (size : Nat) (workers : Nat → BackgroundWorker Task)
    (t : Task) : Prop :=
  offered main = some t ∨ ∃ i, i < size ∧ heldTask (workers i) = some t

/-- One of the other workers has the task. -/
def Elsewhere (size : Nat) (workers : Nat → BackgroundWorker Task) (i : Nat)
    (t : Task) : Prop :=
  ∃ j, j ≠ i ∧ j < size ∧ heldTask (workers j) = some t

/-- A thread that is about to delete a task has one, and `task_` is empty. -/
def Deleting (w : BackgroundWorker Task) : Prop :=
  ∀ y, w.pc = .delete y → w.task = none ∧ y.isSome

/-- The task that a step deletes. -/
def deletedTask (d : TaskDispatcher Task) : DispatchLabel Task → Option Task
  | .thread i =>
      match (d.workers i).pc with
      | .delete y => y
      | _ => none
  | _ => none

theorem holds_iff {main : MainPc Task} {size i : Nat} (hi : i < size)
    {workers : Nat → BackgroundWorker Task} {t : Task} :
    Holds main size workers t ↔ offered main = some t ∨ heldTask (workers i) = some t ∨
      Elsewhere size workers i t := by
  apply or_congr_right
  constructor
  · intro h
    obtain ⟨j, hj, hheld⟩ := h
    by_cases hji : j = i
    · exact Or.inl (hji ▸ hheld)
    · exact Or.inr ⟨j, hji, hj, hheld⟩
  · intro h
    rcases h with hheld | ⟨j, -, hj, hheld⟩
    · exact ⟨i, hi, hheld⟩
    · exact ⟨j, hj, hheld⟩

theorem elsewhere_update {size i : Nat} {workers : Nat → BackgroundWorker Task} {t : Task}
    (w : BackgroundWorker Task) :
    Elsewhere size (Function.update workers i w) i t ↔ Elsewhere size workers i t := by
  apply exists_congr
  intro j
  apply and_congr_right
  intro hji
  rw [Function.update_of_ne hji]

/-- When one worker moves, only what it has itself can change. -/
theorem holds_update {main : MainPc Task} {size i : Nat} (hi : i < size)
    {workers : Nat → BackgroundWorker Task} {w : BackgroundWorker Task} {t : Task} :
    Holds main size (Function.update workers i w) t ↔
      offered main = some t ∨ heldTask w = some t ∨ Elsewhere size workers i t := by
  rw [holds_iff hi, Function.update_self, elsewhere_update]

theorem deleting_update {workers : Nat → BackgroundWorker Task}
    (h : ∀ i, Deleting (workers i)) {i : Nat} {w : BackgroundWorker Task} (hw : Deleting w)
    (j : Nat) : Deleting (Function.update workers i w j) := by
  by_cases hji : j = i
  · subst hji
    rwa [Function.update_self]
  · rw [Function.update_of_ne hji]
    exact h j

/-! ## One step -/

/-- **A line of `worker_func`.**  The worker keeps what it has, unless the line is
`delete task`. -/
theorem heldTask_threadStep {w w' : BackgroundWorker Task} (hfits : TaskFits w.pc w.task)
    (hdel : Deleting w) (hs : w.threadStep = some w') :
    Deleting w' ∧ (heldTask w' = heldTask w ∧ (∀ y, w.pc ≠ .delete y) ∨
      w.pc = .delete (heldTask w) ∧ heldTask w' = none) := by
  cases threadStep_cases hs with
  | observed =>
      obtain ⟨hsome, hnone⟩ := hfits
      refine ⟨?_, Or.inl ⟨rfl, by simp⟩⟩
      intro z hz
      obtain rfl := ThreadPc.delete.inj hz
      exact ⟨hnone, hsome⟩
  | delete =>
      obtain ⟨hnone, -⟩ := hdel _ rfl
      dsimp only at hnone
      refine ⟨?_, Or.inr ?_⟩
      · intro z hz
        cases hz
      · simp [heldTask, finishing, hnone]
  | clear =>
      obtain ⟨rfl, hsome⟩ := hfits
      refine ⟨?_, Or.inl ⟨?_, by simp⟩⟩
      · intro z hz
        cases hz
      · simp [heldTask, finishing]
  | _ =>
      refine ⟨?_, Or.inl ⟨rfl, by simp⟩⟩
      intro z hz
      cases hz

/-- A spurious wake-up. -/
theorem heldTask_spuriousWake {w w' : BackgroundWorker Task} (hs : w.spuriousWake = some w') :
    Deleting w' ∧ heldTask w' = heldTask w := by
  obtain ⟨hpc, rfl⟩ := spuriousWake_cases hs
  constructor
  · intro y hy
    cases hy
  · rw [heldTask, heldTask, hpc]
    rfl

/-- A worker whose mutex the accept loop holds is not about to delete anything. -/
theorem not_finishing {w : BackgroundWorker Task} (h : ¬ ThreadHolds w.pc) :
    finishing w.pc = none ∧ ∀ y, w.pc ≠ .delete y := by
  cases hpc : w.pc <;> simp_all [ThreadHolds, finishing]

theorem heldTask_condSignal (w : BackgroundWorker Task) :
    heldTask w.condSignal = heldTask w := by
  rw [heldTask, heldTask, condSignal_task]
  rcases w.condSignal_pc with ⟨hsame, -⟩ | ⟨hold, hnew⟩
  · rw [hsame]
  · rw [hold, hnew]
    rfl

/-- The mutex of the worker does not concern its task. -/
theorem heldTask_lock (w : BackgroundWorker Task) (m : Option Holder) :
    heldTask { w with taskAssignedMutex := m } = heldTask w := rfl

/-- **A line of `TryAssign`.**  The task is with the accept loop until it is stored, and
with the worker from then on. -/
theorem holds_tryAssign {observer : Task → Bool} {live : Prop} {p : SemPc} {size i : Nat}
    {workers : Nat → BackgroundWorker Task} {t : Task} {pc : TryPc}
    (h : WorkerInv observer (TryHolds pc) live (workers i) p)
    (hfree : pc = .assign → (workers i).task = none) (hi : i < size) (u : Task) :
    Holds (.tryAssign t i ((workers i).tryAssignStep t pc).2) size
        (Function.update workers i ((workers i).tryAssignStep t pc).1) u ↔
      Holds (.tryAssign t i pc) size workers u := by
  rw [holds_update hi, holds_iff hi]
  cases pc with
  | trylock =>
      by_cases hm : (workers i).taskAssignedMutex = none <;>
        simp [BackgroundWorker.tryAssignStep, hm, offered, heldTask_lock]
  | check =>
      cases hx : (workers i).task <;> simp [BackgroundWorker.tryAssignStep, hx, offered]
  | unlockFalse | unlockTrue =>
      simp [BackgroundWorker.tryAssignStep, offered, heldTask_lock]
  | signal =>
      simp [BackgroundWorker.tryAssignStep, offered, heldTask_condSignal]
  | assign =>
      have hout := h.thread_out trivial
      have hbefore : heldTask (workers i) = none := by
        rw [heldTask, hfree rfl, (not_finishing hout).1]
        rfl
      have hafter : heldTask { workers i with task := some t } = some t := rfl
      simp [BackgroundWorker.tryAssignStep, offered, hbefore, hafter]
  | ret b => rfl

/-- A line of `TryAssign` leaves a worker that deletes alone. -/
theorem Deleting.tryAssignStep {observer : Task → Bool} {live : Prop} {p : SemPc} {t : Task}
    {pc : TryPc} {w : BackgroundWorker Task}
    (h : WorkerInv observer (TryHolds pc) live w p) (hdel : Deleting w) :
    Deleting (w.tryAssignStep t pc).1 := by
  cases pc with
  | trylock =>
      by_cases hm : w.taskAssignedMutex = none
      · rw [BackgroundWorker.tryAssignStep, if_pos hm]
        exact hdel
      · rw [BackgroundWorker.tryAssignStep, if_neg hm]
        exact hdel
  | assign =>
      intro y hy
      exact absurd hy ((not_finishing (h.thread_out trivial)).2 y)
  | signal =>
      intro y hy
      rcases w.condSignal_pc with ⟨hsame, -⟩ | ⟨-, hnew⟩
      · rw [BackgroundWorker.tryAssignStep, condSignal_task]
        exact hdel y (hsame ▸ hy)
      · cases hnew.symm.trans hy
  | _ => exact hdel

/-- **A line of the accept loop.**  It passes its task on and loses none. -/
theorem holds_mainStep [DecidableEq Task] {d d' : TaskDispatcher Task} (hinv : Inv d)
    (hdel : ∀ i, Deleting (d.workers i)) (hs : d.mainStep = some d') :
    (∀ i, Deleting (d'.workers i)) ∧
      ∀ u, Holds d'.main d'.size d'.workers u ↔ Holds d.main d.size d.workers u := by
  unfold TaskDispatcher.mainStep at hs
  split at hs
  case h_1 => cases hs
  case h_2 hmain =>
    obtain ⟨-, rfl⟩ : d.semaphore.pc .main = .out ∧ _ = d' := by simpa using hs
    exact ⟨hdel, fun u => by rw [hmain]; rfl⟩
  case h_3 t hmain =>
    obtain ⟨-, rfl⟩ : d.semaphore.pc .main = .out ∧ _ = d' := by simpa using hs
    exact ⟨hdel, fun u => by rw [hmain]; rfl⟩
  case h_4 t hmain =>
    obtain rfl := Option.some.inj hs
    exact ⟨hdel, fun u => by rw [hmain]; rfl⟩
  case h_5 t i hmain =>
    obtain rfl := Option.some.inj hs
    refine ⟨hdel, fun u => ?_⟩
    rw [hmain]
    dsimp only
    split <;> rfl
  case h_6 t i hmain =>
    obtain rfl := Option.some.inj hs
    exact ⟨hdel, fun u => by rw [hmain]; rfl⟩
  case h_7 t i hmain =>
    obtain rfl := Option.some.inj hs
    exact ⟨hdel, fun u => by rw [hmain]; rfl⟩
  case h_8 t i pc _ _ hmain =>
    obtain rfl := Option.some.inj hs
    have hoffer := hinv.offer
    rw [hmain] at hoffer
    obtain ⟨-, hi, hfree⟩ := hoffer
    have hworker := hinv.trying hmain
    refine ⟨deleting_update hdel ((hdel i).tryAssignStep hworker), fun u => ?_⟩
    rw [hmain]
    exact holds_tryAssign hworker hfree hi u
  case h_9 => cases hs

/-- **A line of a worker's thread.**  It deletes what it says it deletes, and loses
nothing else. -/
theorem holds_thread [DecidableEq Task] {d d' : TaskDispatcher Task} (hinv : Inv d)
    (hdel : ∀ i, Deleting (d.workers i)) {i : Nat} (hi : i < d.size)
    (hs : d.threadStep i = some d') :
    (∀ i, Deleting (d'.workers i)) ∧
      ∀ u, Holds d.main d.size d.workers u ↔
        deletedTask d (.thread i) = some u ∨ Holds d'.main d'.size d'.workers u := by
  obtain ⟨w, hw, hsize, hmain, hworkers⟩ := threadStep_worker hs
  rw [hsize, hmain, hworkers]
  obtain ⟨hdel', hheld⟩ := heldTask_threadStep (hinv.worker i).task (hdel i) hw
  refine ⟨deleting_update hdel hdel', fun u => ?_⟩
  rw [holds_iff hi, holds_update hi]
  rcases hheld with ⟨hsame, hpc⟩ | ⟨hpc, hnone⟩
  · have hdeleted : deletedTask d (.thread i) = none := by
      simp [deletedTask]
    rw [hdeleted, hsame]
    simp
  · have hdeleted : deletedTask d (.thread i) = heldTask (d.workers i) := by
      simp only [deletedTask, hpc]
    rw [hdeleted, hnone]
    tauto

/-- A new worker has no task. -/
theorem holds_addWorker {d d' : TaskDispatcher Task} (hdel : ∀ i, Deleting (d.workers i))
    (hs : d.addWorker = some d') :
    (∀ i, Deleting (d'.workers i)) ∧
      ∀ u, Holds d'.main d'.size d'.workers u ↔ Holds d.main d.size d.workers u := by
  unfold TaskDispatcher.addWorker at hs
  split at hs
  case h_1 hmain =>
    obtain rfl := Option.some.inj hs
    have hnew : Deleting (BackgroundWorker.create : BackgroundWorker Task) := by
      intro y hy
      cases hy
    have hcreate : heldTask (BackgroundWorker.create : BackgroundWorker Task) = none := rfl
    refine ⟨deleting_update hdel hnew, fun u => ?_⟩
    dsimp only [setWorker]
    rw [holds_update (Nat.lt_succ_self d.size), hcreate, Holds, hmain]
    simp only [offered, reduceCtorEq, false_or, Elsewhere]
    apply exists_congr
    intro j
    constructor
    · intro h
      exact ⟨by omega, h.2.2⟩
    · intro h
      exact ⟨by omega, by omega, h.2⟩
  case h_2 => cases hs

/-- **No task is lost.**  Whatever thread moves, somebody has a task after the step who
had one before, unless the step deletes it; only `Dispatch` brings in a task. -/
theorem holds_step [DecidableEq Task] {d d' : TaskDispatcher Task} (hinv : Inv d)
    (hdel : ∀ i, Deleting (d.workers i)) {l : DispatchLabel Task} (hs : d.step l = some d')
    (hl : ∀ t, l ≠ .dispatch t) :
    (∀ i, Deleting (d'.workers i)) ∧
      ∀ u, Holds d.main d.size d.workers u ↔
        deletedTask d l = some u ∨ Holds d'.main d'.size d'.workers u := by
  -- only a line of a worker's thread deletes anything
  have plain : (∀ i, Deleting (d'.workers i)) ∧
        (∀ u, Holds d'.main d'.size d'.workers u ↔ Holds d.main d.size d.workers u) →
      deletedTask d l = none → (∀ i, Deleting (d'.workers i)) ∧
        ∀ u, Holds d.main d.size d.workers u ↔
          deletedTask d l = some u ∨ Holds d'.main d'.size d'.workers u := by
    intro h hnone
    refine ⟨h.1, fun u => ?_⟩
    rw [hnone, h.2 u]
    simp
  cases l with
  | addWorker => exact plain (holds_addWorker hdel hs) rfl
  | dispatch t => exact absurd rfl (hl t)
  | main => exact plain (holds_mainStep hinv hdel hs) rfl
  | mainSem a =>
      obtain ⟨s, -, rfl⟩ := Option.map_eq_some_iff.mp hs
      exact plain ⟨hdel, fun _ => Iff.rfl⟩ rfl
  | thread i =>
      obtain ⟨hi, hs⟩ := Option.ite_none_right_eq_some.mp hs
      exact holds_thread hinv hdel hi hs
  | spurious i =>
      obtain ⟨hi, hs⟩ := Option.ite_none_right_eq_some.mp hs
      obtain ⟨w, hw, rfl⟩ := Option.map_eq_some_iff.mp hs
      obtain ⟨hawake, hsame⟩ := heldTask_spuriousWake hw
      refine plain ⟨deleting_update hdel hawake, fun u => ?_⟩ rfl
      exact (holds_update hi).trans (hsame ▸ (holds_iff hi).symm)
  | threadSem i a =>
      obtain ⟨-, hs⟩ := Option.ite_none_right_eq_some.mp hs
      obtain ⟨s, -, rfl⟩ := Option.map_eq_some_iff.mp hs
      exact plain ⟨hdel, fun _ => Iff.rfl⟩ rfl

/-- With `Dispatch` the accept loop has one more task in hand. -/
theorem holds_dispatch {d d' : TaskDispatcher Task} {t : Task} (hs : d.dispatch t = some d') :
    d.main = .idle ∧ d'.workers = d.workers ∧
      ∀ u, Holds d'.main d'.size d'.workers u ↔
        u = t ∨ Holds d.main d.size d.workers u := by
  unfold TaskDispatcher.dispatch at hs
  split at hs
  case h_1 hmain =>
    obtain rfl := Option.some.inj hs
    refine ⟨hmain, rfl, fun u => ?_⟩
    simp [Holds, hmain, offered, eq_comm]
  case h_2 => cases hs

/-- Those who have a task are the accept loop and as many workers as there are. -/
theorem length_le_of_holds {main : MainPc Task} {size : Nat}
    {workers : Nat → BackgroundWorker Task} {ts : List Task} (hnodup : ts.Nodup)
    (h : ∀ t ∈ ts, Holds main size workers t) :
    ts.length ≤ (offered main).toList.length + size := by
  have hsubset : ts ⊆ (offered main).toList ++
      (List.range size).filterMap fun i => heldTask (workers i) := by
    intro t ht
    rw [List.mem_append]
    rcases h t ht with hmain | ⟨i, hi, hheld⟩
    · exact Or.inl (Option.mem_toList.mpr hmain)
    · exact Or.inr (List.mem_filterMap.mpr ⟨i, List.mem_range.mpr hi, hheld⟩)
  have hle := (List.subperm_of_subset hnodup hsubset).length_le
  have hworkers := List.length_filterMap_le (fun i => heldTask (workers i)) (List.range size)
  rw [List.length_append] at hle
  rw [List.length_range] at hworkers
  omega

end TaskDispatcher

/-! ## The descriptors -/

/-- The server with the descriptors of its clients.  A `SocketTask` is known by the
descriptor that it was created with; `accepted` and `deleted` only record the run. -/
structure ServerDescriptors where
  dispatcher : TaskDispatcher Nat
  openFds : List Nat
  accepted : List Nat
  deleted : List Nat
  /-- `Die` after a failed `accept` -/
  died : Bool

/-- The steps of the server. -/
inductive ServerLabel
  /-- `accept` returns this descriptor, and `HandleClient` goes on to `Dispatch`; without
  a descriptor to spare, `accept` fails -/
  | accept (sock : Nat)
  /-- a step of the accept loop inside the dispatcher, or of a worker -/
  | pool (l : DispatchLabel Nat)

namespace ServerDescriptors

open TaskDispatcher

/-- `Socket` declares no destructor, and the implicit one does nothing with `socket_`:
the open descriptors afterwards. -/
def destroySocket (openFds : List Nat) (_socket : Nat) : List Nat := openFds

/-- `SocketTask::~SocketTask` -/
def destroySocketTask (openFds : List Nat) (sock : Nat) : List Nat :=
  destroySocket openFds sock

def create : ServerDescriptors where
  dispatcher := .create
  openFds := []
  accepted := []
  deleted := []
  died := false

/-- The body of the accept loop, up to the `Wait` in `Dispatch`.  The process may have
`limit` descriptors for clients, and the system hands out one that is not open. -/
def accept (limit : Nat) (s : ServerDescriptors) (sock : Nat) : Option ServerDescriptors :=
  (s.dispatcher.dispatch sock).bind fun dispatcher =>
    if s.openFds.length < limit then
      if sock ∈ s.openFds then none
      else some { s with
        dispatcher
        openFds := sock :: s.openFds
        accepted := sock :: s.accepted }
    else some { s with died := true }

/-- A step of the dispatcher other than `Dispatch`. -/
def pool (s : ServerDescriptors) (l : DispatchLabel Nat) : Option ServerDescriptors :=
  (s.dispatcher.step l).map fun dispatcher =>
    { s with
      dispatcher
      openFds := (deletedTask s.dispatcher l).elim s.openFds (destroySocketTask s.openFds)
      deleted := (deletedTask s.dispatcher l).toList ++ s.deleted }

/-- One step of the server, which has none after `exit`. -/
def step (limit : Nat) (s : ServerDescriptors) (l : ServerLabel) : Option ServerDescriptors :=
  if s.died then none
  else
    match l with
    | .accept sock => s.accept limit sock
    | .pool (.dispatch _) => none
    | .pool l => s.pool l

/-- The server with room for this many clients. -/
def system (limit : Nat) : Transition.System ServerDescriptors ServerLabel where
  init := create
  step := step limit

/-- The step deletes a `SocketTask`. -/
def Deletes (s : ServerDescriptors) : ServerLabel → Prop
  | .pool l => deletedTask s.dispatcher l ≠ none
  | .accept _ => False

/-- The descriptors that are open are those of the tasks that have not been deleted, the
one being dispatched and those of the workers: one for each worker at most, and one
more; and `accept` does not fail for want of a descriptor. -/
structure Exact (limit : Nat) (s : ServerDescriptors) : Prop where
  undeleted : ∀ fd, fd ∈ s.openFds ↔ fd ∈ s.accepted ∧ fd ∉ s.deleted
  holders : ∀ fd, fd ∈ s.openFds ↔
    Holds s.dispatcher.main s.dispatcher.size s.dispatcher.workers fd
  bounded : s.openFds.length ≤ s.dispatcher.size + 1
  accepts : s.dispatcher.size < limit → s.died = false

/-- What holds of the descriptors in every run. -/
structure Inv (s : ServerDescriptors) : Prop where
  pool : s.dispatcher.Inv
  deleting : ∀ i, Deleting (s.dispatcher.workers i)
  leaked : s.openFds = s.accepted
  nodup : s.openFds.Nodup
  traced : ∀ fd, fd ∈ s.accepted ↔ fd ∈ s.deleted ∨
    Holds s.dispatcher.main s.dispatcher.size s.dispatcher.workers fd

theorem inv_create : Inv create where
  pool := TaskDispatcher.inv_create
  deleting _ y hy := by cases hy
  leaked := rfl
  nodup := List.nodup_nil
  traced fd := by simp [create, TaskDispatcher.create, Holds, offered]

variable {limit : Nat}

/-- What a step can do: `accept` a client, fail to, or a step of the pool. -/
theorem step_cases {s t : ServerDescriptors} {l : ServerLabel} (h : step limit s l = some t) :
    s.died = false ∧
      ((∃ sock dispatcher, l = .accept sock ∧ s.dispatcher.dispatch sock = some dispatcher ∧
          s.openFds.length < limit ∧ sock ∉ s.openFds ∧ t = { s with
            dispatcher
            openFds := sock :: s.openFds
            accepted := sock :: s.accepted }) ∨
        (∃ sock, l = .accept sock ∧ s.dispatcher.main = .idle ∧ limit ≤ s.openFds.length ∧
          t = { s with died := true }) ∨
        ∃ m, l = .pool m ∧ (∀ sock, m ≠ .dispatch sock) ∧ s.pool m = some t) := by
  obtain ⟨hdied, h⟩ := Option.ite_none_left_eq_some.mp h
  refine ⟨by simpa using hdied, ?_⟩
  cases l with
  | accept sock =>
      obtain ⟨dispatcher, hdispatch, h⟩ := Option.bind_eq_some_iff.mp h
      by_cases hroom : s.openFds.length < limit
      · rw [if_pos hroom] at h
        obtain ⟨hfresh, h⟩ := Option.ite_none_left_eq_some.mp h
        exact Or.inl ⟨sock, dispatcher, rfl, hdispatch, hroom, hfresh, (Option.some.inj h).symm⟩
      · rw [if_neg hroom] at h
        exact Or.inr (Or.inl ⟨sock, rfl, (holds_dispatch hdispatch).1, by omega,
          (Option.some.inj h).symm⟩)
  | pool m =>
      refine Or.inr (Or.inr ⟨m, rfl, ?_, ?_⟩)
      · rintro sock rfl
        cases h
      · cases m with
        | dispatch sock => cases h
        | _ => exact h

/-- **One step.**  A descriptor that was opened stays open. -/
theorem Inv.step {s t : ServerDescriptors} {l : ServerLabel} (h : Inv s)
    (hs : step limit s l = some t) : Inv t := by
  obtain ⟨-, hcases⟩ := step_cases hs
  rcases hcases with ⟨sock, dispatcher, -, hdispatch, -, hfresh, rfl⟩ | ⟨sock, -, -, -, rfl⟩ |
    ⟨m, -, hm, hpool⟩
  · obtain ⟨-, hworkers, hholds⟩ := holds_dispatch hdispatch
    refine ⟨h.pool.dispatch hdispatch, fun i => ?_, ?_, ?_, fun fd => ?_⟩
    · dsimp only
      rw [hworkers]
      exact h.deleting i
    · exact congrArg (sock :: ·) h.leaked
    · exact List.nodup_cons.mpr ⟨hfresh, h.nodup⟩
    · dsimp only
      rw [hholds fd, List.mem_cons, h.traced fd]
      exact or_left_comm
  · exact ⟨h.pool, h.deleting, h.leaked, h.nodup, h.traced⟩
  · obtain ⟨dispatcher, hstep, rfl⟩ := Option.map_eq_some_iff.mp hpool
    obtain ⟨hdel, hholds⟩ := holds_step h.pool h.deleting hstep hm
    have hopen : (deletedTask s.dispatcher m).elim s.openFds
        (destroySocketTask s.openFds) = s.openFds := by
      cases deletedTask s.dispatcher m <;> rfl
    refine ⟨h.pool.step hstep, hdel, ?_, ?_, fun fd => ?_⟩
    · exact hopen.trans h.leaked
    · dsimp only
      rw [hopen]
      exact h.nodup
    · rw [h.traced fd, hholds fd, List.mem_append, Option.mem_toList]
      dsimp only
      tauto

theorem inv_of_reachable {s : ServerDescriptors} (h : (system limit).Reachable s) : Inv s :=
  h.invariant Inv inv_create fun _ _ _ hs hstep => hs.step hstep

/-- **No descriptor comes back.**  However many clients have been served and are gone,
the server accepts no more of them in its life than it may have descriptors. -/
theorem accepted_length_le {s : ServerDescriptors} (h : (system limit).Reachable s) :
    s.accepted.length ≤ limit := by
  refine Transition.System.ReachableVia.invariant
    (fun s : ServerDescriptors => s.accepted.length ≤ limit) ?_ ?_ h
  · exact Nat.zero_le limit
  intro s l t hreach _ hle hstep
  obtain ⟨-, hcases⟩ := step_cases hstep
  rcases hcases with ⟨sock, dispatcher, -, -, hroom, -, rfl⟩ | ⟨sock, -, -, -, rfl⟩ |
    ⟨m, -, -, hpool⟩
  · rw [(inv_of_reachable hreach).leaked] at hroom
    exact hroom
  · exact hle
  · obtain ⟨dispatcher, -, rfl⟩ := Option.map_eq_some_iff.mp hpool
    exact hle

/-- As long as nothing has been deleted, those who have the tasks bound the number of
open descriptors. -/
theorem Inv.openFds_length_le {s : ServerDescriptors} (h : Inv s) (hnone : s.deleted = []) :
    s.openFds.length ≤ (offered s.dispatcher.main).toList.length + s.dispatcher.size := by
  apply length_le_of_holds h.nodup
  intro fd hfd
  rw [h.leaked, h.traced, hnone] at hfd
  exact hfd.resolve_left List.not_mem_nil

/-- **Up to the first deletion.**  Nothing has been deleted, and `accept` has failed only
with less room than there are workers. -/
theorem kept_of_reachable {s : ServerDescriptors}
    (h : (system limit).ReachableVia (fun s l => ¬ Deletes s l) s) :
    s.deleted = [] ∧ (s.dispatcher.size < limit → s.died = false) := by
  refine h.invariant (fun s : ServerDescriptors =>
    s.deleted = [] ∧ (s.dispatcher.size < limit → s.died = false)) ⟨rfl, fun _ => rfl⟩ ?_
  intro s l t hreach hok hs hstep
  obtain ⟨hnone, haccepts⟩ := hs
  have hinv := inv_of_reachable hreach
  obtain ⟨halive, hcases⟩ := step_cases hstep
  rcases hcases with ⟨sock, dispatcher, -, -, -, -, rfl⟩ | ⟨sock, -, hidle, hfull, rfl⟩ |
    ⟨m, rfl, -, hpool⟩
  · exact ⟨hnone, fun _ => halive⟩
  · refine ⟨hnone, fun hroom => ?_⟩
    have hle := hinv.openFds_length_le hnone
    rw [hidle] at hle
    simp only [offered, Option.toList_none, List.length_nil] at hle
    dsimp only at hroom
    omega
  · obtain ⟨dispatcher, -, rfl⟩ := Option.map_eq_some_iff.mp hpool
    have hkept : deletedTask s.dispatcher m = none := by
      by_contra hdeletes
      exact hok hdeletes
    refine ⟨?_, fun _ => halive⟩
    dsimp only
    rw [hkept, hnone]
    rfl

/-- Until the first deletion the descriptors are as they should be. -/
theorem Inv.exact {s : ServerDescriptors} (h : Inv s) (hnone : s.deleted = [])
    (haccepts : s.dispatcher.size < limit → s.died = false) : Exact limit s := by
  refine ⟨fun fd => ?_, fun fd => ?_, ?_, haccepts⟩
  · rw [h.leaked, hnone]
    simp
  · rw [h.leaked, h.traced, hnone]
    simp
  · have hle := h.openFds_length_le hnone
    have hone : (offered s.dispatcher.main).toList.length ≤ 1 := by
      cases offered s.dispatcher.main <;> simp
    omega

/-- A task that is deleted leaves its descriptor open. -/
theorem Inv.not_exact {s : ServerDescriptors} (h : Inv s) {fd : Nat} (hfd : fd ∈ s.deleted) :
    ¬ Exact limit s := by
  intro hexact
  have hopen : fd ∈ s.openFds := by
    rw [h.leaked, h.traced]
    exact Or.inl hfd
  exact ((hexact.undeleted fd).mp hopen).2 hfd

theorem deleted_step {s t : ServerDescriptors} {l : ServerLabel} {fd : Nat}
    (hs : step limit s l = some t) (hfd : fd ∈ s.deleted) : fd ∈ t.deleted := by
  obtain ⟨-, hcases⟩ := step_cases hs
  rcases hcases with ⟨_, _, -, -, -, -, rfl⟩ | ⟨_, -, -, -, rfl⟩ | ⟨m, -, -, hpool⟩
  · exact hfd
  · exact hfd
  · obtain ⟨_, -, rfl⟩ := Option.map_eq_some_iff.mp hpool
    exact List.mem_append_right _ hfd

/-- **The descriptors of the clients.**  In every run in which no `SocketTask` is deleted,
the open descriptors are in every state those of the tasks that somebody has, and
`accept` does not fail if there is room for one client for each worker and one more.
From the first deletion on they are not, however the run goes on. -/
theorem descriptors_exact (limit : Nat) :
    (∀ s, (system limit).ReachableVia (fun s l => ¬ Deletes s l) s → Exact limit s) ∧
      ∀ s l t u, (system limit).Reachable s → Deletes s l →
        (system limit).step s l = some t → (system limit).Leads t u → ¬ Exact limit u := by
  constructor
  · intro s hs
    obtain ⟨hnone, haccepts⟩ := kept_of_reachable hs
    exact (inv_of_reachable hs.reachable).exact hnone haccepts
  · intro s l t u hs hdeletes hstep hleads
    have hstep' : step limit s l = some t := hstep
    have hfirst : ∃ fd, fd ∈ t.deleted := by
      obtain ⟨-, hcases⟩ := step_cases hstep'
      rcases hcases with ⟨_, _, rfl, -⟩ | ⟨_, rfl, -⟩ | ⟨m, rfl, -, hpool⟩
      · exact absurd hdeletes id
      · exact absurd hdeletes id
      · obtain ⟨_, -, rfl⟩ := Option.map_eq_some_iff.mp hpool
        obtain ⟨fd, hfd⟩ := Option.ne_none_iff_exists'.mp hdeletes
        refine ⟨fd, List.mem_append_left _ ?_⟩
        rw [hfd]
        exact List.mem_singleton.mpr rfl
    obtain ⟨fd, hfd⟩ := hfirst
    have hreach : (system limit).Reachable t :=
      Transition.System.ReachableVia.step hs trivial hstep
    obtain ⟨es, hrun⟩ := hleads
    have hlater : fd ∈ u.deleted := Transition.System.runFrom_invariant
      (fun s : ServerDescriptors => fd ∈ s.deleted)
      (fun _ _ _ hfd hs => deleted_step hs hfd) hfd hrun
    exact (inv_of_reachable (hreach.leads ⟨es, hrun⟩)).not_exact hlater

/-- `AddWorker`, from the call to the return. -/
def addWorkerSteps : List ServerLabel :=
  ([.addWorker, .mainSem .run, .mainSem .run, .mainSem (.wake none), .mainSem .run,
    .main] : List (DispatchLabel Nat)).map .pool

/-- A client is accepted, and its task is stored with the first worker. -/
def acceptSteps (sock : Nat) : List ServerLabel :=
  .accept sock :: ([.mainSem .run, .mainSem .run, .mainSem .run, .mainSem .run] ++
    List.replicate 9 .main : List (DispatchLabel Nat)).map .pool

/-- The worker takes this many lines to the signal of `Done()`, and is waiting again when
it has deleted its task. -/
def serveSteps (lines : Nat) : List ServerLabel :=
  (List.replicate lines (.thread 0) ++
    [.threadSem 0 .run, .threadSem 0 .run, .threadSem 0 (.wake none), .threadSem 0 .run] ++
    List.replicate 5 (.thread 0) : List (DispatchLabel Nat)).map .pool

/-- With one worker and room for two clients, two clients are served one after another,
and the third cannot be accepted. -/
theorem accept_fails_after_two :
    ¬ ∀ limit s, (system limit).Reachable s → Exact limit s := by
  intro hall
  have hrun : ((system 2).runFrom (system 2).init
      (addWorkerSteps ++ acceptSteps 4 ++ serveSteps 9 ++ acceptSteps 5 ++ serveSteps 7 ++
        [.accept 6])).map (fun s => (s.deleted, s.died, s.dispatcher.size)) =
      some ([5, 4], true, 1) := by
    decide
  obtain ⟨s, hs, hend⟩ := Option.map_eq_some_iff.mp hrun
  have haccepts := (hall 2 s (Transition.System.reachable_of_run hs)).accepts
  have hdied : s.died = true := congrArg (fun e => e.2.1) hend
  have hsize : s.dispatcher.size = 1 := congrArg (fun e => e.2.2) hend
  rw [hdied, hsize] at haccepts
  exact absurd (haccepts (by decide)) (by decide)

end ServerDescriptors

end ThreadedServer
