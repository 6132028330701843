import ThreadedServer.Transition
import ThreadedServer.Worker

/-!
# The life of a task inside one worker

One owner thread calls `TryAssign` and, at the end, the destructor; the
worker's own thread runs `worker_func`.  This file follows what happens to a
task from the store into `task_` to its deletion, for every interleaving of
the two threads, as long as `Work()` is the one of the derived class (`WorkerEnd`).

The caller gives a task away when `TryAssign` accepts it (`Worker.h`: the
worker destroys the task himself), so that a task that was stored once is not
handed in again.
-/

namespace ThreadedServer

open Transition

/-- What is done with a task. -/
inductive TaskEvent
  /-- stored into `task_` by `TryAssign` -/
  | assigned
  /-- `Work()` is called while `GetTask()` is the task -/
  | workBegin
  /-- that call of `Work()` returns -/
  | workEnd
  /-- `Done()` is called on it -/
  | done
  /-- deleted by `worker_func` -/
  | deleted
  /-- deleted by the destructor -/
  | discarded
  deriving DecidableEq, Repr

/-- Where the owner thread is. -/
inductive OwnerPc (Task : Type*)
  /-- between two calls -/
  | idle
  /-- inside `TryAssign(t)` -/
  | tryAssign (t : Task) (pc : TryPc)
  /-- inside the destructor -/
  | destroy (pc : DestroyPc)
  deriving DecidableEq, Repr

/-- `~BackgroundWorker` runs. -/
def OwnerPc.inBase {Task : Type*} : OwnerPc Task → Bool
  | .destroy _ => true
  | _ => false

/-- A worker with the thread that owns it.  `log` records what was done with
which task and `results` the values that `TryAssign` returned. -/
structure OwnedWorker (Task : Type*) where
  worker : BackgroundWorker Task
  owner : OwnerPc Task
  log : List (Task × TaskEvent)
  results : List (Task × Bool)
  deriving DecidableEq, Repr

/-- The steps of the two threads. -/
inductive WorkerAct (Task : Type*)
  /-- the next step of `worker_func` -/
  | thread
  /-- a spurious return from `pthread_cond_wait` -/
  | wake
  /-- the owner calls `TryAssign(t)` -/
  | tryAssign (t : Task)
  /-- the owner calls the destructor -/
  | destroy
  /-- the next step of the owner inside its call -/
  | owner
  deriving DecidableEq, Repr

namespace OwnedWorker

variable {Task : Type*}

/-- What the next step of `worker_func` does with a task. -/
def threadEvents (w : BackgroundWorker Task) : List (Task × TaskEvent) :=
  match w.pc with
  | .work => (w.getTask.map fun t => (t, .workBegin)).toList
  | .working => (w.getTask.map fun t => (t, .workEnd)).toList
  | .done task => (task.map fun t => (t, .done)).toList
  | .delete task => (task.map fun t => (t, .deleted)).toList
  | _ => []

/-- What the next step inside `TryAssign(t)` does with a task. -/
def tryAssignEvents (t : Task) : TryPc → List (Task × TaskEvent)
  | .assign => [(t, .assigned)]
  | _ => []

/-- What the next step of the destructor does with a task. -/
def destroyEvents (w : BackgroundWorker Task) : DestroyPc → List (Task × TaskEvent)
  | .delete => (w.task.map fun t => (t, .discarded)).toList
  | _ => []

/-- The next step of the owner inside its call. -/
def ownerStep (s : OwnedWorker Task) : Option (OwnedWorker Task) :=
  match s.owner with
  | .idle => none
  | .tryAssign t (.ret b) =>
      some { s with owner := .idle, results := s.results ++ [(t, b)] }
  | .tryAssign t pc =>
      some { s with
        worker := (s.worker.tryAssignStep t pc).1
        owner := .tryAssign t (s.worker.tryAssignStep t pc).2
        log := s.log ++ tryAssignEvents t pc }
  | .destroy pc =>
      (s.worker.destroyStep pc).map fun r =>
        { s with
          worker := r.1
          owner := .destroy r.2
          log := s.log ++ destroyEvents s.worker pc }

variable [DecidableEq Task]

def step (s : OwnedWorker Task) : WorkerAct Task → Option (OwnedWorker Task)
  | .thread =>
      s.worker.threadStep.map fun w =>
        { s with worker := w, log := s.log ++ threadEvents s.worker }
  | .wake => s.worker.spuriousWake.map fun w => { s with worker := w }
  | .tryAssign t =>
      match s.owner with
      | .idle =>
          if (t, .assigned) ∈ s.log then none
          else some { s with owner := .tryAssign t .trylock }
      | _ => none
  | .destroy =>
      match s.owner with
      | .idle => some { s with owner := .destroy .disable }
      | _ => none
  | .owner => s.ownerStep

/-- A freshly constructed worker whose owner has made no call yet. -/
def create : OwnedWorker Task where
  worker := .create
  owner := .idle
  log := []
  results := []

/-- One worker, its thread and its owner. -/
def system (Task : Type*) [DecidableEq Task] :
    System (OwnedWorker Task) (WorkerAct Task) where
  init := create
  step := step

/-- What was done with task `t` so far, in order. -/
def historyIn (log : List (Task × TaskEvent)) (t : Task) : List TaskEvent :=
  (log.filter fun e => e.1 = t).map Prod.snd

def history (s : OwnedWorker Task) (t : Task) : List TaskEvent :=
  historyIn s.log t

/-- The end of a task that the worker's thread executes. -/
def executed : List TaskEvent := [.assigned, .workBegin, .workEnd, .done, .deleted]

/-- The end of a task that the destructor takes back. -/
def discarded : List TaskEvent := [.assigned, .discarded]

/-! ## Who holds the mutex and what `task_` is -/

section Control

omit [DecidableEq Task]

/-- The owner's control points at which it holds the mutex. -/
def OwnerHolds : OwnerPc Task → Prop
  | .idle => False
  | .tryAssign _ pc => BackgroundWorker.TryHolds pc
  | .destroy pc => BackgroundWorker.DestroyHolds pc

/-- What the worker's thread knows about `task_` at each control point. -/
def ThreadKnows (w : BackgroundWorker Task) : Prop :=
  match w.pc with
  | .condWait => w.task = none
  | .work | .working | .take => w.task.isSome
  | .clear x => x.isSome ∧ w.task = x
  | .done x | .inDone x | .delete x => x.isSome ∧ w.task = none
  | _ => True

/-- What the owner knows about the worker at each control point.  Once the
destructor has looked at `task_`, it stays `NULL`. -/
def OwnerKnows (w : BackgroundWorker Task) : OwnerPc Task → Prop
  | .tryAssign _ .assign => w.task = none
  | .tryAssign _ .unlockFalse => w.task.isSome
  | .destroy .delete | .destroy .clear => w.task.isSome
  | .destroy .signal | .destroy .unlock | .destroy .join => w.task = none
  | .destroy .destroyed => w.task = none ∧ w.pc = .exited
  | _ => True

/-- The control invariant: each side of the mutex holds it exactly at the
control points where its code says so, and knows what it has read. -/
structure Control (s : OwnedWorker Task) : Prop where
  thread : s.worker.taskAssignedMutex = some .thread ↔
    BackgroundWorker.ThreadHolds s.worker.pc
  owner : s.worker.taskAssignedMutex = some .owner ↔ OwnerHolds s.owner
  threadKnows : ThreadKnows s.worker
  ownerKnows : OwnerKnows s.worker s.owner

theorem control_create : Control (create : OwnedWorker Task) := by
  constructor <;> simp [create, BackgroundWorker.create, OwnerHolds, ThreadKnows,
    OwnerKnows, BackgroundWorker.ThreadHolds]

/-- What the owner knows survives a step of the worker's thread that keeps
`task_`, or clears it while the owner does not hold the mutex. -/
theorem OwnerKnows.of_thread {w w' : BackgroundWorker Task} {o : OwnerPc Task}
    (hknows : OwnerKnows w o) (hpc : w.pc ≠ .exited)
    (htask : w'.task = w.task ∨ w'.task = none ∧ ¬ OwnerHolds o) :
    OwnerKnows w' o := by
  cases o with
  | idle => trivial
  | tryAssign t pc =>
      cases pc <;> simp_all [OwnerKnows, OwnerHolds, BackgroundWorker.TryHolds]
  | destroy pc =>
      cases pc <;> simp_all [OwnerKnows, OwnerHolds, BackgroundWorker.DestroyHolds]

theorem Control.threadStep {s : OwnedWorker Task} (h : Control s)
    {w : BackgroundWorker Task} (hw : s.worker.threadStep = some w)
    (log : List (Task × TaskEvent)) :
    Control { s with worker := w, log := log } := by
  obtain ⟨v, o, oldLog, results⟩ := s
  obtain ⟨hthread, howner, hknows, hown⟩ := h
  have hfree : BackgroundWorker.ThreadHolds v.pc → ¬ OwnerHolds o := by
    intro hh ho
    have := (hthread.mpr hh).symm.trans (howner.mpr ho)
    simp at this
  have hcases := BackgroundWorker.threadStep_cases hw
  refine ⟨?_, ?_, ?_, ?_⟩
  · cases hcases <;> simp_all [BackgroundWorker.ThreadHolds]
  · cases hcases <;> simp_all [BackgroundWorker.ThreadHolds]
  · cases hcases <;> simp_all [ThreadKnows]
  · refine hown.of_thread (BackgroundWorker.threadStep_ne_exited hw) ?_
    refine (BackgroundWorker.threadStep_task hw).imp id ?_
    rintro ⟨hnone, x, hpc⟩
    exact ⟨hnone, hfree (by rw [hpc]; trivial)⟩

theorem Control.wake {s : OwnedWorker Task} (h : Control s)
    {w : BackgroundWorker Task} (hw : s.worker.spuriousWake = some w) :
    Control { s with worker := w } := by
  obtain ⟨hthread, howner, hknows, hown⟩ := h
  obtain ⟨hpc, rfl⟩ := BackgroundWorker.spuriousWake_cases hw
  refine ⟨?_, howner, trivial, ?_⟩
  · simpa [hpc, BackgroundWorker.ThreadHolds] using hthread
  · exact hown.of_thread (by simp [hpc]) (Or.inl rfl)

theorem ThreadKnows.of_not_holds {w : BackgroundWorker Task}
    (h : ¬ BackgroundWorker.ThreadHolds w.pc) : ThreadKnows w := by
  unfold ThreadKnows
  cases hpc : w.pc <;> simp_all [BackgroundWorker.ThreadHolds]

/-- While the worker's thread is without the mutex, only the owner's side of
the control invariant has anything to say. -/
theorem Control.of_not_holds {s : OwnedWorker Task}
    (hpc : ¬ BackgroundWorker.ThreadHolds s.worker.pc)
    (hmutex : s.worker.taskAssignedMutex ≠ some .thread)
    (howner : s.worker.taskAssignedMutex = some .owner ↔ OwnerHolds s.owner)
    (hown : OwnerKnows s.worker s.owner) : Control s :=
  ⟨by simp [hpc, hmutex], howner, ThreadKnows.of_not_holds hpc, hown⟩

theorem Control.not_threadHolds {s : OwnedWorker Task} (h : Control s)
    (ho : OwnerHolds s.owner) : ¬ BackgroundWorker.ThreadHolds s.worker.pc := by
  intro ht
  have := (h.thread.mpr ht).symm.trans (h.owner.mpr ho)
  simp at this

/-- While nobody has the mutex, the thread is outside its critical section. -/
theorem Control.not_threadHolds_of_free {s : OwnedWorker Task} (h : Control s)
    (hm : s.worker.taskAssignedMutex = none) : ¬ BackgroundWorker.ThreadHolds s.worker.pc := by
  intro ht
  have hthread := h.thread.mpr ht
  rw [hm] at hthread
  cases hthread

theorem Control.ownerStep {s t : OwnedWorker Task} (h : Control s)
    (hs : s.ownerStep = some t) : Control t := by
  obtain ⟨w, o, log, results⟩ := s
  cases o with
  | idle => simp [OwnedWorker.ownerStep] at hs
  | tryAssign u pc =>
      cases pc with
      | trylock =>
          obtain rfl := Option.some.inj hs
          by_cases hm : w.taskAssignedMutex = none
          · have hpc : ¬ BackgroundWorker.ThreadHolds w.pc := h.not_threadHolds_of_free hm
            apply Control.of_not_holds <;>
              simp [BackgroundWorker.tryAssignStep, hm, hpc, OwnerHolds,
                BackgroundWorker.TryHolds, OwnerKnows]
          · have hno := h.owner
            simp only [OwnerHolds, BackgroundWorker.TryHolds, iff_false] at hno
            simp only [BackgroundWorker.tryAssignStep, hm, if_false]
            exact ⟨h.thread, by simp [hno, OwnerHolds, BackgroundWorker.TryHolds],
              h.threadKnows, trivial⟩
      | ret b =>
          obtain rfl := Option.some.inj hs
          exact ⟨h.thread, h.owner, h.threadKnows, trivial⟩
      | _ =>
          obtain rfl := Option.some.inj hs
          have hpc : ¬ BackgroundWorker.ThreadHolds w.pc := h.not_threadHolds trivial
          have hm : w.taskAssignedMutex = some .owner := h.owner.mpr trivial
          have hown := h.ownerKnows
          apply Control.of_not_holds <;> cases hx : w.task <;>
            simp_all [BackgroundWorker.tryAssignStep, OwnerHolds,
              BackgroundWorker.TryHolds, OwnerKnows]
  | destroy pc =>
      obtain ⟨r, hr, rfl⟩ := Option.map_eq_some_iff.mp hs
      cases pc with
      | disable =>
          obtain rfl := Option.some.inj hr
          exact ⟨h.thread, h.owner, h.threadKnows, trivial⟩
      | lock =>
          obtain ⟨hm, rfl⟩ : w.taskAssignedMutex = none ∧ _ = r := by
            simpa [BackgroundWorker.destroyStep] using hr
          have hpc : ¬ BackgroundWorker.ThreadHolds w.pc := h.not_threadHolds_of_free hm
          apply Control.of_not_holds <;>
            simp [hpc, OwnerHolds, BackgroundWorker.DestroyHolds, OwnerKnows]
      | join =>
          have hown := h.ownerKnows
          cases hpc : w.pc <;> simp [BackgroundWorker.destroyStep, hpc] at hr
          subst hr
          exact ⟨h.thread, h.owner, h.threadKnows, hown, hpc⟩
      | destroyed => simp [BackgroundWorker.destroyStep] at hr
      | _ =>
          obtain rfl := Option.some.inj hr
          have hpc : ¬ BackgroundWorker.ThreadHolds w.pc := h.not_threadHolds trivial
          have hm : w.taskAssignedMutex = some .owner := h.owner.mpr trivial
          have hown := h.ownerKnows
          apply Control.of_not_holds <;> cases hx : w.task <;>
            simp_all [OwnerHolds, BackgroundWorker.DestroyHolds, OwnerKnows]

end Control

/-! ## One task at a time -/

/-- A history that is over: the task was never accepted, or it has reached one
of its two ends. -/
def Settled (h : List TaskEvent) : Prop :=
  h = [] ∨ h = executed ∨ h = discarded

/-- A task in `task_` that the worker's thread has not begun with. -/
def pending (o : OwnerPc Task) (x : Option Task) : Option (Task × List TaskEvent) :=
  match o with
  | .destroy .clear => x.map fun t => (t, [.assigned, .discarded])
  | _ => x.map fun t => (t, [.assigned])

/-- The one task that is under way, with what was done with it so far. -/
def current (w : BackgroundWorker Task) (o : OwnerPc Task) :
    Option (Task × List TaskEvent) :=
  match w.pc with
  | .working => w.task.map fun t => (t, [.assigned, .workBegin])
  | .take => w.task.map fun t => (t, [.assigned, .workBegin, .workEnd])
  | .clear x | .done x => x.map fun t => (t, [.assigned, .workBegin, .workEnd])
  | .inDone x | .delete x =>
      x.map fun t => (t, [.assigned, .workBegin, .workEnd, .done])
  | _ => pending o w.task

/-- How one step moves the task under way, together with what it records. -/
inductive Progress : Option (Task × List TaskEvent) →
    Option (Task × List TaskEvent) → List (Task × TaskEvent) → Prop
  | same {c} : Progress c c []
  | first {t} : Progress none (some (t, [.assigned])) [(t, .assigned)]
  | next {t k l} : Progress (some (t, l)) (some (t, l ++ [k])) [(t, k)]
  | last {t k l} (h : Settled (l ++ [k])) : Progress (some (t, l)) none [(t, k)]
  | dropped {t l} (h : Settled l) : Progress (some (t, l)) none []

omit [DecidableEq Task] in
/-- The worker's thread only steps while the owner is without the mutex. -/
theorem Control.not_ownerHolds {s : OwnedWorker Task} (h : Control s)
    {w : BackgroundWorker Task} (hw : s.worker.threadStep = some w) :
    ¬ OwnerHolds s.owner := by
  intro ho
  have hm := h.owner.mpr ho
  have hpc := h.not_threadHolds ho
  have hcases := BackgroundWorker.threadStep_cases hw
  obtain ⟨v, o, log, results⟩ := s
  cases hcases <;> simp_all [BackgroundWorker.ThreadHolds]

omit [DecidableEq Task] in
theorem pending_of_not_holds {o : OwnerPc Task} (h : ¬ OwnerHolds o)
    (x : Option Task) : pending o x = x.map fun t => (t, [.assigned]) := by
  unfold pending
  split
  · exact (h trivial).elim
  · rfl

omit [DecidableEq Task] in
/-- What a step of the worker's thread does with the task under way. -/
theorem progress_threadStep {s : OwnedWorker Task} (h : Control s)
    {w : BackgroundWorker Task} (hw : s.worker.threadStep = some w) :
    Progress (current s.worker s.owner) (current w s.owner)
      (threadEvents s.worker) := by
  have hplain := pending_of_not_holds (h.not_ownerHolds hw)
  have hknows := h.threadKnows
  have hcases := BackgroundWorker.threadStep_cases hw
  obtain ⟨v, o, log, results⟩ := s
  cases hcases with
  | @work m x en =>
      obtain ⟨t, rfl⟩ := Option.isSome_iff_exists.mp hknows
      rw [current, hplain]
      exact Progress.next
  | @worked m x en =>
      obtain ⟨t, rfl⟩ := Option.isSome_iff_exists.mp hknows
      exact Progress.next
  | @done m x t en => exact Progress.next
  | @clear m x y en => exact Progress.same
  | @delete m x y en =>
      obtain ⟨hy, rfl⟩ : y.isSome ∧ x = none := hknows
      obtain ⟨t, rfl⟩ := Option.isSome_iff_exists.mp hy
      have hend : Settled ([.assigned, .workBegin, .workEnd, .done] ++ [.deleted]) :=
        Or.inr (Or.inl rfl)
      have hnone : pending o (none : Option Task) = none := hplain none
      simpa [current, hnone, threadEvents] using Progress.last (t := t) hend
  | _ => exact Progress.same

section Owner

omit [DecidableEq Task]

theorem current_of_not_holds {w : BackgroundWorker Task}
    (h : ¬ BackgroundWorker.ThreadHolds w.pc) (o : OwnerPc Task) :
    current w o = pending o w.task := by
  unfold current
  cases hpc : w.pc <;> simp_all [BackgroundWorker.ThreadHolds]

theorem current_congr {w w' : BackgroundWorker Task} {o o' : OwnerPc Task}
    (hpc : w'.pc = w.pc) (htask : w'.task = w.task)
    (ho : pending o' w.task = pending o w.task) : current w' o' = current w o := by
  unfold current
  rw [hpc, htask, ho]

/-- A step that touches neither the thread nor `task_`. -/
theorem Progress.unchanged {w w' : BackgroundWorker Task} {o o' : OwnerPc Task}
    (hpc : w'.pc = w.pc) (htask : w'.task = w.task)
    (ho : pending o' w.task = pending o w.task) :
    Progress (current w o) (current w' o') [] := by
  rw [current_congr hpc htask ho]
  exact Progress.same

/-- A signal may move the thread, but only from one place outside the mutex to
another. -/
theorem Progress.signalled {w : BackgroundWorker Task} {o o' : OwnerPc Task}
    (hpc : ¬ BackgroundWorker.ThreadHolds w.pc)
    (ho : pending o' w.task = pending o w.task) :
    Progress (current w o) (current w.condSignal o') [] := by
  rw [current_of_not_holds hpc, current_of_not_holds (by simpa using hpc),
    BackgroundWorker.condSignal_task, ho]
  exact Progress.same

/-- What a step inside `TryAssign(t)` does with the task under way: it begins
one when `task_` is stored and changes nothing otherwise. -/
theorem progress_tryAssignStep {s : OwnedWorker Task} (h : Control s) {t : Task}
    {pc : TryPc} (ho : s.owner = .tryAssign t pc) :
    Progress (current s.worker s.owner)
      (current (s.worker.tryAssignStep t pc).1
        (.tryAssign t (s.worker.tryAssignStep t pc).2))
      (tryAssignEvents t pc) := by
  obtain ⟨w, o, log, results⟩ := s
  obtain rfl : o = .tryAssign t pc := ho
  cases pc with
  | assign =>
      have hpc : ¬ BackgroundWorker.ThreadHolds w.pc := h.not_threadHolds trivial
      have htask : w.task = none := h.ownerKnows
      rw [current_of_not_holds hpc]
      rw [current_of_not_holds (by exact hpc)]
      simpa [BackgroundWorker.tryAssignStep, pending, htask, tryAssignEvents]
        using Progress.first
  | signal =>
      have hpc : ¬ BackgroundWorker.ThreadHolds w.pc := h.not_threadHolds trivial
      exact Progress.signalled hpc rfl
  | trylock =>
      by_cases hm : w.taskAssignedMutex = none
      · simp only [BackgroundWorker.tryAssignStep, hm, if_true]
        exact Progress.unchanged rfl rfl rfl
      · simp only [BackgroundWorker.tryAssignStep, hm, if_false]
        exact Progress.unchanged rfl rfl rfl
  | _ => exact Progress.unchanged rfl rfl rfl

/-- What a step of the destructor does with the task under way: it discards a
pending one. -/
theorem progress_destroyStep {s : OwnedWorker Task} (h : Control s)
    {pc pc' : DestroyPc} {w : BackgroundWorker Task} (ho : s.owner = .destroy pc)
    (hs : s.worker.destroyStep pc = some (w, pc')) :
    Progress (current s.worker s.owner) (current w (.destroy pc'))
      (destroyEvents s.worker pc) := by
  obtain ⟨v, o, log, results⟩ := s
  obtain rfl : o = .destroy pc := ho
  cases pc with
  | disable =>
      obtain ⟨rfl, rfl⟩ := Prod.mk.inj (Option.some.inj hs)
      exact Progress.unchanged rfl rfl rfl
  | lock =>
      obtain ⟨hm, rfl, rfl⟩ : v.taskAssignedMutex = none ∧ _ = w ∧ _ = pc' := by
        simpa [BackgroundWorker.destroyStep] using hs
      exact Progress.unchanged rfl rfl rfl
  | join =>
      cases hpc : v.pc <;> simp [BackgroundWorker.destroyStep, hpc] at hs
      obtain ⟨rfl, rfl⟩ := hs
      exact Progress.unchanged rfl rfl rfl
  | destroyed => simp [BackgroundWorker.destroyStep] at hs
  | check =>
      obtain ⟨rfl, rfl⟩ := Prod.mk.inj (Option.some.inj hs)
      apply Progress.unchanged rfl rfl
      split <;> rfl
  | delete =>
      obtain ⟨rfl, rfl⟩ := Prod.mk.inj (Option.some.inj hs)
      have hpc : ¬ BackgroundWorker.ThreadHolds v.pc := h.not_threadHolds trivial
      have hknows : v.task.isSome := h.ownerKnows
      obtain ⟨t, ht⟩ := Option.isSome_iff_exists.mp hknows
      rw [current_of_not_holds hpc, current_of_not_holds hpc]
      simpa [pending, ht, destroyEvents] using
        Progress.next (t := t) (l := [.assigned]) (k := .discarded)
  | clear =>
      obtain ⟨rfl, rfl⟩ := Prod.mk.inj (Option.some.inj hs)
      have hpc : ¬ BackgroundWorker.ThreadHolds v.pc := h.not_threadHolds trivial
      have hknows : v.task.isSome := h.ownerKnows
      obtain ⟨t, ht⟩ := Option.isSome_iff_exists.mp hknows
      rw [current_of_not_holds hpc, current_of_not_holds (by exact hpc)]
      simpa [pending, ht, destroyEvents] using
        Progress.dropped (t := t) (l := [.assigned, .discarded]) (Or.inr (Or.inr rfl))
  | signal =>
      obtain ⟨rfl, rfl⟩ := Prod.mk.inj (Option.some.inj hs)
      have hpc : ¬ BackgroundWorker.ThreadHolds v.pc := h.not_threadHolds trivial
      exact Progress.signalled hpc rfl
  | unlock =>
      obtain ⟨rfl, rfl⟩ := Prod.mk.inj (Option.some.inj hs)
      exact Progress.unchanged rfl rfl rfl

end Owner

/-- Every task but the one under way has a settled history, and that one has
the history that its control point says. -/
def Accounted (s : OwnedWorker Task) : Prop :=
  ∀ t, (∃ ks, current s.worker s.owner = some (t, ks) ∧ s.history t = ks) ∨
    (∀ ks, current s.worker s.owner ≠ some (t, ks)) ∧ Settled (s.history t)

theorem historyIn_append (log events : List (Task × TaskEvent)) (t : Task) :
    historyIn (log ++ events) t = historyIn log t ++ historyIn events t := by
  simp [historyIn]

theorem Accounted.history_eq {s : OwnedWorker Task} (h : Accounted s) {t : Task}
    {ks : List TaskEvent} (hcur : current s.worker s.owner = some (t, ks)) :
    s.history t = ks := by
  rcases h t with ⟨ks', hcur', hhist⟩ | ⟨hno, -⟩
  · rw [hcur] at hcur'
    injection hcur' with hpair
    injection hpair with _ hks
    rw [hhist, hks]
  · exact absurd hcur (hno ks)

/-- A step that progresses keeps every task accounted for, provided that a
newly stored task was not stored before. -/
theorem Accounted.progress {s s' : OwnedWorker Task} (h : Accounted s)
    {events : List (Task × TaskEvent)} (hlog : s'.log = s.log ++ events)
    (hp : Progress (current s.worker s.owner) (current s'.worker s'.owner) events)
    (hfresh : ∀ t, (t, TaskEvent.assigned) ∈ events → s.history t = []) :
    Accounted s' := by
  intro t
  have hhist : s'.history t = s.history t ++ historyIn events t := by
    simp [history, hlog, historyIn_append]
  have ht := h t
  generalize hc : current s.worker s.owner = c at hp ht
  generalize hc' : current s'.worker s'.owner = c' at hp ⊢
  cases hp with
  | same =>
      rw [hhist]
      simpa [historyIn] using ht
  | @first u =>
      by_cases hu : u = t
      · subst u
        have hempty := hfresh t (by simp)
        exact Or.inl ⟨_, rfl, by simp [hhist, hempty, historyIn]⟩
      · refine Or.inr ⟨by simp [hu], ?_⟩
        rw [hhist]
        simpa [historyIn, hu] using ht
  | @next u k ks =>
      by_cases hu : u = t
      · subst u
        have hks : s.history t = ks := h.history_eq hc
        exact Or.inl ⟨_, rfl, by simp [hhist, hks, historyIn]⟩
      · refine Or.inr ⟨by simp [hu], ?_⟩
        rw [hhist]
        simpa [historyIn, hu] using ht
  | @last u k ks hset =>
      refine Or.inr ⟨by simp, ?_⟩
      by_cases hu : u = t
      · subst u
        have hks : s.history t = ks := h.history_eq hc
        rw [hhist, hks]
        simpa [historyIn] using hset
      · rw [hhist]
        simpa [historyIn, hu] using ht
  | @dropped u ks hset =>
      refine Or.inr ⟨by simp, ?_⟩
      by_cases hu : u = t
      · subst u
        have hks : s.history t = ks := h.history_eq hc
        rw [hhist, hks]
        simpa [historyIn] using hset
      · rw [hhist]
        simpa [historyIn, hu] using ht

/-! ## Accepted tasks -/

omit [DecidableEq Task] in
theorem pending_shape {o : OwnerPc Task} {x : Option Task} {t : Task}
    {ks : List TaskEvent} (h : pending o x = some (t, ks)) :
    ks = [.assigned, .discarded] ∨ ks = [.assigned] := by
  unfold pending at h
  split at h
  · obtain ⟨_, _, hks⟩ := Option.map_eq_some_iff.mp h
    exact Or.inl (Prod.mk.inj hks).2.symm
  · obtain ⟨_, _, hks⟩ := Option.map_eq_some_iff.mp h
    exact Or.inr (Prod.mk.inj hks).2.symm

omit [DecidableEq Task] in
/-- Every history under way begins with the store into `task_` and is on its
way to one of the two ends. -/
theorem current_shape {w : BackgroundWorker Task} {o : OwnerPc Task} {t : Task}
    {ks : List TaskEvent} (h : current w o = some (t, ks)) :
    .assigned ∈ ks ∧ (ks <+: executed ∨ ks <+: discarded) := by
  unfold current at h
  split at h
  case h_7 => rcases pending_shape h with rfl | rfl <;> decide
  all_goals
    obtain ⟨_, _, hks⟩ := Option.map_eq_some_iff.mp h
    obtain ⟨rfl, rfl⟩ := Prod.mk.inj hks
    decide

omit [DecidableEq Task] in
theorem current_working {w : BackgroundWorker Task} {o : OwnerPc Task} {t : Task}
    (h : current w o = some (t, [.assigned, .workBegin])) : w.task = some t := by
  unfold current at h
  split at h
  case h_1 => simpa using h
  case h_7 => simpa using pending_shape h
  all_goals simp at h

theorem Accounted.assigned_mem {s : OwnedWorker Task} (h : Accounted s) {t : Task}
    (ht : s.history t ≠ []) : (t, TaskEvent.assigned) ∈ s.log := by
  have hmem : .assigned ∈ s.history t := by
    rcases h t with ⟨ks, hcur, hks⟩ | ⟨_, hset⟩
    · exact hks ▸ (current_shape hcur).1
    · rcases hset with h0 | h1 | h2
      · exact (ht h0).elim
      · simp [h1, executed]
      · simp [h2, discarded]
  simp only [history, historyIn, List.mem_map, List.mem_filter] at hmem
  obtain ⟨⟨u, k⟩, ⟨hlog, hu⟩, rfl⟩ := hmem
  obtain rfl : u = t := by simpa using hu
  exact hlog

/-- Only the store into `task_` starts a history. -/
theorem Accounted.history_ne_nil {s s' : OwnedWorker Task} (h : Accounted s)
    {events : List (Task × TaskEvent)} (hlog : s'.log = s.log ++ events)
    (hp : Progress (current s.worker s.owner) (current s'.worker s'.owner) events)
    (t : Task) :
    s'.history t ≠ [] ↔ s.history t ≠ [] ∨ (t, TaskEvent.assigned) ∈ events := by
  have hhist : s'.history t = s.history t ++ historyIn events t := by
    simp [history, hlog, historyIn_append]
  have hcur : ∀ ks, current s.worker s.owner = some (t, ks) → s.history t ≠ [] := by
    intro ks hks
    have ht : s.history t = ks := h.history_eq hks
    exact fun h0 => List.ne_nil_of_mem (current_shape hks).1 (ht ▸ h0)
  generalize hc : current s.worker s.owner = c at hp
  generalize hc' : current s'.worker s'.owner = c' at hp
  rw [hhist]
  cases hp with
  | same => simp [historyIn]
  | dropped => simp [historyIn]
  | @first u =>
      by_cases hu : u = t
      · simp [historyIn, hu]
      · simp [historyIn, hu, Ne.symm hu]
  | @next u k ks =>
      by_cases hu : u = t
      · subst u
        simp [hcur ks hc]
      · simp [historyIn, hu, Ne.symm hu]
  | @last u k ks =>
      by_cases hu : u = t
      · subst u
        simp [hcur ks hc]
      · simp [historyIn, hu, Ne.symm hu]

/-- The control points of a `TryAssign` call that has accepted its task. -/
def Accepting : TryPc → Prop
  | .signal | .unlockTrue | .ret true => True
  | _ => False

@[simp] theorem accepting_ret {b : Bool} : Accepting (.ret b) ↔ b = true := by
  cases b <;> simp [Accepting]

/-- The invariant of one worker with its owner: the tasks that were ever
stored are those for which `TryAssign` has returned, or will return, true. -/
structure Life (s : OwnedWorker Task) : Prop where
  control : Control s
  accounted : Accounted s
  fresh : ∀ t pc, s.owner = .tryAssign t pc → (t, true) ∉ s.results
  accepted : ∀ t, s.history t ≠ [] ↔
    (t, true) ∈ s.results ∨ ∃ pc, s.owner = .tryAssign t pc ∧ Accepting pc

theorem life_create : Life (create : OwnedWorker Task) where
  control := control_create
  accounted := fun t => Or.inr ⟨by simp [create, current, BackgroundWorker.create,
    pending], Or.inl rfl⟩
  fresh := by simp [create]
  accepted := by simp [create, history, historyIn]

theorem Life.thread {s s' : OwnedWorker Task} (h : Life s)
    (hs : s.step .thread = some s') : Life s' := by
  obtain ⟨w, hw, rfl⟩ := Option.map_eq_some_iff.mp hs
  have hp := progress_threadStep h.control hw
  have hno : ∀ t, (t, TaskEvent.assigned) ∉ threadEvents s.worker := by
    intro t
    unfold threadEvents
    split <;> simp
  refine ⟨h.control.threadStep hw _, h.accounted.progress rfl hp ?_, h.fresh, ?_⟩
  · intro t ht
    exact (hno t ht).elim
  · intro t
    rw [h.accounted.history_ne_nil rfl hp t, h.accepted t]
    simp [hno t]

theorem Life.wake {s s' : OwnedWorker Task} (h : Life s)
    (hs : s.step .wake = some s') : Life s' := by
  obtain ⟨w, hw, rfl⟩ := Option.map_eq_some_iff.mp hs
  obtain ⟨hpc, rfl⟩ := BackgroundWorker.spuriousWake_cases hw
  have hcur : current { s.worker with pc := .woken } s.owner =
      current s.worker s.owner := by simp [current, hpc]
  refine ⟨h.control.wake hw, ?_, h.fresh, h.accepted⟩
  intro t
  simpa [hcur, history] using h.accounted t

omit [DecidableEq Task] in
/-- A step inside `TryAssign(t)` stores the task exactly when it passes to the
accepting part of the call. -/
theorem accepting_tryAssignStep (w : BackgroundWorker Task) (t u : Task) (pc : TryPc)
    (hret : ∀ b, pc ≠ .ret b) :
    Accepting (w.tryAssignStep t pc).2 ∧ u = t ↔
      Accepting pc ∧ u = t ∨ (u, TaskEvent.assigned) ∈ tryAssignEvents t pc := by
  cases pc with
  | ret b => exact (hret b rfl).elim
  | trylock =>
      by_cases hm : w.taskAssignedMutex = none <;>
        simp [BackgroundWorker.tryAssignStep, hm, Accepting, tryAssignEvents]
  | check =>
      cases hx : w.task <;>
        simp [BackgroundWorker.tryAssignStep, hx, Accepting, tryAssignEvents]
  | _ => simp [BackgroundWorker.tryAssignStep, Accepting, tryAssignEvents]

theorem Life.tryAssignStep {s : OwnedWorker Task} (h : Life s) {t : Task} {pc : TryPc}
    (ho : s.owner = .tryAssign t pc) (hret : ∀ b, pc ≠ .ret b) {s' : OwnedWorker Task}
    (hs : s.ownerStep = some s')
    (hs' : s' = { s with
      worker := (s.worker.tryAssignStep t pc).1
      owner := .tryAssign t (s.worker.tryAssignStep t pc).2
      log := s.log ++ tryAssignEvents t pc }) : Life s' := by
  subst hs'
  have hp := progress_tryAssignStep h.control ho
  have hnew : ∀ u, (u, TaskEvent.assigned) ∈ tryAssignEvents t pc →
      u = t ∧ ¬ Accepting pc := by
    intro u hu
    cases pc <;> simp_all [tryAssignEvents, Accepting]
  refine ⟨h.control.ownerStep hs, h.accounted.progress rfl hp ?_, ?_, ?_⟩
  · intro u hu
    obtain ⟨rfl, hacc⟩ := hnew u hu
    by_contra hne
    rcases (h.accepted u).mp hne with hres | ⟨pc', ho', hacc'⟩
    · exact h.fresh u pc ho hres
    · obtain ⟨-, rfl⟩ : u = u ∧ pc = pc' := by simpa [ho] using ho'
      exact hacc hacc'
  · intro u pc' hu
    obtain ⟨rfl, -⟩ : t = u ∧ _ = pc' := by simpa using hu
    exact h.fresh t pc ho
  · intro u
    have hstep := accepting_tryAssignStep s.worker t u pc hret
    rw [h.accounted.history_ne_nil rfl hp u, h.accepted u]
    simp only [ho, OwnerPc.tryAssign.injEq]
    grind

theorem Life.tryAssignRet {s : OwnedWorker Task} (h : Life s) {t : Task} {b : Bool}
    (ho : s.owner = .tryAssign t (.ret b)) {s' : OwnedWorker Task}
    (hs : s.ownerStep = some s')
    (hs' : s' = { s with owner := .idle, results := s.results ++ [(t, b)] }) :
    Life s' := by
  subst hs'
  have hcur : current s.worker .idle = current s.worker s.owner :=
    current_congr rfl rfl (by rw [ho]; rfl)
  refine ⟨h.control.ownerStep hs, ?_, by simp, ?_⟩
  · intro u
    simpa [hcur, history] using h.accounted u
  · intro u
    have hu := h.accepted u
    have hcall : (∃ pc, s.owner = .tryAssign u pc ∧ Accepting pc) ↔ u = t ∧ b = true := by
      constructor
      · rintro ⟨pc, hpc, hacc⟩
        obtain ⟨rfl, rfl⟩ : t = u ∧ TryPc.ret b = pc := by simpa [ho] using hpc
        exact ⟨rfl, accepting_ret.mp hacc⟩
      · rintro ⟨rfl, hb⟩
        exact ⟨.ret b, ho, accepting_ret.mpr hb⟩
    rw [hcall] at hu
    simpa [history] using hu

theorem Life.destroyStep {s : OwnedWorker Task} (h : Life s) {pc pc' : DestroyPc}
    {w : BackgroundWorker Task} (ho : s.owner = .destroy pc)
    (hw : s.worker.destroyStep pc = some (w, pc')) {s' : OwnedWorker Task}
    (hs : s.ownerStep = some s')
    (hs' : s' = { s with
      worker := w, owner := .destroy pc', log := s.log ++ destroyEvents s.worker pc }) :
    Life s' := by
  subst hs'
  have hp := progress_destroyStep h.control ho hw
  have hno : ∀ t, (t, TaskEvent.assigned) ∉ destroyEvents s.worker pc := by
    intro t
    unfold destroyEvents
    split <;> simp
  refine ⟨h.control.ownerStep hs, h.accounted.progress rfl hp ?_, by simp, ?_⟩
  · intro t ht
    exact (hno t ht).elim
  · intro t
    rw [h.accounted.history_ne_nil rfl hp t, h.accepted t]
    simp [hno t, ho]

theorem Life.owner {s s' : OwnedWorker Task} (h : Life s)
    (hs : s.step .owner = some s') : Life s' := by
  replace hs : s.ownerStep = some s' := hs
  cases ho : s.owner with
  | idle => simp [ownerStep, ho] at hs
  | tryAssign t pc =>
      cases pc with
      | ret b =>
          refine h.tryAssignRet ho hs ?_
          simpa [ownerStep, ho] using hs.symm
      | _ =>
          refine h.tryAssignStep ho (by simp) hs ?_
          simpa [ownerStep, ho] using hs.symm
  | destroy pc =>
      cases hw : s.worker.destroyStep pc with
      | none => simp [ownerStep, ho, hw] at hs
      | some r =>
          refine h.destroyStep ho hw hs ?_
          simpa [ownerStep, ho, hw] using hs.symm

/-- A call of the owner on an idle worker changes nothing but the owner's
control point. -/
theorem Life.call {s : OwnedWorker Task} (h : Life s) (hidle : s.owner = .idle)
    (o : OwnerPc Task) (hholds : ¬ OwnerHolds o) (hknows : OwnerKnows s.worker o)
    (hcall : ∀ t pc, o = .tryAssign t pc → (t, true) ∉ s.results ∧ ¬ Accepting pc) :
    Life { s with owner := o } := by
  have hcur : current s.worker o = current s.worker s.owner :=
    current_congr rfl rfl (by
      rw [pending_of_not_holds hholds, pending_of_not_holds (by simp [hidle, OwnerHolds])])
  have hown := h.control.owner
  simp only [hidle, OwnerHolds, iff_false] at hown
  refine ⟨⟨h.control.thread, by simp [hown, hholds], h.control.threadKnows, hknows⟩,
    ?_, fun t pc ho => (hcall t pc ho).1, ?_⟩
  · intro t
    simpa [hcur, history] using h.accounted t
  · intro t
    have ht := h.accepted t
    simp only [hidle, reduceCtorEq, false_and, exists_false, or_false] at ht
    have hno : ¬ ∃ pc, o = .tryAssign t pc ∧ Accepting pc := by
      rintro ⟨pc, ho, hacc⟩
      exact (hcall t pc ho).2 hacc
    simpa [hno, history] using ht

/-- Every step of either thread keeps the invariant. -/
theorem Life.step {s s' : OwnedWorker Task} (h : Life s) {e : WorkerAct Task}
    (hs : s.step e = some s') : Life s' := by
  cases e with
  | thread => exact h.thread hs
  | wake => exact h.wake hs
  | owner => exact h.owner hs
  | tryAssign t =>
      cases ho : s.owner <;> simp [OwnedWorker.step, ho] at hs
      obtain ⟨hnew, rfl⟩ := hs
      refine h.call ho _ (by simp [OwnerHolds, BackgroundWorker.TryHolds]) trivial ?_
      intro u pc hu
      obtain ⟨rfl, rfl⟩ : t = u ∧ TryPc.trylock = pc := by simpa using hu
      refine ⟨fun hres => hnew ?_, by simp [Accepting]⟩
      exact h.accounted.assigned_mem ((h.accepted t).mpr (Or.inl hres))
  | destroy =>
      cases ho : s.owner <;> simp [OwnedWorker.step, ho] at hs
      subst hs
      exact h.call ho _ (by simp [OwnerHolds, BackgroundWorker.DestroyHolds]) trivial
        (by simp)

theorem life_of_reachable {s : OwnedWorker Task} (h : (system Task).Reachable s) :
    Life s :=
  h.invariant Life life_create fun _ _ _ hi he => hi.step he

/-! ## What becomes of an accepted task -/

/-- Every history is on its way to one of the two ends. -/
theorem Life.history_prefix {s : OwnedWorker Task} (h : Life s) (t : Task) :
    s.history t <+: executed ∨ s.history t <+: discarded := by
  rcases h.accounted t with ⟨ks, hcur, hks⟩ | ⟨_, h0 | h1 | h2⟩
  · exact hks ▸ (current_shape hcur).2
  · exact Or.inl (h0 ▸ List.nil_prefix)
  · exact Or.inl (h1 ▸ List.prefix_rfl)
  · exact Or.inr (h2 ▸ List.prefix_rfl)

theorem Life.task_kept_thread {s : OwnedWorker Task} (h : Life s)
    {w : BackgroundWorker Task} (hw : s.worker.threadStep = some w) {t : Task}
    (ht : s.worker.task = some t) :
    w.task = some t ∨ w.task = none ∧ .workEnd ∈ s.history t := by
  rcases BackgroundWorker.threadStep_task hw with hsame | ⟨hnone, x, hpc⟩
  · exact Or.inl (hsame.trans ht)
  · have hknows := h.control.threadKnows
    rw [ThreadKnows, hpc] at hknows
    have hcur : current s.worker s.owner =
        some (t, [.assigned, .workBegin, .workEnd]) := by
      simp [current, hpc, ← hknows.2, ht]
    exact Or.inr ⟨hnone, by simp [h.accounted.history_eq hcur]⟩

theorem Life.task_kept_owner {s s' : OwnedWorker Task} (h : Life s)
    (hs : s.ownerStep = some s') {t : Task} (ht : s.worker.task = some t) :
    s'.worker.task = some t ∨ s'.worker.task = none ∧ .discarded ∈ s.history t := by
  cases ho : s.owner with
  | idle => simp [ownerStep, ho] at hs
  | tryAssign u pc =>
      have hknows := h.control.ownerKnows
      cases pc <;> simp only [ownerStep, ho, Option.some.injEq] at hs <;> subst hs
      case assign => simp [ho, OwnerKnows, ht] at hknows
      case trylock =>
        left
        by_cases hm : s.worker.taskAssignedMutex = none <;>
          simp [BackgroundWorker.tryAssignStep, hm, ht]
      all_goals simp [BackgroundWorker.tryAssignStep, ht]
  | destroy pc =>
      cases hw : s.worker.destroyStep pc with
      | none => simp [ownerStep, ho, hw] at hs
      | some r =>
          simp only [ownerStep, ho, hw, Option.map_some, Option.some.injEq] at hs
          subst hs
          cases pc
          case clear =>
            have hpc := h.control.not_threadHolds (by rw [ho]; trivial)
            have hcur : current s.worker s.owner = some (t, discarded) := by
              simp [current_of_not_holds hpc, ho, pending, ht, discarded]
            obtain rfl := Option.some.inj hw
            exact Or.inr ⟨rfl, by simp [h.accounted.history_eq hcur, discarded]⟩
          case lock =>
            obtain ⟨-, rfl⟩ : s.worker.taskAssignedMutex = none ∧ _ = r := by
              simpa [BackgroundWorker.destroyStep] using hw
            exact Or.inl ht
          case join =>
            cases hpc : s.worker.pc <;> simp [BackgroundWorker.destroyStep, hpc] at hw
            subst hw
            exact Or.inl ht
          case destroyed => simp [BackgroundWorker.destroyStep] at hw
          all_goals
            obtain rfl := Option.some.inj hw
            simp [ht]

/-- A stored task leaves `task_` only when its work has ended or the
destructor has deleted it, and is never replaced by another one. -/
theorem Life.task_kept {s s' : OwnedWorker Task} (h : Life s) {e : WorkerAct Task}
    (hs : s.step e = some s') {t : Task} (ht : s.worker.task = some t) :
    s'.worker.task = some t ∨ s'.worker.task = none ∧
      (.workEnd ∈ s.history t ∨ .discarded ∈ s.history t) := by
  cases e with
  | thread =>
      obtain ⟨w, hw, rfl⟩ := Option.map_eq_some_iff.mp hs
      exact (h.task_kept_thread hw ht).imp id fun hc => ⟨hc.1, Or.inl hc.2⟩
  | wake =>
      obtain ⟨w, hw, rfl⟩ := Option.map_eq_some_iff.mp hs
      obtain ⟨-, rfl⟩ := BackgroundWorker.spuriousWake_cases hw
      exact Or.inl ht
  | owner => exact (h.task_kept_owner hs ht).imp id fun hc => ⟨hc.1, Or.inr hc.2⟩
  | tryAssign u =>
      cases ho : s.owner <;> simp [OwnedWorker.step, ho] at hs
      obtain ⟨-, rfl⟩ := hs
      exact Or.inl ht
  | destroy =>
      cases ho : s.owner <;> simp [OwnedWorker.step, ho] at hs
      subst hs
      exact Or.inl ht

/-- Once the destructor has returned, nothing is under way. -/
theorem Life.destroyed {s : OwnedWorker Task} (h : Life s)
    (ho : s.owner = .destroy .destroyed) (t : Task) : Settled (s.history t) := by
  have hknows := h.control.ownerKnows
  rw [ho] at hknows
  obtain ⟨htask, hpc⟩ : s.worker.task = none ∧ s.worker.pc = .exited := hknows
  have hcur : current s.worker s.owner = none := by
    simp [current, hpc, ho, pending, htask]
  rcases h.accounted t with ⟨ks, hks, -⟩ | ⟨-, hset⟩
  · simp [hcur] at hks
  · exact hset

/-- What may be done with a task, and when. -/
structure TaskLife (s : OwnedWorker Task) (t : Task) : Prop where
  /-- A task that `TryAssign` has accepted was stored. -/
  accepted : (t, true) ∈ s.results → s.history t ≠ []
  /-- It is on its way through one `Work()`, one `Done()` and one `delete`, or was deleted by
  the destructor without any of these. -/
  ends : s.history t <+: executed ∨ s.history t <+: discarded
  /-- `GetTask()` is the task all through its `Work()`. -/
  working : s.history t = [.assigned, .workBegin] → s.worker.getTask = some t
  /-- No other task is touched. -/
  untouched : s.history t ≠ [] → (t, true) ∈ s.results ∨
    ∃ pc, s.owner = .tryAssign t pc ∧ Accepting pc
  /-- A stored task is not overwritten. -/
  kept : ∀ e s', s.step e = some s' → s.worker.task = some t →
    s'.worker.task = some t ∨ s'.worker.task = none ∧
      (.workEnd ∈ s.history t ∨ .discarded ∈ s.history t)
  /-- When the destructor has returned, an accepted task has reached its end. -/
  ended : s.owner = .destroy .destroyed → (t, true) ∈ s.results →
    s.history t = executed ∨ s.history t = discarded

theorem taskLife_of_reachable {s : OwnedWorker Task} (hs : (system Task).Reachable s)
    (t : Task) : TaskLife s t := by
  have h := life_of_reachable hs
  refine ⟨fun hres => (h.accepted t).mpr (Or.inl hres), h.history_prefix t, ?_,
    (h.accepted t).mp, fun e s' he ht => h.task_kept he ht, ?_⟩
  · intro hwork
    rcases h.accounted t with ⟨ks, hcur, hks⟩ | ⟨_, hset⟩
    · rw [hwork] at hks
      exact current_working (hks ▸ hcur)
    · simp [Settled, hwork, executed, discarded] at hset
  · intro ho hres
    exact (h.destroyed ho t).resolve_left ((h.accepted t).mpr (Or.inl hres))

end OwnedWorker

end ThreadedServer
