import ThreadedServer.Wakeups

/-!
# The end of a BackgroundWorker

`~BackgroundWorker` takes back a task that the worker has not begun, and it may call the
worker's thread off for good.  But it clears `enabled_` before it locks the mutex, and a
thread that is awake may have the mutex first; it finds `task_` set and calls `Work()`.
By then the object is a `BackgroundWorker` only, whose `Work()` is pure virtual, and the
call ends the process.
-/

namespace ThreadedServer

open Transition

/-- A worker and its owner in the process that they run in; `aborted` says that `Work()`
was called where it is pure virtual. -/
structure WorkerProcess (Task : Type*) where
  inner : OwnedWorker Task
  aborted : Bool
  deriving DecidableEq, Repr

namespace WorkerProcess

variable {Task : Type*}

/-- The step is the call of a pure virtual `Work()`. -/
def callsPure (s : OwnedWorker Task) : WorkerAct Task → Bool
  | .thread => s.worker.pc.callsWork && s.owner.inBase
  | _ => false

variable [DecidableEq Task]

def step (s : WorkerProcess Task) (e : WorkerAct Task) : Option (WorkerProcess Task) :=
  if s.aborted then none
  else if callsPure s.inner e then some { s with aborted := true }
  else (s.inner.step e).map fun inner => { s with inner }

def create : WorkerProcess Task where
  inner := .create
  aborted := false

def system (Task : Type*) [DecidableEq Task] :
    System (WorkerProcess Task) (WorkerAct Task) where
  init := create
  step := step

/-- The condition on a step: once the destructor was called, the worker's thread does not
begin with a task any more. -/
def Timely (s : WorkerProcess Task) (e : WorkerAct Task) : Prop :=
  callsPure s.inner e = false

instance (s : WorkerProcess Task) (e : WorkerAct Task) : Decidable (s.Timely e) :=
  inferInstanceAs (Decidable (_ = false))

/-- The worker has a task that its thread has not begun with. -/
def Unbegun (w : BackgroundWorker Task) : Prop :=
  match w.pc with
  | .working | .take | .clear _ => False
  | _ => w.task ≠ none

section Steps

variable {s t : WorkerProcess Task} {e : WorkerAct Task}

/-- What a step can be. -/
theorem step_cases (h : s.step e = some t) :
    s.aborted = false ∧
      (callsPure s.inner e = true ∧ t = { s with aborted := true } ∨
        callsPure s.inner e = false ∧
          ∃ inner, s.inner.step e = some inner ∧ t = { s with inner }) := by
  rw [step] at h
  obtain ⟨hlive, h⟩ := Option.ite_none_left_eq_some.mp h
  refine ⟨by simpa using hlive, ?_⟩
  split at h
  case isTrue hcall => exact Or.inl ⟨hcall, (Option.some.inj h).symm⟩
  case isFalse hcall =>
    obtain ⟨inner, hinner, rfl⟩ := Option.map_eq_some_iff.mp h
    exact Or.inr ⟨by simpa using hcall, inner, hinner, rfl⟩

/-- Up to its end the process is a run of the two threads. -/
theorem inner_reachable (h : (system Task).Reachable s) :
    (OwnedWorker.system Task).Reachable s.inner := by
  apply h.invariant fun s => (OwnedWorker.system Task).Reachable s.inner
  · exact System.ReachableVia.init
  · intro s e t hinner hs
    obtain ⟨-, ⟨-, rfl⟩ | ⟨-, inner, hstep, rfl⟩⟩ := step_cases hs
    · exact hinner
    · exact System.ReachableVia.step hinner trivial hstep

theorem not_aborted (h : (system Task).ReachableVia Timely s) : s.aborted = false := by
  apply h.invariant fun s => s.aborted = false
  · rfl
  · intro s e t _ hok hlive hs
    obtain ⟨-, ⟨hcall, -⟩ | ⟨-, inner, -, rfl⟩⟩ := step_cases hs
    · rw [Timely, hcall] at hok
      cases hok
    · exact hlive

/-- No step follows the end of the process. -/
theorem leads_of_aborted (haborted : s.aborted = true) (h : (system Task).Leads s t) :
    t = s := by
  obtain ⟨es, hes⟩ := h
  cases es with
  | nil => exact (Option.some.inj hes).symm
  | cons e es =>
      obtain ⟨u, hu, -⟩ := Option.bind_eq_some_iff.mp hes
      have hlive := (step_cases hu).1
      rw [haborted] at hlive
      cases hlive

/-- The task of a call that comes too late was accepted, and nothing was done with it. -/
theorem untouched_of_callsPure {s : OwnedWorker Task}
    (h : (OwnedWorker.system Task).Reachable s) (hcall : callsPure s e = true) :
    ∃ u, (u, true) ∈ s.results ∧ s.history u = [.assigned] := by
  have hlife := OwnedWorker.life_of_reachable h
  obtain ⟨⟨m, x, en, pc⟩, o, log, results⟩ := s
  cases e with
  | thread =>
      obtain ⟨hpc, hbase⟩ := Bool.and_eq_true_iff.mp hcall
      obtain rfl : pc = .work := by cases pc <;> first | rfl | cases hpc
      obtain ⟨u, rfl⟩ : ∃ u, x = some u := Option.isSome_iff_exists.mp hlife.control.threadKnows
      have hcurrent : OwnedWorker.current ⟨m, some u, en, .work⟩ o = some (u, [.assigned]) :=
        OwnedWorker.pending_of_not_holds (hlife.control.not_ownerHolds rfl) _
      have hhistory := hlife.accounted.history_eq hcurrent
      refine ⟨u, ?_, hhistory⟩
      have hstored : OwnedWorker.history ⟨⟨m, some u, en, .work⟩, o, log, results⟩ u ≠ [] := by
        rw [hhistory]
        exact List.cons_ne_nil _ _
      obtain hres | ⟨pc, ho, -⟩ := (hlife.accepted u).mp hstored
      · exact hres
      · obtain rfl : o = .tryAssign u pc := ho
        cases hbase
  | wake | tryAssign v | destroy | owner => cases hcall

/-- A thread that has a task before it is not stopped by the call of the destructor. -/
theorem leads_aborted (h : (system Task).Reachable s) (hstep : s.step .destroy = some t)
    (hunbegun : Unbegun s.inner.worker) : ∃ u, (system Task).Leads t u ∧ u.aborted = true := by
  obtain ⟨halert, hcontrol⟩ := OwnedWorker.alert_of_reachable (inner_reachable h)
  have hfree := hcontrol.mutex_free
  have hasleep := halert.asleep
  have hleft := halert.left
  have henabled := halert.enabled
  have hknows := hcontrol.threadKnows
  obtain ⟨hlive, ⟨hcall, -⟩ | ⟨-, inner, hinner, rfl⟩⟩ := step_cases hstep
  · cases hcall
  obtain ⟨⟨⟨m, x, en, pc⟩, o, log, results⟩, aborted⟩ := s
  obtain rfl : aborted = false := hlive
  obtain ⟨rfl, rfl⟩ : o = .idle ∧ inner = ⟨⟨m, x, en, pc⟩, .destroy .disable, log, results⟩ := by
    cases o with
    | idle => exact ⟨rfl, (Option.some.inj hinner).symm⟩
    | tryAssign u pc | destroy pc => cases hinner
  obtain rfl : en = true := by
    cases en with
    | true => rfl
    | false => exact (henabled.mp rfl).elim
  cases x with
  | none => cases pc <;> simp [Unbegun] at hunbegun
  | some y =>
      cases pc with
      | start =>
          obtain rfl : m = none := hfree id id
          exact ⟨_, ⟨List.replicate 5 .thread, rfl⟩, rfl⟩
      | woken =>
          obtain rfl : m = none := hfree id id
          exact ⟨_, ⟨List.replicate 3 .thread, rfl⟩, rfl⟩
      | loop => exact ⟨_, ⟨List.replicate 4 .thread, rfl⟩, rfl⟩
      | check => exact ⟨_, ⟨List.replicate 3 .thread, rfl⟩, rfl⟩
      | recheck => exact ⟨_, ⟨List.replicate 2 .thread, rfl⟩, rfl⟩
      | work => exact ⟨_, ⟨[.thread], rfl⟩, rfl⟩
      | waiting =>
          obtain hnone | ⟨u, hu⟩ := hasleep rfl
          · cases hnone
          · cases hu
      | working | take | clear y => exact hunbegun.elim
      | condWait | done y | inDone y | delete y => simp [OwnedWorker.ThreadKnows] at hknows
      | unlock | exited => simp at hleft

end Steps

/-- **The two ends of an accepted task.**  In every run in which the worker's thread does not
begin with a task once the destructor was called, a task for which `TryAssign` has returned
true comes to one of its two ends, and to one only.  A step that begins with a task later
ends the process: the task was accepted, nothing was done with it, and nothing follows.
Wherever the destructor is called for a worker that has not begun with its task, some
interleaving goes on to such a step. -/
theorem accepted_task_life :
    (∀ s, (system Task).ReachableVia Timely s →
      s.aborted = false ∧ ∀ t, OwnedWorker.TaskLife s.inner t) ∧
    (∀ s s' e, (system Task).Reachable s → s.step e = some s' → ¬ s.Timely e →
      (∃ t, (t, true) ∈ s'.inner.results ∧ s'.inner.history t = [.assigned]) ∧
        ∀ u, (system Task).Leads s' u → u = s') ∧
    ∀ s s', (system Task).Reachable s → s.step .destroy = some s' → Unbegun s.inner.worker →
      ∃ u, (system Task).Leads s' u ∧ u.aborted = true := by
  refine ⟨fun s hs => ⟨not_aborted hs, fun t => ?_⟩, fun s s' e hs hstep hlate => ?_,
    fun s s' hs hstep hunbegun => leads_aborted hs hstep hunbegun⟩
  · exact OwnedWorker.taskLife_of_reachable (inner_reachable hs.reachable) t
  · obtain ⟨-, ⟨hcall, rfl⟩ | ⟨hcall, -⟩⟩ := step_cases hstep
    · have huntouched := untouched_of_callsPure (inner_reachable hs) hcall
      exact ⟨huntouched, fun u hu => leads_of_aborted rfl hu⟩
    · exact absurd hcall hlate

/-- The thread executes task 7 and goes to sleep; task 8 wakes it up, and the destructor has
the mutex first. -/
def bothEnds : List (WorkerAct Nat) :=
  .tryAssign 7 :: List.replicate 6 .owner ++ List.replicate 14 .thread ++
    .tryAssign 8 :: List.replicate 6 .owner ++ .destroy :: List.replicate 7 .owner ++
    List.replicate 4 .thread ++ [.owner]

theorem accepted_task_life_two :
    ∃ s, (system Nat).runVia Timely create bothEnds = some s ∧
      s.inner.owner = .destroy .destroyed ∧
      (s.inner.history 7 = OwnedWorker.executed ∧ s.inner.history 8 = OwnedWorker.discarded) ∧
      OwnedWorker.TaskLife s.inner 7 ∧ OwnedWorker.TaskLife s.inner 8 := by
  obtain ⟨s, hrun, howner, hends⟩ :
      ∃ s, (system Nat).runVia Timely create bothEnds = some s ∧
        s.inner.owner = .destroy .destroyed ∧
        (s.inner.history 7 = OwnedWorker.executed ∧
          s.inner.history 8 = OwnedWorker.discarded) := ⟨_, rfl, rfl, by decide⟩
  have hlife := (accepted_task_life.1 s (System.ReachableVia.init.run hrun)).2
  exact ⟨s, hrun, howner, hends, hlife 7, hlife 8⟩

/-- The thread sleeps when task 7 is assigned, and has the mutex before the destructor. -/
theorem accepted_task_lost :
    ∃ s, (system Nat).Reachable s ∧ (7, true) ∈ s.inner.results ∧
      s.inner.history 7 = [.assigned] ∧ s.aborted = true ∧ ∀ e, s.step e = none := by
  obtain ⟨s, hrun, hres, hhistory, haborted⟩ :
      ∃ s, (system Nat).runFrom create (List.replicate 4 .thread ++
          .tryAssign 7 :: List.replicate 6 .owner ++
          .destroy :: List.replicate 3 .thread) = some s ∧
        (7, true) ∈ s.inner.results ∧ s.inner.history 7 = [.assigned] ∧ s.aborted = true :=
    ⟨_, rfl, by decide, by decide, rfl⟩
  exact ⟨s, System.reachable_of_run hrun, hres, hhistory, haborted, fun e => if_pos haborted⟩

end WorkerProcess

end ThreadedServer
