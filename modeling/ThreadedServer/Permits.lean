import Mathlib.Algebra.BigOperators.Group.Finset.Basic
import Mathlib.Algebra.BigOperators.Intervals
import ThreadedServer.Dispatcher

/-!
# Where the permits of the semaphore are

The semaphore counts the workers that are free.  This file says what that means
at every moment of every run: each registered worker accounts for exactly one
permit, which is in the counter, or with the accept loop (taken by `Wait` and
not yet turned into an assignment, or about to be raised by `AddWorker`), or
with a worker (which has a task, or has finished one and has not raised the
semaphore yet).

The invariant has one part for each worker, `WorkerInv`, which mentions only
that worker, its place in the semaphore and whether the accept loop holds its
mutex; one part for the accept loop; and the ledger, which adds them up.
-/

namespace ThreadedServer

namespace TaskDispatcher

open BackgroundWorker

variable {Task : Type*}

/-- What `task_` is while a worker's thread is at the given control point. -/
def TaskFits : ThreadPc Task → Option Task → Prop
  | .work, x | .working, x | .take, x => x.isSome
  | .clear y, x => y = x ∧ x.isSome
  | .done y, x | .inDone y, x => y.isSome ∧ x = none
  | _, _ => True

/-- The local variable `task` of `worker_func`. -/
def localTask : ThreadPc Task → Option Task
  | .clear y | .done y | .inDone y => y
  | _ => none

/-- The invariant of one worker: `owned` says that the accept loop holds its
mutex, `live` that it is registered, and `p` is where its thread is in the
semaphore. -/
structure WorkerInv (observer : Task → Bool) (owned live : Prop)
    (w : BackgroundWorker Task) (p : SemPc) : Prop where
  thread : w.taskAssignedMutex = some .thread ↔ ThreadHolds w.pc
  owner : w.taskAssignedMutex = some .owner ↔ owned
  task : TaskFits w.pc w.task
  observed : ∀ t, w.task = some t ∨ localTask w.pc = some t → observer t
  sem : p ≠ .out → live ∧ (∃ y, w.pc = .inDone y) ∧
    (p = .signalLock ∨ p = .signalRaise ∨ p = .signalCond ∨ p = .signalUnlock)

/-- The permit a worker accounts for: it has a task, or it has finished one and
has not raised the semaphore yet. -/
def load (w : BackgroundWorker Task) (p : SemPc) : Int :=
  if w.task.isSome then 1
  else match w.pc, p with
    | .done _, _ => 1
    | .inDone _, .signalLock | .inDone _, .signalRaise => 1
    | _, _ => 0

/-- A worker with a task accounts for a permit. -/
theorem load_of_task {w : BackgroundWorker Task} {p : SemPc} (h : w.task ≠ none) :
    load w p = 1 := by
  simp [load, Option.isSome_iff_ne_none.mpr h]

/-- A new worker has no permit. -/
theorem load_create (p : SemPc) :
    load (BackgroundWorker.create : BackgroundWorker Task) p = 0 := rfl

namespace WorkerInv

variable {observer : Task → Bool} {owned live : Prop}
  {w w' : BackgroundWorker Task} {p : SemPc}

/-- A new worker. -/
theorem create (h : ¬ owned) :
    WorkerInv observer owned live (BackgroundWorker.create : BackgroundWorker Task) .out := by
  constructor <;> simp [BackgroundWorker.create, ThreadHolds, TaskFits, localTask, h]

/-- The dispatcher may become the observer of more tasks and register more
workers. -/
theorem mono {observer' : Task → Bool} {live' : Prop}
    (h : WorkerInv observer owned live w p)
    (hobs : ∀ t, observer t → observer' t) (hlive : live → live') :
    WorkerInv observer' owned live' w p where
  thread := h.thread
  owner := h.owner
  task := h.task
  observed t ht := hobs t (h.observed t ht)
  sem hp := ⟨hlive (h.sem hp).1, (h.sem hp).2⟩

/-- Between the lines of `Done()` and outside it, a step of the worker's thread
keeps the invariant and the worker's permit. -/
theorem threadStep (h : WorkerInv observer owned live w .out)
    (hs : w.threadStep = some w') (hpc : ∀ t, w.pc ≠ .done (some t)) :
    WorkerInv observer owned live w' .out ∧ load w' .out = load w .out := by
  obtain ⟨hthread, howner, htask, hobs, hsem⟩ := h
  refine ⟨?_, ?_⟩
  · cases threadStep_cases hs <;>
      constructor <;> simp_all [ThreadHolds, TaskFits, localTask]
  · cases threadStep_cases hs <;> simp_all [load, TaskFits]

/-- `task->Done()` raises the semaphore once more: the permit stays with the
worker until the counter has it. -/
theorem done {t : Task} (h : WorkerInv observer owned live w .out) (hlive : live)
    (hs : w.threadStep = some w') (hpc : w.pc = .done (some t)) :
    WorkerInv observer owned live w' .signalLock ∧
      load w' .signalLock = load w .out := by
  obtain ⟨hthread, howner, htask, hobs, hsem⟩ := h
  refine ⟨?_, ?_⟩
  · cases threadStep_cases hs <;>
      constructor <;> simp_all [ThreadHolds, TaskFits, localTask]
  · cases threadStep_cases hs <;> simp_all [load, TaskFits]

/-- A worker is in `Signal` only on behalf of `Done()`. -/
theorem sem_out (h : WorkerInv observer owned live w p) (hpc : ∀ y, w.pc ≠ .inDone y) :
    p = .out := by
  by_contra hp
  obtain ⟨-, ⟨y, hy⟩, -⟩ := h.sem hp
  exact hpc y hy

/-- A step of the worker's thread inside `Signal` moves its permit to the
counter. -/
theorem semMove {i : Party} {p' : SemPc} {l l' : Option Party} {c c' : Int}
    (h : WorkerInv observer owned live w p) (hm : Semaphore.Move i p l c p' l' c') :
    WorkerInv observer owned live w p' ∧ c' + load w p' = c + load w p := by
  by_cases hp : p = .out
  · subst p
    cases hm
    exact ⟨h, rfl⟩
  · obtain ⟨hlive, ⟨y, hy⟩, hsig⟩ := h.sem hp
    have htask := h.task
    rw [hy] at htask
    obtain ⟨-, hnone⟩ := htask
    refine ⟨⟨h.thread, h.owner, h.task, h.observed, fun _ => ⟨hlive, ⟨y, hy⟩, ?_⟩⟩, ?_⟩
    · cases hm <;> simp_all
    · cases hm <;> simp_all [load]

/-- While the accept loop holds the mutex, the thread does not. -/
theorem thread_out (h : WorkerInv observer owned live w p) (howned : owned) :
    ¬ ThreadHolds w.pc := by
  rw [← h.thread, h.owner.mpr howned]
  simp

/-- A spurious wake-up. -/
theorem spurious (h : WorkerInv observer owned live w p)
    (hs : w.spuriousWake = some w') :
    WorkerInv observer owned live w' p ∧ load w' p = load w p := by
  obtain ⟨hpc, rfl⟩ := spuriousWake_cases hs
  obtain ⟨hthread, howner, htask, hobs, hsem⟩ := h
  refine ⟨?_, ?_⟩
  · constructor <;> simp_all [ThreadHolds, TaskFits, localTask]
  · simp [load, hpc]

/-- The permit a task carries through `TryAssign`: it is the accept loop's until
the task is stored. -/
def tryStake : TryPc → Int
  | .signal | .unlockTrue | .ret true => 0
  | _ => 1

/-- A step of `TryAssign` moves the permit to the worker when it stores the
task. -/
theorem tryAssignStep {t : Task} {pc pc' : TryPc}
    (h : WorkerInv observer (TryHolds pc) live w p)
    (hs : w.tryAssignStep t pc = (w', pc')) (hobs : observer t)
    (hfree : pc = .assign → w.task = none) :
    WorkerInv observer (TryHolds pc') live w' p ∧
      load w' p + tryStake pc' = load w p + tryStake pc := by
  have hout := h.thread_out
  obtain ⟨hthread, howner, htask, hobserved, hsem⟩ := h
  cases pc with
  | trylock =>
      by_cases hm : w.taskAssignedMutex = none
      · obtain ⟨rfl, rfl⟩ : _ = w' ∧ _ = pc' := by
          simpa [BackgroundWorker.tryAssignStep, hm] using hs
        refine ⟨⟨?_, by simp [TryHolds], htask, hobserved, hsem⟩, rfl⟩
        simpa [hm] using hthread
      · obtain ⟨rfl, rfl⟩ : w = w' ∧ _ = pc' := by
          simpa [BackgroundWorker.tryAssignStep, hm] using hs
        exact ⟨⟨hthread, howner, htask, hobserved, hsem⟩, rfl⟩
  | check =>
      obtain ⟨rfl, rfl⟩ : w = w' ∧ _ = pc' := by
        simpa [BackgroundWorker.tryAssignStep] using hs
      refine ⟨⟨hthread, ?_, htask, hobserved, hsem⟩, ?_⟩
      · rw [howner]
        cases w.task.isSome <;> simp [TryHolds]
      · cases w.task.isSome <;> simp [tryStake]
  | unlockFalse | unlockTrue =>
      obtain ⟨rfl, rfl⟩ : _ = w' ∧ _ = pc' := by
        simpa [BackgroundWorker.tryAssignStep] using hs
      have hheld : w.taskAssignedMutex = some .owner := howner.mpr trivial
      refine ⟨⟨?_, by simp [TryHolds], htask, hobserved, hsem⟩, rfl⟩
      simpa [hheld] using hthread
  | assign =>
      obtain ⟨rfl, rfl⟩ : _ = w' ∧ _ = pc' := by
        simpa [BackgroundWorker.tryAssignStep] using hs
      replace hout := hout trivial
      have hnone := hfree rfl
      refine ⟨⟨hthread, by simpa [TryHolds] using howner, ?_, ?_, hsem⟩, ?_⟩
      · cases hpc : w.pc <;> simp_all [ThreadHolds, TaskFits]
      · cases hpc : w.pc <;> simp_all [ThreadHolds, localTask]
      · cases hpc : w.pc <;> simp_all [ThreadHolds, load, tryStake]
  | signal =>
      obtain ⟨rfl, rfl⟩ : w.condSignal = w' ∧ _ = pc' := by
        simpa [BackgroundWorker.tryAssignStep] using hs
      rcases w.condSignal_pc with ⟨hpc, -⟩ | ⟨hpc, hpc'⟩
      · refine ⟨⟨by simpa using hthread, by simpa [TryHolds] using howner, ?_, ?_, ?_⟩, ?_⟩
        all_goals simp_all [load, tryStake]
      · refine ⟨⟨by simpa using hthread, by simpa [TryHolds] using howner, ?_, ?_, ?_⟩, ?_⟩
        all_goals simp_all [load, tryStake, TaskFits, localTask]
  | ret b =>
      obtain ⟨rfl, rfl⟩ : w = w' ∧ _ = pc' := by
        simpa [BackgroundWorker.tryAssignStep] using hs
      exact ⟨⟨hthread, howner, htask, hobserved, hsem⟩, rfl⟩

end WorkerInv

/-- The accept loop holds the mutex of worker `i`. -/
def Owns : MainPc Task → Nat → Prop
  | .tryAssign _ j pc, i => j = i ∧ TryHolds pc
  | _, _ => False

/-- The permit the accept loop accounts for when it is at place `p` of the
semaphore: taken and not handed on, or about to be raised. -/
def stake : MainPc Task → SemPc → Int
  | .addSignal, .signalLock | .addSignal, .signalRaise => 1
  | .wait _, .waitUnlock | .wait _, .out => 1
  | .setObserver _, _ | .loop _ _, _ | .assertFailed _, _ => 1
  | .tryAssign _ _ pc, _ => WorkerInv.tryStake pc
  | _, _ => 0

/-- Where the accept loop may be in the semaphore. -/
def SemFits : MainPc Task → SemPc → Prop
  | .addSignal, p =>
      p = .out ∨ p = .signalLock ∨ p = .signalRaise ∨ p = .signalCond ∨ p = .signalUnlock
  | .wait _, p =>
      p = .out ∨ p = .waitLock ∨ p = .waitTest ∨ p = .waitBlock ∨ p = .waitCond ∨
        p = .waitTake ∨ p = .waitUnlock
  | _, p => p = .out

/-- What holds of the workers while the accept loop offers a task to them. -/
def OfferFits (observer : Task → Bool) (size : Nat)
    (workers : Nat → BackgroundWorker Task) : MainPc Task → Prop
  | .loop t _ => observer t
  | .tryAssign t i pc => observer t ∧ i < size ∧ (pc = .assign → (workers i).task = none)
  | _ => True

/-- The permits that the workers account for. -/
def busy (d : TaskDispatcher Task) : Int :=
  ∑ i ∈ Finset.range d.size, load (d.workers i) (d.semaphore.pc (.worker i))

/-- The invariant of the dispatcher. -/
structure Inv (d : TaskDispatcher Task) : Prop where
  sound : d.semaphore.Sound
  worker : ∀ i, WorkerInv d.observer (Owns d.main i) (i < d.size) (d.workers i)
    (d.semaphore.pc (.worker i))
  sem : SemFits d.main (d.semaphore.pc .main)
  offer : OfferFits d.observer d.size d.workers d.main
  ledger : d.semaphore.counter + stake d.main (d.semaphore.pc .main) + busy d = d.size

/-- The worker that a task is offered to. -/
theorem Inv.trying {d : TaskDispatcher Task} (h : Inv d) {t : Task} {i : Nat} {pc : TryPc}
    (hmain : d.main = .tryAssign t i pc) :
    WorkerInv d.observer (TryHolds pc) (i < d.size) (d.workers i)
      (d.semaphore.pc (.worker i)) := by
  simpa [hmain, Owns] using h.worker i

theorem inv_create : Inv (create : TaskDispatcher Task) where
  sound := Semaphore.sound_create le_rfl
  worker _ := WorkerInv.create id
  sem := rfl
  offer := trivial
  ledger := rfl

/-- When one worker moves, the permits of the others stay where they are. -/
theorem busy_change (d d' : TaskDispatcher Task) (hsize : d'.size = d.size) {i : Nat}
    (hi : i < d.size)
    (hother : ∀ j, j ≠ i → d'.workers j = d.workers j ∧
      d'.semaphore.pc (.worker j) = d.semaphore.pc (.worker j)) :
    busy d' + load (d.workers i) (d.semaphore.pc (.worker i)) =
      busy d + load (d'.workers i) (d'.semaphore.pc (.worker i)) := by
  have hmem := Finset.mem_range.mpr hi
  have hrest : ∀ j ∈ (Finset.range d.size).erase i,
      load (d'.workers j) (d'.semaphore.pc (.worker j)) =
        load (d.workers j) (d.semaphore.pc (.worker j)) := by
    intro j hj
    obtain ⟨hw, hp⟩ := hother j (Finset.ne_of_mem_erase hj)
    rw [hw, hp]
  unfold busy
  rw [hsize, ← Finset.add_sum_erase _ _ hmem, Finset.sum_congr rfl hrest,
    ← Finset.add_sum_erase (Finset.range d.size) (fun j => load (d.workers j) _) hmem]
  omega

theorem OfferFits.update {observer : Task → Bool} {size : Nat}
    {workers : Nat → BackgroundWorker Task} {main : MainPc Task}
    (h : OfferFits observer size workers main) {i : Nat} {w : BackgroundWorker Task}
    (htask : (workers i).task = none → w.task = none) :
    OfferFits observer size (Function.update workers i w) main := by
  cases main with
  | tryAssign t j pc =>
      obtain ⟨hobs, hj, hfree⟩ := h
      refine ⟨hobs, hj, fun hpc => ?_⟩
      by_cases hji : j = i
      · subst j
        simpa using htask (hfree hpc)
      · simpa [hji] using hfree hpc
  | _ => exact h

/-- **One worker moves.**  What a worker's thread does to its worker and to its
place in the semaphore keeps the invariant of the dispatcher if it keeps the
invariant of that worker and balances the ledger. -/
theorem Inv.workerMoves {d : TaskDispatcher Task} (h : Inv d) {i : Nat}
    (hi : i < d.size) {w : BackgroundWorker Task} {s : Semaphore Party}
    (hs : s.Sound) (hpc : ∀ q, q ≠ .worker i → s.pc q = d.semaphore.pc q)
    (hw : WorkerInv d.observer (Owns d.main i) (i < d.size) w (s.pc (.worker i)))
    (htask : (d.workers i).task = none → w.task = none)
    (hled : s.counter + load w (s.pc (.worker i)) =
      d.semaphore.counter + load (d.workers i) (d.semaphore.pc (.worker i))) :
    Inv ⟨s, d.size, Function.update d.workers i w, d.observer, d.main⟩ := by
  have hmain : s.pc .main = d.semaphore.pc .main := hpc .main (by simp)
  refine ⟨hs, fun j => ?_, ?_, h.offer.update htask, ?_⟩
  · by_cases hji : j = i
    · subst j
      simpa using hw
    · have hpcj := hpc (.worker j) (by simp [hji])
      simpa [hji, hpcj] using h.worker j
  · simpa [hmain] using h.sem
  · have hbusy := busy_change d
      ⟨s, d.size, Function.update d.workers i w, d.observer, d.main⟩ rfl hi
      fun j hj => ⟨by simp [hj], hpc (.worker j) (by simp [hj])⟩
    have hledger := h.ledger
    rw [← hmain] at hledger
    simp only [Function.update_self] at hbusy ⊢
    omega

/-- A step of a worker's thread outside the semaphore. -/
theorem Inv.threadStep [DecidableEq Task] {d d' : TaskDispatcher Task} (h : Inv d)
    {i : Nat} (hi : i < d.size) (hs : d.threadStep i = some d') : Inv d' := by
  have hwi := h.worker i
  -- a line of the thread away from `Done()` leaves the semaphore as it is
  have plain : ∀ w', (d.workers i).threadStep = some w' →
      (∀ t, (d.workers i).pc ≠ .done (some t)) → d.semaphore.pc (.worker i) = .out →
      Inv (d.setWorker i w') := by
    intro w' hw' hpc hout
    rw [hout] at hwi
    obtain ⟨hinv, hload⟩ := hwi.threadStep hw' hpc
    refine h.workerMoves (s := d.semaphore) hi h.sound (fun _ _ => rfl) ?_ ?_ ?_
    · rwa [hout]
    · intro hnone
      rcases threadStep_task hw' with htask | ⟨htask, -⟩
      · rw [htask, hnone]
      · exact htask
    · rw [hout, hload]
  unfold TaskDispatcher.threadStep at hs
  split at hs
  case h_1 t hpc =>
    obtain ⟨w', hw', rfl⟩ := Option.map_eq_some_iff.mp hs
    have hobs : d.observer t := hwi.observed t (Or.inr (by simp [hpc, localTask]))
    have hout := hwi.sem_out (by simp [hpc])
    rw [hout] at hwi
    obtain ⟨hinv, hload⟩ := hwi.done hi hw' hpc
    have hd : (d.setWorker i w').taskDone i t =
        { d.setWorker i w' with semaphore := d.semaphore.signal (.worker i) } := by
      simp [taskDone, onTaskDone, setWorker, hobs]
    have hself : (d.semaphore.signal (.worker i)).pc (.worker i) = .signalLock := by
      simp [Semaphore.signal]
    rw [hd]
    refine h.workerMoves hi (h.sound.goto_out hout id) ?_ ?_ ?_ ?_
    · intro q hq
      simp [Semaphore.signal, hq]
    · rwa [hself]
    · intro hnone
      rcases threadStep_task hw' with htask | ⟨htask, -⟩
      · rw [htask, hnone]
      · exact htask
    · rw [hself, hload, hout]
      rfl
  case h_2 y hpc =>
    split at hs
    case isTrue hout =>
      obtain ⟨w', hw', rfl⟩ := Option.map_eq_some_iff.mp hs
      exact plain w' hw' (by simp [hpc]) hout
    case isFalse => cases hs
  case h_3 hdone hin =>
    obtain ⟨w', hw', rfl⟩ := Option.map_eq_some_iff.mp hs
    exact plain w' hw' hdone (hwi.sem_out hin)

/-- A step of a worker's thread inside the semaphore. -/
theorem Inv.threadSem {d : TaskDispatcher Task} (h : Inv d) {i : Nat} (hi : i < d.size)
    {a : SemAct Party} {s : Semaphore Party}
    (hs : d.semaphore.step (.worker i) a = some s) : Inv { d with semaphore := s } := by
  obtain ⟨hmove, hother⟩ := Semaphore.step_move hs
  obtain ⟨hinv, hload⟩ := (h.worker i).semMove hmove
  have hmoved := h.workerMoves hi (h.sound.step hs) hother hinv id hload
  rwa [Function.update_eq_self] at hmoved

/-- A spurious wake-up of a worker's thread. -/
theorem Inv.spurious {d : TaskDispatcher Task} (h : Inv d) {i : Nat} (hi : i < d.size)
    {w : BackgroundWorker Task} (hs : (d.workers i).spuriousWake = some w) :
    Inv (d.setWorker i w) := by
  obtain ⟨hinv, hload⟩ := (h.worker i).spurious hs
  refine h.workerMoves (s := d.semaphore) hi h.sound (fun _ _ => rfl) hinv ?_ ?_
  · obtain ⟨-, rfl⟩ := spuriousWake_cases hs
    exact id
  · rw [hload]

/-- A move of the accept loop inside the semaphore balances the ledger. -/
theorem mainMove {i : Party} {main : MainPc Task} {p p' : SemPc} {l l' : Option Party}
    {c c' : Int} (hfits : SemFits main p) (hm : Semaphore.Move i p l c p' l' c') :
    SemFits main p' ∧ c' + stake main p' = c + stake main p := by
  cases main with
  | addSignal | wait => cases hm <;> simp_all [SemFits, stake]
  | _ =>
      obtain rfl : p = .out := hfits
      cases hm
      exact ⟨rfl, rfl⟩

/-- A step of the accept loop inside the semaphore. -/
theorem Inv.mainSem {d : TaskDispatcher Task} (h : Inv d) {a : SemAct Party}
    {s : Semaphore Party} (hs : d.semaphore.step .main a = some s) :
    Inv { d with semaphore := s } := by
  obtain ⟨hmove, hother⟩ := Semaphore.step_move hs
  obtain ⟨hfits, hled⟩ := mainMove h.sem hmove
  have hworker : ∀ i, s.pc (.worker i) = d.semaphore.pc (.worker i) :=
    fun i => hother _ (by simp)
  have hbusy : busy { d with semaphore := s } = busy d := by
    simp [busy, hworker]
  refine ⟨h.sound.step hs, fun i => ?_, hfits, h.offer, ?_⟩
  · simpa [hworker i] using h.worker i
  · have hledger := h.ledger
    rw [hbusy]
    show s.counter + stake d.main (s.pc .main) + busy d = (d.size : Int)
    omega

/-- `AddWorker` brings a worker and, once its `Signal` is through, a permit. -/
theorem Inv.addWorker {d d' : TaskDispatcher Task} (h : Inv d)
    (hs : d.addWorker = some d') : Inv d' := by
  unfold TaskDispatcher.addWorker at hs
  split at hs
  case h_1 hmain =>
    obtain rfl := Option.some.inj hs
    obtain ⟨hsound, hworker, hsem, hoffer, hledger⟩ := h
    simp only [hmain] at hworker hsem hledger
    have hout : d.semaphore.pc .main = .out := hsem
    have hnew : d.semaphore.pc (.worker d.size) = .out := by
      by_contra hp
      exact absurd ((hworker d.size).sem hp).1 (lt_irrefl _)
    refine ⟨hsound.goto_out hout id, fun i => ?_, ?_, trivial, ?_⟩
    · by_cases hi : i = d.size
      · subst i
        simpa [setWorker, Semaphore.signal, hnew, Owns] using WorkerInv.create id
      · have hwi := (hworker i).mono (fun t ht => ht) (fun hlt => Nat.lt_succ_of_lt hlt)
        simpa [setWorker, Semaphore.signal, hi, Owns] using hwi
    · simp [Semaphore.signal, SemFits]
    · have hold : ∀ i ∈ Finset.range d.size,
          load (Function.update d.workers d.size .create i) (d.semaphore.pc (.worker i)) =
            load (d.workers i) (d.semaphore.pc (.worker i)) := by
        intro i hi
        rw [Function.update_of_ne (Finset.mem_range.mp hi).ne]
      simp only [busy, stake] at hledger
      simp only [busy, setWorker, Semaphore.signal, Finset.sum_range_succ,
        Semaphore.goto_pc, Semaphore.goto_counter, reduceCtorEq, if_false, if_true, stake,
        Finset.sum_congr rfl hold, hnew, Function.update_self, load_create]
      omega
  case h_2 => cases hs

/-- The accept loop enters `Wait`. -/
theorem Inv.dispatch {d d' : TaskDispatcher Task} (h : Inv d) {t : Task}
    (hs : d.dispatch t = some d') : Inv d' := by
  unfold TaskDispatcher.dispatch at hs
  split at hs
  case h_1 hmain =>
    obtain rfl := Option.some.inj hs
    obtain ⟨hsound, hworker, hsem, hoffer, hledger⟩ := h
    simp only [hmain] at hworker hsem hledger
    have hout : d.semaphore.pc .main = .out := hsem
    refine ⟨hsound.goto_out hout id, fun i => ?_, ?_, trivial, ?_⟩
    · simpa [Semaphore.wait, Owns] using hworker i
    · simp [Semaphore.wait, SemFits]
    · simpa [busy, Semaphore.wait, hout, stake] using hledger
  case h_2 => cases hs

/-- A line of the accept loop outside the semaphore and outside `TryAssign`. -/
theorem Inv.mainGoes {d : TaskDispatcher Task} (h : Inv d) {main : MainPc Task}
    {observer : Task → Bool} (hobs : ∀ t, d.observer t → observer t)
    (hout : d.semaphore.pc .main = .out) (hfits : SemFits main .out)
    (howns : ∀ i, Owns main i ↔ Owns d.main i)
    (hoffer : OfferFits observer d.size d.workers main)
    (hstake : stake main .out = stake d.main .out) :
    Inv ⟨d.semaphore, d.size, d.workers, observer, main⟩ := by
  have hledger := h.ledger
  rw [hout, ← hstake, ← hout] at hledger
  refine ⟨h.sound, fun i => ?_, by rwa [hout], hoffer, hledger⟩
  simpa [howns i] using (h.worker i).mono hobs id

/-- A line of `TryAssign`. -/
theorem Inv.tryAssign {d : TaskDispatcher Task} (h : Inv d) {t : Task} {i : Nat}
    {pc pc' : TryPc} (hmain : d.main = .tryAssign t i pc) {w : BackgroundWorker Task}
    (hs : (d.workers i).tryAssignStep t pc = (w, pc')) :
    Inv ⟨d.semaphore, d.size, Function.update d.workers i w, d.observer,
      .tryAssign t i pc'⟩ := by
  have hwi := h.trying hmain
  obtain ⟨hsound, hworker, hsem, hoffer, hledger⟩ := h
  rw [hmain] at hsem hoffer hledger
  simp only [hmain] at hworker
  obtain ⟨hobs, hi, hfree⟩ := hoffer
  obtain ⟨hinv, hload⟩ := hwi.tryAssignStep hs hobs hfree
  refine ⟨hsound, fun j => ?_, hsem, ⟨hobs, hi, fun hpc => ?_⟩, ?_⟩
  · by_cases hji : j = i
    · subst j
      simpa [Owns] using hinv
    · simpa [Owns, Ne.symm hji, hji] using hworker j
  · subst pc'
    simpa using tryAssignStep_assign hs
  · have hbusy := busy_change d
      ⟨d.semaphore, d.size, Function.update d.workers i w, d.observer, .tryAssign t i pc'⟩
      rfl hi fun j hj => ⟨by simp [hj], rfl⟩
    simp only [Function.update_self, stake] at hbusy hledger ⊢
    omega

/-- A line of the accept loop outside the semaphore. -/
theorem Inv.mainStep [DecidableEq Task] {d d' : TaskDispatcher Task} (h : Inv d)
    (hs : d.mainStep = some d') : Inv d' := by
  have hsem := h.sem
  have hoffer := h.offer
  unfold TaskDispatcher.mainStep at hs
  split at hs
  case h_1 => cases hs
  case h_2 hmain =>
    obtain ⟨hout, rfl⟩ : d.semaphore.pc .main = .out ∧ _ = d' := by simpa using hs
    refine h.mainGoes (fun t ht => ht) hout rfl ?_ trivial ?_ <;> simp [hmain, Owns, stake]
  case h_3 t hmain =>
    obtain ⟨hout, rfl⟩ : d.semaphore.pc .main = .out ∧ _ = d' := by simpa using hs
    refine h.mainGoes (fun t ht => ht) hout rfl ?_ trivial ?_ <;> simp [hmain, Owns, stake]
  case h_4 t hmain =>
    obtain rfl := Option.some.inj hs
    rw [hmain] at hsem
    refine h.mainGoes ?_ hsem rfl ?_ ?_ ?_
    · intro u hu
      by_cases hut : u = t <;> simp [hut, hu]
    · simp [hmain, Owns]
    · simp [OfferFits]
    · simp [hmain, stake]
  case h_5 t i hmain =>
    obtain rfl := Option.some.inj hs
    rw [hmain] at hsem hoffer
    by_cases hi : i < d.size
    · simp only [if_pos hi]
      refine h.mainGoes (fun t ht => ht) hsem rfl ?_ ⟨hoffer, hi, by simp⟩ ?_ <;>
        simp [hmain, Owns, stake, TryHolds, WorkerInv.tryStake]
    · simp only [if_neg hi]
      refine h.mainGoes (fun t ht => ht) hsem rfl ?_ trivial ?_ <;>
        simp [hmain, Owns, stake]
  case h_6 t i hmain =>
    obtain rfl := Option.some.inj hs
    rw [hmain] at hsem
    refine h.mainGoes (fun t ht => ht) hsem rfl ?_ trivial ?_ <;>
      simp [hmain, Owns, stake, TryHolds, WorkerInv.tryStake]
  case h_7 t i hmain =>
    obtain rfl := Option.some.inj hs
    rw [hmain] at hsem hoffer
    refine h.mainGoes (fun t ht => ht) hsem rfl ?_ hoffer.1 ?_ <;>
      simp [hmain, Owns, stake, TryHolds, WorkerInv.tryStake]
  case h_8 t i pc _ _ hmain =>
    obtain rfl := Option.some.inj hs
    exact h.tryAssign hmain rfl
  case h_9 => cases hs

/-- Every step of every thread keeps the invariant. -/
theorem Inv.step [DecidableEq Task] {d d' : TaskDispatcher Task} (h : Inv d)
    {l : DispatchLabel Task} (hs : d.step l = some d') : Inv d' := by
  cases l with
  | addWorker => exact h.addWorker hs
  | dispatch t => exact h.dispatch hs
  | main => exact h.mainStep hs
  | mainSem a =>
      obtain ⟨s, hsem, rfl⟩ := Option.map_eq_some_iff.mp hs
      exact h.mainSem hsem
  | thread i =>
      obtain ⟨hi, hs⟩ : i < d.size ∧ d.threadStep i = some d' := by
        simpa [TaskDispatcher.step] using hs
      exact h.threadStep hi hs
  | spurious i =>
      obtain ⟨hi, w, hw, rfl⟩ : i < d.size ∧ ∃ w, (d.workers i).spuriousWake = some w ∧
          d.setWorker i w = d' := by
        simpa [TaskDispatcher.step] using hs
      exact h.spurious hi hw
  | threadSem i a =>
      obtain ⟨hi, s, hsem, rfl⟩ : i < d.size ∧
          ∃ s, d.semaphore.step (.worker i) a = some s ∧ _ = d' := by
        simpa [TaskDispatcher.step] using hs
      exact h.threadSem hi hsem

/-- **The invariant of the dispatcher** holds at every moment of every run. -/
theorem inv_of_reachable [DecidableEq Task] {d : TaskDispatcher Task}
    (h : (system Task).Reachable d) : Inv d :=
  h.invariant Inv inv_create fun _ _ _ hd hs => hd.step hs

end TaskDispatcher

end ThreadedServer
