import Mathlib.Logic.Function.Basic
import Mathlib.Tactic.Common

/-!
# The counting semaphore

`Semaphore.cc` guards an integer with a mutex `lock_` and a condition variable
`counter_cond_`.  Any number of threads may be inside `Wait` and `Signal` at
the same time; each line of the two functions is one atomic step.

A thread blocked on `counter_cond_` is in `waiters` until it is signalled or
returns spuriously; it then competes for `lock_` with every other thread.
`pthread_cond_signal` wakes one waiter, of the system's choice, and is
forgotten when there is none.
-/

namespace ThreadedServer

/-- Control points of `Semaphore::Wait` and `Semaphore::Signal`. -/
inductive SemPc
  /-- in neither function -/
  | out
  /-- `Wait`: about to lock -/
  | waitLock
  /-- `Wait`: about to test `counter_ <= 0` -/
  | waitTest
  /-- `Wait`: about to call `pthread_cond_wait` -/
  | waitBlock
  /-- `Wait`: inside `pthread_cond_wait` -/
  | waitCond
  /-- `Wait`: about to decrement -/
  | waitTake
  /-- `Wait`: about to unlock -/
  | waitUnlock
  /-- `Signal`: about to lock -/
  | signalLock
  /-- `Signal`: about to increment -/
  | signalRaise
  /-- `Signal`: about to call `pthread_cond_signal` -/
  | signalCond
  /-- `Signal`: about to unlock -/
  | signalUnlock
  deriving DecidableEq, Repr

/-- A semaphore shared by threads with names in `ι`. -/
structure Semaphore (ι : Type*) where
  lock : Option ι
  counter : Int
  waiters : List ι
  pc : ι → SemPc

/-- What a thread inside the semaphore does next. -/
inductive SemAct (ι : Type*)
  /-- its next line -/
  | run
  /-- `pthread_cond_signal` wakes this waiter, or none -/
  | wake (j : Option ι)
  /-- it returns spuriously from `pthread_cond_wait` -/
  | spurious
  deriving DecidableEq, Repr

namespace Semaphore

variable {ι : Type*}

/-- The constructor `Semaphore(count)`. -/
def create (count : Int) : Semaphore ι where
  lock := none
  counter := count
  waiters := []
  pc := fun _ => .out

variable [DecidableEq ι]

/-- Thread `i` moves to control point `p`. -/
def goto (s : Semaphore ι) (i : ι) (p : SemPc) : Semaphore ι :=
  { s with pc := Function.update s.pc i p }

/-- Thread `i` calls `Wait()`. -/
def wait (s : Semaphore ι) (i : ι) : Semaphore ι := s.goto i .waitLock

/-- Thread `i` calls `Signal()`. -/
def signal (s : Semaphore ι) (i : ι) : Semaphore ι := s.goto i .signalLock

/-- The next line of thread `i`; `none` if it has to wait. -/
def runStep (s : Semaphore ι) (i : ι) : Option (Semaphore ι) :=
  match s.pc i with
  | .out => none
  | .waitLock =>
      if s.lock = none then some ({ s with lock := some i }.goto i .waitTest) else none
  | .waitTest => some (s.goto i (if s.counter ≤ 0 then .waitBlock else .waitTake))
  | .waitBlock =>
      some ({ s with lock := none, waiters := i :: s.waiters }.goto i .waitCond)
  | .waitCond =>
      if i ∉ s.waiters ∧ s.lock = none then
        some ({ s with lock := some i }.goto i .waitTest)
      else none
  | .waitTake => some ({ s with counter := s.counter - 1 }.goto i .waitUnlock)
  | .waitUnlock => some ({ s with lock := none }.goto i .out)
  | .signalLock =>
      if s.lock = none then some ({ s with lock := some i }.goto i .signalRaise) else none
  | .signalRaise => some ({ s with counter := s.counter + 1 }.goto i .signalCond)
  | .signalCond => none
  | .signalUnlock => some ({ s with lock := none }.goto i .out)

/-- A step of thread `i` inside the semaphore. -/
def step (s : Semaphore ι) (i : ι) : SemAct ι → Option (Semaphore ι)
  | .run => s.runStep i
  | .wake none =>
      if s.pc i = .signalCond ∧ s.waiters = [] then some (s.goto i .signalUnlock) else none
  | .wake (some j) =>
      if s.pc i = .signalCond ∧ j ∈ s.waiters then
        some ({ s with waiters := s.waiters.erase j }.goto i .signalUnlock)
      else none
  | .spurious =>
      if i ∈ s.waiters then some { s with waiters := s.waiters.erase i } else none

/-- The control points at which a thread holds `lock_`. -/
def Holds : SemPc → Prop
  | .waitTest | .waitBlock | .waitTake | .waitUnlock => True
  | .signalRaise | .signalCond | .signalUnlock => True
  | _ => False

/-- What one step does to the control point of its thread, to the mutex and to
the counter. -/
inductive Move (i : ι) :
    SemPc → Option ι → Int → SemPc → Option ι → Int → Prop
  | waitLock {c} : Move i .waitLock none c .waitTest (some i) c
  | enough {l c} (h : 0 < c) : Move i .waitTest l c .waitTake l c
  | short {l c} (h : c ≤ 0) : Move i .waitTest l c .waitBlock l c
  | block {l c} : Move i .waitBlock l c .waitCond none c
  | relock {c} : Move i .waitCond none c .waitTest (some i) c
  | take {l c} : Move i .waitTake l c .waitUnlock l (c - 1)
  | waitUnlock {l c} : Move i .waitUnlock l c .out none c
  | signalLock {c} : Move i .signalLock none c .signalRaise (some i) c
  | raise {l c} : Move i .signalRaise l c .signalCond l (c + 1)
  | signalCond {l c} : Move i .signalCond l c .signalUnlock l c
  | signalUnlock {l c} : Move i .signalUnlock l c .out none c
  | spurious {p l c} : Move i p l c p l c

@[simp] theorem goto_pc (s : Semaphore ι) (i j : ι) (p : SemPc) :
    (s.goto i p).pc j = if j = i then p else s.pc j := by
  simp [goto, Function.update_apply]

@[simp] theorem goto_lock (s : Semaphore ι) (i : ι) (p : SemPc) :
    (s.goto i p).lock = s.lock := rfl

@[simp] theorem goto_counter (s : Semaphore ι) (i : ι) (p : SemPc) :
    (s.goto i p).counter = s.counter := rfl

/-- A step is a move of its own thread; the other threads stay where they are. -/
theorem step_move {s s' : Semaphore ι} {i : ι} {a : SemAct ι}
    (h : s.step i a = some s') :
    Move i (s.pc i) s.lock s.counter (s'.pc i) s'.lock s'.counter ∧
      ∀ j, j ≠ i → s'.pc j = s.pc j := by
  cases a with
  | run =>
      replace h : s.runStep i = some s' := h
      unfold runStep at h
      cases hpc : s.pc i <;> simp only [hpc] at h
      case out => cases h
      case signalCond => cases h
      case waitLock =>
        obtain ⟨hl, rfl⟩ : s.lock = none ∧ _ = s' := by simpa using h
        refine ⟨?_, fun j hj => by simp [hj]⟩
        simpa [hl] using Move.waitLock
      case signalLock =>
        obtain ⟨hl, rfl⟩ : s.lock = none ∧ _ = s' := by simpa using h
        refine ⟨?_, fun j hj => by simp [hj]⟩
        simpa [hl] using Move.signalLock
      case waitCond =>
        obtain ⟨⟨_, hl⟩, rfl⟩ : (i ∉ s.waiters ∧ s.lock = none) ∧ _ = s' := by
          simpa using h
        refine ⟨?_, fun j hj => by simp [hj]⟩
        simpa [hl] using Move.relock
      case waitTest =>
        obtain rfl := Option.some.inj h
        refine ⟨?_, fun j hj => by simp [hj]⟩
        by_cases hc : s.counter ≤ 0
        · simpa [hc] using Move.short hc
        · simpa [hc] using Move.enough (by omega)
      all_goals
        obtain rfl := Option.some.inj h
        refine ⟨?_, fun j hj => by simp [hj]⟩
        simp only [goto_pc, if_true, goto_lock, goto_counter]
        constructor
  | wake j =>
      cases j with
      | none =>
          obtain ⟨⟨hpc, -⟩, rfl⟩ : (s.pc i = .signalCond ∧ s.waiters = []) ∧ _ = s' := by
            simpa [step] using h
          refine ⟨?_, fun j hj => by simp [hj]⟩
          simpa [hpc] using Move.signalCond
      | some k =>
          obtain ⟨⟨hpc, -⟩, rfl⟩ : (s.pc i = .signalCond ∧ k ∈ s.waiters) ∧ _ = s' := by
            simpa [step] using h
          refine ⟨?_, fun j hj => by simp [hj]⟩
          simpa [hpc] using Move.signalCond
  | spurious =>
      obtain ⟨-, rfl⟩ : i ∈ s.waiters ∧ _ = s' := by simpa [step] using h
      exact ⟨Move.spurious, fun j _ => rfl⟩

/-- The invariant of the semaphore: `lock_` excludes, and `counter_` never
falls below zero. -/
structure Sound (s : Semaphore ι) : Prop where
  lock : ∀ i, s.lock = some i ↔ Holds (s.pc i)
  counter : 0 ≤ s.counter
  take : ∀ i, s.pc i = .waitTake → 0 < s.counter

omit [DecidableEq ι] in
theorem sound_create {count : Int} (h : 0 ≤ count) :
    Sound (create count : Semaphore ι) := by
  constructor <;> simp [create, Holds, h]

/-- A thread outside the semaphore may call one of its functions. -/
theorem Sound.goto_out {s : Semaphore ι} (h : Sound s) {i : ι} (hi : s.pc i = .out)
    {p : SemPc} (hp : ¬ Holds p) : Sound (s.goto i p) := by
  have hlock := h.lock i
  refine ⟨fun j => ?_, h.counter, fun j hj => ?_⟩
  · by_cases hji : j = i
    · subst j
      simp_all [Holds]
    · simpa [hji] using h.lock j
  · by_cases hji : j = i
    · subst j
      simp only [goto_pc, if_true] at hj
      simp [hj, Holds] at hp
    · exact h.take j (by simpa [hji] using hj)

section Moves

variable {i : ι} {p p' : SemPc} {l l' : Option ι} {c c' : Int}

omit [DecidableEq ι] in
/-- A thread takes and releases the mutex as its control point says. -/
theorem Move.lock_iff (h : Move i p l c p' l' c') (hl : l = some i ↔ Holds p) :
    l' = some i ↔ Holds p' := by
  cases h <;> simp_all [Holds]

omit [DecidableEq ι] in
/-- A thread never takes the mutex away from another one. -/
theorem Move.lock_other (h : Move i p l c p' l' c') (hl : l = some i ↔ Holds p)
    {j : ι} (hj : j ≠ i) : l' = some j ↔ l = some j := by
  cases h <;> simp_all [Holds, eq_comm]

omit [DecidableEq ι] in
/-- The counter is decremented only after it was found positive. -/
theorem Move.counter_nonneg (h : Move i p l c p' l' c') (hc : 0 ≤ c)
    (ht : p = .waitTake → 0 < c) : 0 ≤ c' ∧ (p' = .waitTake → 0 < c') := by
  cases h <;> simp_all <;> omega

omit [DecidableEq ι] in
/-- A thread without the mutex leaves the counter alone. -/
theorem Move.counter_eq (h : Move i p l c p' l' c') (hp : ¬ Holds p) : c' = c := by
  cases h <;> simp_all [Holds]

end Moves

/-- Every step of every thread keeps the invariant. -/
theorem Sound.step {s s' : Semaphore ι} (h : Sound s) {i : ι} {a : SemAct ι}
    (hs : s.step i a = some s') : Sound s' := by
  obtain ⟨hmove, hother⟩ := step_move hs
  obtain ⟨hlock, hcounter, htake⟩ := h
  obtain ⟨hcounter', htake'⟩ := hmove.counter_nonneg hcounter (htake i)
  refine ⟨fun j => ?_, hcounter', fun j hj => ?_⟩
  · by_cases hji : j = i
    · subst j
      exact hmove.lock_iff (hlock i)
    · rw [hother j hji, hmove.lock_other (hlock i) hji]
      exact hlock j
  · by_cases hji : j = i
    · subst j
      exact htake' hj
    · rw [hother j hji] at hj
      -- `j` holds the mutex, so that this thread does not
      have hjl : s.lock = some j := (hlock j).mpr (by simp [hj, Holds])
      have hi : ¬ Holds (s.pc i) := by
        intro hi
        have := hjl.symm.trans ((hlock i).mpr hi)
        exact hji (Option.some.inj this)
      rw [hmove.counter_eq hi]
      exact htake j hj

/-- The counter changes only at two lines. -/
theorem step_counter {s s' : Semaphore ι} {i : ι} {a : SemAct ι}
    (hs : s.step i a = some s') :
    a = .run ∧ s.pc i = .signalRaise ∧ s'.pc i = .signalCond ∧ s'.counter = s.counter + 1 ∨
      a = .run ∧ s.pc i = .waitTake ∧ s'.pc i = .waitUnlock ∧ s'.counter = s.counter - 1 ∨
      ¬ (a = .run ∧ (s.pc i = .signalRaise ∨ s.pc i = .waitTake)) ∧
        s'.counter = s.counter := by
  by_cases hline : a = .run ∧ (s.pc i = .signalRaise ∨ s.pc i = .waitTake)
  · obtain ⟨rfl, hpc | hpc⟩ := hline
    · obtain rfl : _ = s' := by simpa [step, runStep, hpc] using hs
      exact Or.inl ⟨rfl, hpc, by simp, rfl⟩
    · obtain rfl : _ = s' := by simpa [step, runStep, hpc] using hs
      exact Or.inr (Or.inl ⟨rfl, hpc, by simp, rfl⟩)
  · refine Or.inr (Or.inr ⟨hline, ?_⟩)
    cases a with
    | run =>
        replace hs : s.runStep i = some s' := hs
        unfold runStep at hs
        cases hpc : s.pc i <;> simp_all
        case waitLock | waitCond | signalLock => simp [← hs.2]
        all_goals simp [← hs]
    | wake j =>
        cases j <;> simp [step] at hs <;> simp [← hs.2]
    | spurious =>
        obtain ⟨-, rfl⟩ : i ∈ s.waiters ∧ _ = s' := by simpa [step] using hs
        rfl

end Semaphore

end ThreadedServer
