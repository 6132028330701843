import ThreadedServer.Semaphore
import ThreadedServer.Transition

/-!
# No permit is stranded

Any number of threads call `Wait` and `Signal` of one semaphore, as often as they like.
`counter_` is what the calls that have returned leave of the initial count, up to what
the thread that holds `lock_` has already done to it.

A waiter that is woken competes for `lock_` with newcomers, and a newcomer can take the
permit that the waiter was woken for; the waiter then blocks again.  So the counter
says nothing of a single waiter.  But as long as some waiter sleeps, there are never
more permits than waiters that were woken and have not gone through the test of the
counter since.
-/

namespace ThreadedServer

/-- A semaphore with what its threads have done so far. -/
structure SemaphoreRun (ι : Type*) where
  semaphore : Semaphore ι
  /-- the waiters that have been woken and have neither taken a permit nor blocked
  again -/
  woken : List ι
  /-- the calls of `Signal` that have returned -/
  signals : Nat
  /-- the calls of `Wait` that have returned -/
  waits : Nat

inductive SemaphoreLabel (ι : Type*)
  | wait (i : ι)
  | signal (i : ι)
  | act (i : ι) (a : SemAct ι)
  deriving DecidableEq, Repr

namespace SemaphoreRun

open Semaphore

variable {ι : Type*} [DecidableEq ι]

def create (count : Int) : SemaphoreRun ι := ⟨.create count, [], 0, 0⟩

/-- Who is woken after a step. -/
def nextWoken (s : SemaphoreRun ι) (i : ι) : SemAct ι → List ι
  | .wake (some j) => j :: s.woken
  | .wake none => s.woken
  | .spurious => i :: s.woken
  | .run =>
      match s.semaphore.pc i with
      | .waitBlock | .waitTake => s.woken.erase i
      | _ => s.woken

/-- A step of a thread inside the semaphore. -/
def act (s : SemaphoreRun ι) (i : ι) (a : SemAct ι) : Option (SemaphoreRun ι) :=
  (s.semaphore.step i a).map fun semaphore =>
    { semaphore
      woken := s.nextWoken i a
      signals := if a = .run ∧ s.semaphore.pc i = .signalUnlock then s.signals + 1
        else s.signals
      waits := if a = .run ∧ s.semaphore.pc i = .waitUnlock then s.waits + 1 else s.waits }

def step (s : SemaphoreRun ι) : SemaphoreLabel ι → Option (SemaphoreRun ι)
  | .wait i =>
      if s.semaphore.pc i = .out then some { s with semaphore := s.semaphore.wait i } else none
  | .signal i =>
      if s.semaphore.pc i = .out then some { s with semaphore := s.semaphore.signal i }
      else none
  | .act i a => s.act i a

def system (count : Int) : Transition.System (SemaphoreRun ι) (SemaphoreLabel ι) where
  init := create count
  step := step

/-! ## What a step does -/

/-- The lines of `Wait` and `Signal`. -/
inductive Acts (s : SemaphoreRun ι) (i : ι) : SemaphoreRun ι → Prop
  | lock (hl : s.semaphore.lock = none) (p p' : SemPc) (hp : s.semaphore.pc i = p)
      (hline : p = .waitLock ∧ p' = .waitTest ∨ p = .signalLock ∧ p' = .signalRaise ∨
        p = .waitCond ∧ i ∉ s.semaphore.waiters ∧ p' = .waitTest) :
      Acts s i { s with semaphore := { s.semaphore with lock := some i }.goto i p' }
  | short (hp : s.semaphore.pc i = .waitTest) (hc : s.semaphore.counter ≤ 0) :
      Acts s i { s with semaphore := s.semaphore.goto i .waitBlock }
  | enough (hp : s.semaphore.pc i = .waitTest) (hc : ¬ s.semaphore.counter ≤ 0) :
      Acts s i { s with semaphore := s.semaphore.goto i .waitTake }
  | block (hp : s.semaphore.pc i = .waitBlock) :
      Acts s i { s with
        semaphore := { s.semaphore with
          lock := none, waiters := i :: s.semaphore.waiters }.goto i .waitCond
        woken := s.woken.erase i }
  | take (hp : s.semaphore.pc i = .waitTake) :
      Acts s i { s with
        semaphore := { s.semaphore with
          counter := s.semaphore.counter - 1 }.goto i .waitUnlock
        woken := s.woken.erase i }
  | waitUnlock (hp : s.semaphore.pc i = .waitUnlock) :
      Acts s i { s with
        semaphore := { s.semaphore with lock := none }.goto i .out
        waits := s.waits + 1 }
  | raise (hp : s.semaphore.pc i = .signalRaise) :
      Acts s i { s with
        semaphore := { s.semaphore with
          counter := s.semaphore.counter + 1 }.goto i .signalCond }
  | wake (hp : s.semaphore.pc i = .signalCond) (j : ι) (hj : j ∈ s.semaphore.waiters) :
      Acts s i { s with
        semaphore := { s.semaphore with
          waiters := s.semaphore.waiters.erase j }.goto i .signalUnlock
        woken := j :: s.woken }
  | nobody (hp : s.semaphore.pc i = .signalCond) (hnil : s.semaphore.waiters = []) :
      Acts s i { s with semaphore := s.semaphore.goto i .signalUnlock }
  | signalUnlock (hp : s.semaphore.pc i = .signalUnlock) :
      Acts s i { s with
        semaphore := { s.semaphore with lock := none }.goto i .out
        signals := s.signals + 1 }
  | spurious (hi : i ∈ s.semaphore.waiters) :
      Acts s i { s with
        semaphore := { s.semaphore with waiters := s.semaphore.waiters.erase i }
        woken := i :: s.woken }

theorem act_acts {s t : SemaphoreRun ι} {i : ι} {a : SemAct ι} (h : s.act i a = some t) :
    Acts s i t := by
  obtain ⟨semaphore, hs, rfl⟩ := Option.map_eq_some_iff.mp h
  cases a with
  | run =>
      replace hs : s.semaphore.runStep i = some semaphore := hs
      unfold runStep at hs
      cases hpc : s.semaphore.pc i <;> simp only [hpc] at hs
      case out => cases hs
      case signalCond => cases hs
      case waitLock =>
        obtain ⟨hl, hs⟩ := Option.ite_none_right_eq_some.mp hs
        obtain rfl := Option.some.inj hs
        simpa [nextWoken, hpc] using Acts.lock hl _ .waitTest hpc (by simp)
      case signalLock =>
        obtain ⟨hl, hs⟩ := Option.ite_none_right_eq_some.mp hs
        obtain rfl := Option.some.inj hs
        simpa [nextWoken, hpc] using Acts.lock hl _ .signalRaise hpc (by simp)
      case waitCond =>
        obtain ⟨⟨hi, hl⟩, hs⟩ := Option.ite_none_right_eq_some.mp hs
        obtain rfl := Option.some.inj hs
        simpa [nextWoken, hpc] using Acts.lock hl _ .waitTest hpc (by simp [hi])
      case waitTest =>
        obtain rfl := Option.some.inj hs
        by_cases hc : s.semaphore.counter ≤ 0
        · simpa [nextWoken, hpc, hc] using Acts.short hpc hc
        · simpa [nextWoken, hpc, hc] using Acts.enough hpc hc
      case waitBlock =>
        obtain rfl := Option.some.inj hs
        simpa [nextWoken, hpc] using Acts.block hpc
      case waitTake =>
        obtain rfl := Option.some.inj hs
        simpa [nextWoken, hpc] using Acts.take hpc
      case waitUnlock =>
        obtain rfl := Option.some.inj hs
        simpa [nextWoken, hpc] using Acts.waitUnlock hpc
      case signalRaise =>
        obtain rfl := Option.some.inj hs
        simpa [nextWoken, hpc] using Acts.raise hpc
      case signalUnlock =>
        obtain rfl := Option.some.inj hs
        simpa [nextWoken, hpc] using Acts.signalUnlock hpc
  | wake j =>
      cases j with
      | none =>
          obtain ⟨⟨hpc, hnil⟩, hs⟩ := Option.ite_none_right_eq_some.mp hs
          obtain rfl := Option.some.inj hs
          simpa [nextWoken] using Acts.nobody hpc hnil
      | some j =>
          obtain ⟨⟨hpc, hj⟩, hs⟩ := Option.ite_none_right_eq_some.mp hs
          obtain rfl := Option.some.inj hs
          simpa [nextWoken] using Acts.wake hpc j hj
  | spurious =>
      obtain ⟨hi, hs⟩ := Option.ite_none_right_eq_some.mp hs
      obtain rfl := Option.some.inj hs
      simpa [nextWoken] using Acts.spurious hi

/-! ## The invariant -/

/-- What a call has done to the counter at a control point, before it returns. -/
def effect : SemPc → Int
  | .waitUnlock => -1
  | .signalCond | .signalUnlock => 1
  | _ => 0

/-- A permit has been added and no waiter has been woken for it yet. -/
def announced : SemPc → Int
  | .signalCond => 1
  | _ => 0

/-- A value that the control point of the thread with the mutex has. -/
def held (f : SemPc → Int) (s : Semaphore ι) : Int :=
  match s.lock with
  | some i => f (s.pc i)
  | none => 0

/-- A thread sleeps or is woken only at the places for it. -/
def Placed (s : SemaphoreRun ι) (i : ι) : Prop :=
  match s.semaphore.pc i with
  | .waitCond => i ∈ s.woken ↔ i ∉ s.semaphore.waiters
  | .waitTest | .waitTake => i ∉ s.semaphore.waiters
  | .waitBlock => i ∉ s.semaphore.waiters ∧ s.semaphore.counter ≤ 0
  | _ => i ∉ s.semaphore.waiters ∧ i ∉ s.woken

structure Inv (count : Int) (s : SemaphoreRun ι) : Prop where
  sound : s.semaphore.Sound
  ledger : s.semaphore.counter = count + s.signals - s.waits + held effect s.semaphore
  waiting : s.semaphore.waiters.Nodup
  woken : s.woken.Nodup
  placed : ∀ i, Placed s i
  bound : s.semaphore.waiters ≠ [] →
    s.semaphore.counter ≤ s.woken.length + held announced s.semaphore

section Steps

variable {count : Int} {s t : SemaphoreRun ι} {i j : ι}

omit [DecidableEq ι] in
theorem inv_create (h : 0 ≤ count) : Inv count (create count : SemaphoreRun ι) where
  sound := sound_create h
  ledger := by simp [create, Semaphore.create, held]
  waiting := List.nodup_nil
  woken := List.nodup_nil
  placed := by simp [create, Semaphore.create, Placed]
  bound := by simp [create, Semaphore.create]

omit [DecidableEq ι] in
/-- The thread at a line under the mutex has it. -/
theorem Inv.lock_eq (h : Inv count s) (hp : Holds (s.semaphore.pc i)) :
    s.semaphore.lock = some i :=
  (h.sound.lock i).mpr hp

omit [DecidableEq ι] in
/-- Only one thread is at a line under the mutex. -/
theorem Inv.not_holds (h : Inv count s) (hp : Holds (s.semaphore.pc i)) (hj : j ≠ i) :
    ¬ Holds (s.semaphore.pc j) := by
  intro hj'
  have heq := (h.lock_eq hp).symm.trans (h.lock_eq hj')
  exact hj (Option.some.inj heq).symm

theorem Inv.ledger_step (h : Inv count s) (hacts : Acts s i t) :
    t.semaphore.counter = count + t.signals - t.waits + held effect t.semaphore := by
  have hledger := h.ledger
  cases hacts with
  | lock hl p p' hp hline =>
      rcases hline with ⟨-, rfl⟩ | ⟨-, rfl⟩ | ⟨-, -, rfl⟩ <;>
        simpa [held, hl, effect] using hledger
  | spurious hi => exact hledger
  | short hp | enough hp | block hp | take hp | waitUnlock hp | raise hp | wake hp
  | nobody hp | signalUnlock hp =>
      have hl := h.lock_eq (by rw [hp]; trivial)
      simp only [held, hl, hp, effect] at hledger
      simp [held, hl, effect]
      omega

@[simp] theorem goto_waiters (s : Semaphore ι) (i : ι) (p : SemPc) :
    (s.goto i p).waiters = s.waiters := rfl

omit [DecidableEq ι] in
/-- Only a thread inside `pthread_cond_wait` is a waiter. -/
theorem Placed.waiter (h : Placed s i) (hi : i ∈ s.semaphore.waiters) :
    s.semaphore.pc i = .waitCond := by
  rw [Placed] at h
  cases hp : s.semaphore.pc i <;> simp_all

omit [DecidableEq ι] in
theorem Placed.not_woken (h : Placed s i) (hi : i ∈ s.semaphore.waiters) : i ∉ s.woken := by
  have hpc := h.waiter hi
  rw [Placed, hpc] at h
  exact fun hw => h.mp hw hi

/-- A waiter that is woken has its place among the woken ones. -/
theorem Inv.placed_woken (h : Inv count s) (hi : i ∈ s.semaphore.waiters)
    (hpc : t.semaphore.pc i = s.semaphore.pc i)
    (hwaiting : t.semaphore.waiters = s.semaphore.waiters.erase i)
    (hwoken : t.woken = i :: s.woken) : Placed t i := by
  rw [Placed, hpc, (h.placed i).waiter hi, hwaiting, hwoken]
  simp [h.waiting.mem_erase_iff]

omit [DecidableEq ι] in
/-- A thread to which nothing happens stays in its place. -/
theorem Placed.frame (h : Placed s j) (hpc : t.semaphore.pc j = s.semaphore.pc j)
    (hwaiting : j ∈ t.semaphore.waiters ↔ j ∈ s.semaphore.waiters)
    (hwoken : j ∈ t.woken ↔ j ∈ s.woken)
    (hcounter : s.semaphore.pc j = .waitBlock → t.semaphore.counter = s.semaphore.counter) :
    Placed t j := by
  rw [Placed] at h ⊢
  rw [hpc, hwaiting, hwoken]
  cases hp : s.semaphore.pc j with
  | waitBlock =>
      rw [hp] at h
      rw [hcounter hp]
      exact h
  | _ =>
      rw [hp] at h
      exact h

/-- The other threads stay in their places, except for a waiter that is woken. -/
theorem Inv.placed_other (h : Inv count s) (hacts : Acts s i t) (hj : j ≠ i) : Placed t j := by
  have hplaced := h.placed j
  have hblock (hi : Holds (s.semaphore.pc i)) : s.semaphore.pc j ≠ .waitBlock := by
    intro hp
    exact h.not_holds hi hj (by rw [hp]; trivial)
  cases hacts with
  | lock | short | enough | waitUnlock | nobody | signalUnlock =>
      exact hplaced.frame (by simp [hj]) Iff.rfl Iff.rfl fun _ => rfl
  | block hp =>
      refine hplaced.frame (by simp [hj]) ?_ (List.mem_erase_of_ne hj) fun _ => rfl
      exact List.mem_cons.trans (or_iff_right hj)
  | take hp =>
      refine hplaced.frame (by simp [hj]) Iff.rfl (List.mem_erase_of_ne hj) ?_
      exact fun hp' => absurd hp' (hblock (by rw [hp]; trivial))
  | raise hp =>
      refine hplaced.frame (by simp [hj]) Iff.rfl Iff.rfl ?_
      exact fun hp' => absurd hp' (hblock (by rw [hp]; trivial))
  | spurious hi =>
      refine hplaced.frame rfl (List.mem_erase_of_ne hj) ?_ fun _ => rfl
      exact List.mem_cons.trans (or_iff_right hj)
  | wake hp k hk =>
      by_cases hjk : j = k
      · subst j
        exact h.placed_woken hk (by simp [hj]) rfl rfl
      · refine hplaced.frame (by simp [hj]) (List.mem_erase_of_ne hjk) ?_ fun _ => rfl
        exact List.mem_cons.trans (or_iff_right hjk)

theorem Inv.placed_self (h : Inv count s) (hacts : Acts s i t) : Placed t i := by
  have hplaced := h.placed i
  cases hacts with
  | spurious hi => exact h.placed_woken hi rfl rfl rfl
  | lock hl p p' hp hline =>
      rw [Placed, hp] at hplaced
      rw [Placed]
      rcases hline with ⟨rfl, rfl⟩ | ⟨rfl, rfl⟩ | ⟨rfl, hi, rfl⟩
      · simpa using hplaced.1
      · simpa using hplaced
      · simpa using hi
  | wake hp k hk =>
      have hne : i ≠ k := by
        rintro rfl
        rw [(h.placed i).waiter hk] at hp
        cases hp
      rw [Placed, hp] at hplaced
      simpa [Placed, hne, List.mem_erase_of_ne hne] using hplaced
  | short hp | enough hp | block hp | take hp | waitUnlock hp | raise hp | nobody hp
  | signalUnlock hp =>
      rw [Placed, hp] at hplaced
      simp_all [Placed, h.woken.mem_erase_iff]

/-- No permit is added without a waiter woken for it, as long as there is one. -/
theorem Inv.bound_step (h : Inv count s) (hacts : Acts s i t)
    (hne : t.semaphore.waiters ≠ []) :
    t.semaphore.counter ≤ t.woken.length + held announced t.semaphore := by
  have hbound := h.bound
  have hplaced := h.placed i
  cases hacts with
  | lock hl p p' hp hline =>
      rcases hline with ⟨-, rfl⟩ | ⟨-, rfl⟩ | ⟨-, -, rfl⟩ <;>
        simpa [held, hl, announced] using hbound hne
  | spurious hi =>
      have hle := hbound (List.ne_nil_of_mem hi)
      show s.semaphore.counter ≤ (s.woken.length + 1 : Nat) + held announced s.semaphore
      omega
  | block hp =>
      -- the waiter has found no permit
      rw [Placed, hp] at hplaced
      have hcounter := hplaced.2
      simp [held]
      omega
  | take hp =>
      have hl := h.lock_eq (by rw [hp]; trivial)
      have hle := hbound hne
      have hlen : s.woken.length ≤ (s.woken.erase i).length + 1 := by
        rw [List.length_erase]
        split <;> omega
      simp only [held, hl, hp, announced] at hle
      simp [held, hl, announced]
      omega
  | wake hp k hk =>
      have hl := h.lock_eq (by rw [hp]; trivial)
      have hle := hbound (List.ne_nil_of_mem hk)
      simp only [held, hl, hp, announced] at hle
      simp [held, hl, announced]
      omega
  | nobody hp hnil => exact absurd hnil hne
  | short hp | enough hp | waitUnlock hp | raise hp | signalUnlock hp =>
      have hl := h.lock_eq (by rw [hp]; trivial)
      have hle := hbound hne
      simp only [held, hl, hp, announced] at hle
      simp [held, hl, announced]
      omega

theorem Inv.nodup_step (h : Inv count s) (hacts : Acts s i t) :
    t.semaphore.waiters.Nodup ∧ t.woken.Nodup := by
  have hplaced := h.placed i
  cases hacts with
  | lock | short | enough | waitUnlock | raise | nobody | signalUnlock =>
      exact ⟨h.waiting, h.woken⟩
  | block hp =>
      rw [Placed, hp] at hplaced
      exact ⟨List.nodup_cons.mpr ⟨hplaced.1, h.waiting⟩, h.woken.erase i⟩
  | take hp => exact ⟨h.waiting, h.woken.erase i⟩
  | wake hp k hk =>
      exact ⟨h.waiting.erase k, List.nodup_cons.mpr ⟨(h.placed k).not_woken hk, h.woken⟩⟩
  | spurious hi =>
      exact ⟨h.waiting.erase i, List.nodup_cons.mpr ⟨hplaced.not_woken hi, h.woken⟩⟩

/-- Every line of every thread keeps the invariant. -/
theorem Inv.act (h : Inv count s) {a : SemAct ι} (hs : s.act i a = some t) : Inv count t := by
  have hacts := act_acts hs
  obtain ⟨semaphore, hsem, rfl⟩ := Option.map_eq_some_iff.mp hs
  obtain ⟨hwaiting, hwoken⟩ := h.nodup_step hacts
  refine ⟨h.sound.step hsem, h.ledger_step hacts, hwaiting, hwoken, ?_, h.bound_step hacts⟩
  intro j
  by_cases hj : j = i
  · rw [hj]
    exact h.placed_self hacts
  · exact h.placed_other hacts hj

/-- So does a thread that calls one of the functions. -/
theorem Inv.call (h : Inv count s) (hout : s.semaphore.pc i = .out) {p : SemPc}
    (hp : p = .waitLock ∨ p = .signalLock) :
    Inv count { s with semaphore := s.semaphore.goto i p } := by
  have hheld (f : SemPc → Int) : held f (s.semaphore.goto i p) = held f s.semaphore := by
    cases hl : s.semaphore.lock with
    | none => simp [held, hl]
    | some k =>
        have hne : k ≠ i := by
          rintro rfl
          have hholds := (h.sound.lock k).mp hl
          rw [hout] at hholds
          exact hholds
        simp [held, hl, hne]
  have hsound : (s.semaphore.goto i p).Sound := by
    apply h.sound.goto_out hout
    rcases hp with rfl | rfl <;> exact id
  refine ⟨hsound, ?_, h.waiting, h.woken, ?_, ?_⟩
  · rw [hheld]
    exact h.ledger
  · intro j
    have hplaced := h.placed j
    by_cases hj : j = i
    · subst j
      rw [Placed, hout] at hplaced
      rcases hp with rfl | rfl <;> simpa [Placed] using hplaced
    · exact hplaced.frame (by simp [hj]) Iff.rfl Iff.rfl fun _ => rfl
  · rw [hheld]
    exact h.bound

end Steps

theorem inv_of_reachable {count : Int} (hcount : 0 ≤ count) {s : SemaphoreRun ι}
    (h : (system count).Reachable s) : Inv count s := by
  apply h.invariant (Inv count) (inv_create hcount)
  intro s l t hinv hs
  cases l with
  | wait i =>
      obtain ⟨hout, hs⟩ := Option.ite_none_right_eq_some.mp hs
      obtain rfl := Option.some.inj hs
      exact hinv.call hout (Or.inl rfl)
  | signal i =>
      obtain ⟨hout, hs⟩ := Option.ite_none_right_eq_some.mp hs
      obtain rfl := Option.some.inj hs
      exact hinv.call hout (Or.inr rfl)
  | act i a => exact hinv.act hs

end SemaphoreRun

end ThreadedServer
