import ThreadedServer.Wakeups

/-!
# The end of a DecodeWorker

A `DecodeWorker` is a `BackgroundWorker`, and its destructor runs in the order of the
language: first the body of `~DecodeWorker`, which deletes the decoder and the two
feature objects, and then `~BackgroundWorker`, which locks the mutex and joins the
thread.  The waiting comes after the release.

From the end of the body on the object is a `BackgroundWorker` only, whose `Work()` is
pure virtual; a call of it ends the program.
-/

namespace ThreadedServer

open Transition

/-- The members that `~DecodeWorker` deletes. -/
inductive DecodeResource
  | decoder
  | mfcc
  | cmvn
  deriving DecidableEq, Repr

/-- A `DecodeWorker` with the thread that owns it.  `body` is the next line of
`~DecodeWorker` while that runs; `late` says that a step of `Work()` was taken after
something had been deleted, and `aborted` that `Work()` was called where it is pure
virtual. -/
structure DecodeWorkerLife (Task : Type*) where
  inner : OwnedWorker Task
  body : Option DecodeResource
  deleted : List DecodeResource
  late : Bool
  aborted : Bool
  deriving DecidableEq, Repr

/-- The steps of the two threads. -/
inductive LifeLabel (Task : Type*)
  /-- the next step of `worker_func` -/
  | thread
  /-- a step inside `Work()` -/
  | work
  /-- a spurious return from `pthread_cond_wait` -/
  | wake
  /-- the owner calls `TryAssign(t)` -/
  | tryAssign (t : Task)
  /-- the owner deletes the worker -/
  | destroy
  /-- the next step of the owner inside its call -/
  | owner
  deriving DecidableEq, Repr

namespace DecodeWorkerLife

variable {Task : Type*}

/-- Something that `Work()` uses has been deleted. -/
def released (s : DecodeWorkerLife Task) : Bool := !s.deleted.isEmpty

variable [DecidableEq Task]

/-- A step of the worker's thread; the call of `Work()` and its return are steps of
`Work()`. -/
def threadStep (s : DecodeWorkerLife Task) : Option (DecodeWorkerLife Task) :=
  if s.inner.worker.pc.callsWork && s.inner.owner.inBase then some { s with aborted := true }
  else
    (s.inner.step .thread).map fun inner =>
      { s with
        inner
        late := s.late ||
          ((s.inner.worker.pc.callsWork || s.inner.worker.pc.insideWork) && s.released) }

/-- A line of `~DecodeWorker`; behind the last one `~BackgroundWorker` begins. -/
def bodyStep (s : DecodeWorkerLife Task) : DecodeResource → Option (DecodeWorkerLife Task)
  | .decoder => some { s with deleted := s.deleted ++ [.decoder], body := some .mfcc }
  | .mfcc => some { s with deleted := s.deleted ++ [.mfcc], body := some .cmvn }
  | .cmvn =>
      (s.inner.step .destroy).map fun inner =>
        { s with inner, deleted := s.deleted ++ [.cmvn], body := none }

/-- A step of an object that has not brought the program to its end. -/
def liveStep (s : DecodeWorkerLife Task) : LifeLabel Task → Option (DecodeWorkerLife Task)
  | .thread => s.threadStep
  | .work =>
      if s.inner.worker.pc.insideWork then some { s with late := s.late || s.released }
      else none
  | .wake => (s.inner.step .wake).map fun inner => { s with inner }
  | .tryAssign t =>
      match s.body with
      | none => (s.inner.step (.tryAssign t)).map fun inner => { s with inner }
      | some _ => none
  | .destroy =>
      match s.body, s.inner.owner with
      | none, .idle => some { s with body := some .decoder }
      | _, _ => none
  | .owner =>
      match s.body with
      | none => (s.inner.step .owner).map fun inner => { s with inner }
      | some r => s.bodyStep r

def step (s : DecodeWorkerLife Task) (l : LifeLabel Task) : Option (DecodeWorkerLife Task) :=
  if s.aborted then none else s.liveStep l

def create : DecodeWorkerLife Task where
  inner := .create
  body := none
  deleted := []
  late := false
  aborted := false

def system (Task : Type*) [DecidableEq Task] :
    System (DecodeWorkerLife Task) (LifeLabel Task) where
  init := create
  step := step

/-! ## The worker inside -/

section Inner

variable {s t : DecodeWorkerLife Task} {l : LifeLabel Task}

theorem step_live (h : s.step l = some t) : s.aborted = false ∧ s.liveStep l = some t := by
  rw [step] at h
  obtain ⟨hlive, h⟩ := Option.ite_none_left_eq_some.mp h
  exact ⟨by simpa using hlive, h⟩

/-- What a step of the thread can be. -/
theorem threadStep_cases (h : s.threadStep = some t) :
    s.inner.worker.pc.callsWork = true ∧ s.inner.owner.inBase = true ∧
        t = { s with aborted := true } ∨
      ∃ inner, s.inner.step .thread = some inner ∧
        t = { s with
          inner
          late := s.late ||
            ((s.inner.worker.pc.callsWork || s.inner.worker.pc.insideWork) && s.released) } := by
  rw [threadStep] at h
  split at h
  case isTrue hcall =>
    obtain rfl := Option.some.inj h
    rw [Bool.and_eq_true] at hcall
    exact Or.inl ⟨hcall.1, hcall.2, rfl⟩
  case isFalse =>
    obtain ⟨inner, hinner, rfl⟩ := Option.map_eq_some_iff.mp h
    exact Or.inr ⟨inner, hinner, rfl⟩

/-- A step takes a step of the worker inside, or leaves it alone. -/
theorem step_inner (h : s.step l = some t) :
    t.inner = s.inner ∨ ∃ a, s.inner.step a = some t.inner := by
  obtain ⟨-, h⟩ := step_live h
  cases l with
  | thread =>
      rcases threadStep_cases h with ⟨-, -, rfl⟩ | ⟨inner, hinner, rfl⟩
      · exact Or.inl rfl
      · exact Or.inr ⟨.thread, hinner⟩
  | work =>
      obtain ⟨-, h⟩ := Option.ite_none_right_eq_some.mp h
      obtain rfl := Option.some.inj h
      exact Or.inl rfl
  | wake =>
      obtain ⟨inner, hinner, rfl⟩ := Option.map_eq_some_iff.mp h
      exact Or.inr ⟨.wake, hinner⟩
  | tryAssign u =>
      rw [liveStep] at h
      split at h
      case h_1 =>
        obtain ⟨inner, hinner, rfl⟩ := Option.map_eq_some_iff.mp h
        exact Or.inr ⟨.tryAssign u, hinner⟩
      case h_2 => cases h
  | destroy =>
      rw [liveStep] at h
      split at h
      case h_1 =>
        obtain rfl := Option.some.inj h
        exact Or.inl rfl
      case h_2 => cases h
  | owner =>
      rw [liveStep] at h
      split at h
      case h_1 =>
        obtain ⟨inner, hinner, rfl⟩ := Option.map_eq_some_iff.mp h
        exact Or.inr ⟨.owner, hinner⟩
      case h_2 r _ =>
        cases r with
        | decoder | mfcc =>
            obtain rfl := Option.some.inj h
            exact Or.inl rfl
        | cmvn =>
            obtain ⟨inner, hinner, rfl⟩ := Option.map_eq_some_iff.mp h
            exact Or.inr ⟨.destroy, hinner⟩

/-- The worker inside goes through a run of its own. -/
theorem inner_reachable (h : (system Task).Reachable s) :
    (OwnedWorker.system Task).Reachable s.inner := by
  apply h.invariant fun s => (OwnedWorker.system Task).Reachable s.inner
  · exact System.ReachableVia.init
  · intro s l t hinner hs
    rcases step_inner hs with heq | ⟨a, ha⟩
    · rwa [heq]
    · exact System.ReachableVia.step hinner trivial ha

end Inner

/-! ## When the destructor is called -/

/-- The worker has no task, or `Work()` has returned for the one it has. -/
def Settled (w : BackgroundWorker Task) : Prop :=
  match w.pc with
  | .take | .clear _ => True
  | _ => w.task = none

instance (w : BackgroundWorker Task) : Decidable (Settled w) :=
  match h : w.pc with
  | .take | .clear _ => .isTrue (by rw [Settled, h]; trivial)
  | .start | .loop | .check | .condWait | .waiting | .woken | .recheck | .work | .working
  | .done _ | .inDone _ | .delete _ | .unlock | .exited =>
      decidable_of_iff (w.task = none) (by rw [Settled, h])

/-- The condition on a step: the destructor is called only for a settled worker. -/
def Waited (s : DecodeWorkerLife Task) : LifeLabel Task → Prop
  | .destroy => Settled s.inner.worker
  | _ => True

instance (s : DecodeWorkerLife Task) (l : LifeLabel Task) : Decidable (s.Waited l) :=
  match l with
  | .destroy => inferInstanceAs (Decidable (Settled _))
  | .thread | .work | .wake | .tryAssign _ | .owner => inferInstanceAs (Decidable True)

section Settled

omit [DecidableEq Task]

variable {w w' : BackgroundWorker Task}

theorem Settled.of_task (h : w.task = none) : Settled w := by
  rw [Settled]
  split
  case h_1 | h_2 => trivial
  case h_3 => exact h

/-- A settled worker neither calls `Work()` nor is inside it. -/
theorem Settled.outside (h : Settled w) (hknows : OwnedWorker.ThreadKnows w) :
    w.pc.callsWork = false ∧ w.pc.insideWork = false := by
  rw [Settled] at h
  rw [OwnedWorker.ThreadKnows] at hknows
  cases hpc : w.pc <;> simp_all [ThreadPc.callsWork, ThreadPc.insideWork]

theorem Settled.threadStep (h : Settled w) (hs : w.threadStep = some w') : Settled w' := by
  cases BackgroundWorker.threadStep_cases hs with
  | take => trivial
  | clear => rfl
  | _ => exact Settled.of_task h

theorem Settled.spuriousWake (h : Settled w) (hs : w.spuriousWake = some w') :
    Settled w' := by
  obtain ⟨hpc, rfl⟩ := BackgroundWorker.spuriousWake_cases hs
  rw [Settled, hpc] at h
  exact h

theorem Settled.condSignal (h : Settled w) : Settled w.condSignal := by
  rw [BackgroundWorker.condSignal]
  split
  case h_1 hpc =>
    rw [Settled, hpc] at h
    exact h
  case h_2 => exact h

theorem Settled.destroyStep {pc pc' : DestroyPc} (h : Settled w)
    (hs : w.destroyStep pc = some (w', pc')) : Settled w' := by
  cases pc with
  | disable | check | delete | unlock =>
      obtain ⟨rfl, -⟩ := Prod.mk.inj (Option.some.inj hs)
      exact h
  | signal =>
      obtain ⟨rfl, -⟩ := Prod.mk.inj (Option.some.inj hs)
      exact h.condSignal
  | clear =>
      obtain ⟨rfl, -⟩ := Prod.mk.inj (Option.some.inj hs)
      exact Settled.of_task rfl
  | lock =>
      obtain ⟨-, hs⟩ := Option.ite_none_right_eq_some.mp hs
      obtain ⟨rfl, -⟩ := Prod.mk.inj (Option.some.inj hs)
      exact h
  | join =>
      rw [BackgroundWorker.destroyStep] at hs
      split at hs
      case h_1 =>
        obtain ⟨rfl, -⟩ := Prod.mk.inj (Option.some.inj hs)
        exact h
      case h_2 => cases hs
  | destroyed => cases hs

end Settled

/-! ## Runs in which the destructor is called for a settled worker -/

/-- The destructor has been called. -/
def Begun (s : DecodeWorkerLife Task) : Prop := s.body ≠ none ∨ s.inner.owner.inBase = true

structure Safe (s : DecodeWorkerLife Task) : Prop where
  late : s.late = false
  aborted : s.aborted = false
  settled : Begun s → Settled s.inner.worker
  released : s.released = true → Begun s
  idle : s.body ≠ none → s.inner.owner = .idle

section Safe

variable {s t : DecodeWorkerLife Task} {l : LifeLabel Task}

omit [DecidableEq Task] in
theorem safe_create : Safe (create : DecodeWorkerLife Task) where
  late := rfl
  aborted := rfl
  settled := by simp [Begun, create, OwnedWorker.create, OwnerPc.inBase]
  released := by simp [released, create]
  idle := by simp [create]

theorem Safe.thread (h : Safe s) (hknows : OwnedWorker.ThreadKnows s.inner.worker)
    (hs : s.threadStep = some t) : Safe t := by
  rcases threadStep_cases hs with ⟨hcall, hbase, rfl⟩ | ⟨inner, hinner, rfl⟩
  · have houtside := ((h.settled (Or.inr hbase)).outside hknows).1
    rw [houtside] at hcall
    cases hcall
  · obtain ⟨w, hw, rfl⟩ := Option.map_eq_some_iff.mp hinner
    refine ⟨?_, h.aborted, fun hbegun => (h.settled hbegun).threadStep hw, h.released, h.idle⟩
    show (s.late || _) = false
    rw [h.late, Bool.false_or]
    cases hreleased : s.released with
    | false => exact Bool.and_false _
    | true =>
        obtain ⟨hcalls, hinside⟩ := (h.settled (h.released hreleased)).outside hknows
        rw [hcalls, hinside]
        rfl

omit [DecidableEq Task] in
theorem Safe.work (h : Safe s) (hknows : OwnedWorker.ThreadKnows s.inner.worker)
    (hinside : s.inner.worker.pc.insideWork = true) :
    Safe { s with late := s.late || s.released } := by
  refine ⟨?_, h.aborted, h.settled, h.released, h.idle⟩
  show (s.late || s.released) = false
  rw [h.late, Bool.false_or]
  cases hreleased : s.released with
  | false => rfl
  | true =>
      have houtside := ((h.settled (h.released hreleased)).outside hknows).2
      rw [houtside] at hinside
      cases hinside

omit [DecidableEq Task] in
theorem not_begun (hbody : s.body = none) (hbase : s.inner.owner.inBase = false) :
    ¬ Begun s := by
  intro hbegun
  rcases hbegun with hb | hb
  · exact hb hbody
  · rw [hbase] at hb
    cases hb

omit [DecidableEq Task] in
/-- The owner's own calls before the destructor. -/
theorem Safe.quiet (h : Safe s) (hbody : s.body = none)
    (hbefore : s.inner.owner.inBase = false) {inner : OwnedWorker Task}
    (hafter : inner.owner.inBase = false) : Safe { s with inner } := by
  have hbegun := not_begun hbody hbefore
  have hnot : ¬ Begun { s with inner } := not_begun hbody hafter
  exact ⟨h.late, h.aborted, fun hb => absurd hb hnot, fun hr => absurd (h.released hr) hbegun,
    fun hb => absurd hbody hb⟩

theorem Safe.body (h : Safe s) {r : DecodeResource} (hbody : s.body = some r)
    (hs : s.bodyStep r = some t) : Safe t := by
  have hsettled := h.settled (Or.inl (by rw [hbody]; exact Option.some_ne_none r))
  have hidle := h.idle (by rw [hbody]; exact Option.some_ne_none r)
  cases r with
  | decoder | mfcc =>
      obtain rfl := Option.some.inj hs
      exact ⟨h.late, h.aborted, fun _ => hsettled,
        fun _ => Or.inl (Option.some_ne_none _), fun _ => hidle⟩
  | cmvn =>
      obtain ⟨inner, hinner, rfl⟩ := Option.map_eq_some_iff.mp hs
      rw [OwnedWorker.step, hidle] at hinner
      obtain rfl := Option.some.inj hinner
      exact ⟨h.late, h.aborted, fun _ => hsettled, fun _ => Or.inr rfl,
        fun hnone => absurd rfl hnone⟩

omit [DecidableEq Task] in
/-- The owner inside `TryAssign` or `~BackgroundWorker`. -/
theorem Safe.owner (h : Safe s) (hbody : s.body = none) {inner : OwnedWorker Task}
    (hs : s.inner.ownerStep = some inner) : Safe { s with inner } := by
  rw [OwnedWorker.ownerStep] at hs
  split at hs
  case h_1 => cases hs
  case h_2 ho | h_3 ho =>
    obtain rfl := Option.some.inj hs
    exact h.quiet hbody (by rw [ho]; rfl) rfl
  case h_4 pc ho =>
    obtain ⟨⟨w, pc'⟩, hw, rfl⟩ := Option.map_eq_some_iff.mp hs
    have hbegun : Begun s := Or.inr (by rw [ho]; rfl)
    exact ⟨h.late, h.aborted, fun _ => (h.settled hbegun).destroyStep hw, fun _ => Or.inr rfl,
      fun hb => absurd hbody hb⟩

theorem Safe.step (h : Safe s) (hknows : OwnedWorker.ThreadKnows s.inner.worker)
    (hok : s.Waited l) (hs : s.step l = some t) : Safe t := by
  obtain ⟨-, hs⟩ := step_live hs
  cases l with
  | thread => exact h.thread hknows hs
  | work =>
      obtain ⟨hinside, hs⟩ := Option.ite_none_right_eq_some.mp hs
      obtain rfl := Option.some.inj hs
      exact h.work hknows hinside
  | wake =>
      obtain ⟨inner, hinner, rfl⟩ := Option.map_eq_some_iff.mp hs
      obtain ⟨w, hw, rfl⟩ := Option.map_eq_some_iff.mp hinner
      exact ⟨h.late, h.aborted, fun hb => (h.settled hb).spuriousWake hw, h.released, h.idle⟩
  | tryAssign u =>
      rw [liveStep] at hs
      split at hs
      case h_2 => cases hs
      case h_1 hbody =>
        obtain ⟨inner, hinner, rfl⟩ := Option.map_eq_some_iff.mp hs
        rw [OwnedWorker.step] at hinner
        split at hinner
        case h_2 => cases hinner
        case h_1 hidle =>
          obtain ⟨-, hinner⟩ := Option.ite_none_left_eq_some.mp hinner
          obtain rfl := Option.some.inj hinner
          exact h.quiet hbody (by rw [hidle]; rfl) rfl
  | destroy =>
      rw [liveStep] at hs
      split at hs
      case h_2 => cases hs
      case h_1 hidle =>
        obtain rfl := Option.some.inj hs
        exact ⟨h.late, h.aborted, fun _ => hok, fun _ => Or.inl (Option.some_ne_none _),
          fun _ => hidle⟩
  | owner =>
      rw [liveStep] at hs
      split at hs
      case h_1 hbody =>
        obtain ⟨inner, hinner, rfl⟩ := Option.map_eq_some_iff.mp hs
        exact h.owner hbody hinner
      case h_2 r hbody => exact h.body hbody hs

theorem safe_of_waited (h : (system Task).ReachableVia Waited s) : Safe s := by
  apply h.invariant Safe safe_create
  intro s l t hs hok hsafe hstep
  have hknows := (OwnedWorker.alert_of_reachable (inner_reachable hs)).2.threadKnows
  exact hsafe.step hknows hok hstep

end Safe

/-! ## When it is called too early -/

/-- An unsettled worker whose decoder has been deleted goes on to `Work()`. -/
theorem leads_late {s : DecodeWorkerLife Task} (hs : (system Task).Reachable s)
    (haborted : s.aborted = false) (hidle : s.inner.owner = .idle)
    (hreleased : s.released = true) (hunsettled : ¬ Settled s.inner.worker) :
    ∃ t, (system Task).Leads s t ∧ t.late = true := by
  obtain ⟨halert, hcontrol⟩ := OwnedWorker.alert_of_reachable (inner_reachable hs)
  have hfree := hcontrol.mutex_free
  have hasleep := halert.asleep
  have hleft := halert.left
  have henabled := halert.enabled
  have hknows := hcontrol.threadKnows
  obtain ⟨⟨⟨m, x, en, pc⟩, o, log, results⟩, body, deleted, late, aborted⟩ := s
  obtain rfl : o = .idle := hidle
  obtain rfl : aborted = false := haborted
  obtain rfl : en = true := by
    cases en with
    | true => rfl
    | false => exact (henabled.mp rfl).elim
  cases x with
  | none => exact absurd (Settled.of_task rfl) hunsettled
  | some y =>
      cases deleted with
      | nil => cases hreleased
      | cons r deleted =>
          cases pc with
          | start =>
              obtain rfl : m = none := hfree id id
              exact ⟨_, ⟨List.replicate 5 .thread, rfl⟩, Bool.or_true _⟩
          | woken =>
              obtain rfl : m = none := hfree id id
              exact ⟨_, ⟨List.replicate 3 .thread, rfl⟩, Bool.or_true _⟩
          | loop => exact ⟨_, ⟨List.replicate 4 .thread, rfl⟩, Bool.or_true _⟩
          | check => exact ⟨_, ⟨List.replicate 3 .thread, rfl⟩, Bool.or_true _⟩
          | recheck => exact ⟨_, ⟨List.replicate 2 .thread, rfl⟩, Bool.or_true _⟩
          | work => exact ⟨_, ⟨[.thread], rfl⟩, Bool.or_true _⟩
          | working => exact ⟨_, ⟨[.work], rfl⟩, Bool.or_true _⟩
          | waiting =>
              obtain hnone | ⟨u, hu⟩ := hasleep rfl
              · cases hnone
              · cases hu
          | take | clear y => exact absurd trivial hunsettled
          | condWait | done y | inDone y | delete y => simp [OwnedWorker.ThreadKnows] at hknows
          | unlock | exited => simp at hleft

/-- **Destruction does not wait for `Work()`.**  In every run in which the destructor is
called only for a worker that has no task or has come back from `Work()` with it, no
step of `Work()` follows a deletion, and `Work()` is not called where it is pure
virtual.  Wherever it is called for another worker, some interleaving goes on to a step
of `Work()` that follows the first deletion. -/
theorem work_ends_before_release :
    (∀ s, (system Task).ReachableVia Waited s → s.late = false ∧ s.aborted = false) ∧
    ∀ s t, (system Task).Reachable s → s.step .destroy = some t → ¬ Settled s.inner.worker →
      ∃ u, (system Task).Leads t u ∧ u.late = true := by
  constructor
  · intro s hs
    have hsafe := safe_of_waited hs
    exact ⟨hsafe.late, hsafe.aborted⟩
  · intro s t hs hstep hunsettled
    have ht : (system Task).Reachable t := System.ReachableVia.step hs trivial hstep
    obtain ⟨haborted, hstep⟩ := step_live hstep
    rw [liveStep] at hstep
    split at hstep
    case h_2 => cases hstep
    case h_1 hidle =>
      obtain rfl := Option.some.inj hstep
      -- the decoder is deleted
      have hdelete : (system Task).step { s with body := some .decoder } .owner =
          some { s with deleted := s.deleted ++ [.decoder], body := some .mfcc } :=
        if_neg (by simp [haborted])
      have hreleased : released
          { s with deleted := s.deleted ++ [.decoder], body := some .mfcc } = true := by
        simp [released]
      obtain ⟨u, hu, hlate⟩ := leads_late (System.ReachableVia.step ht trivial hdelete) haborted
        hidle hreleased hunsettled
      exact ⟨u, .head hdelete hu, hlate⟩

/-- The destructor is called while `Work()` runs, and the decoder is deleted under it. -/
theorem late_run : ∃ s, (system Nat).Reachable s ∧ s.late = true := by
  obtain ⟨s, hrun, hlate⟩ : ∃ s, (system Nat).runFrom create
      (.tryAssign 7 :: List.replicate 6 .owner ++ List.replicate 5 .thread ++
        [.destroy, .owner, .work]) = some s ∧ s.late = true := ⟨_, rfl, rfl⟩
  exact ⟨s, System.reachable_of_run hrun, hlate⟩

end DecodeWorkerLife

end ThreadedServer
