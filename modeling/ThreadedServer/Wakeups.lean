import ThreadedServer.WorkerLife

/-!
# Wake-ups of a worker

`worker_func` waits on `task_assigned_cond_` with an `if` and not with a
`while`, the destructor clears `enabled_` without the mutex, and a signal that
nobody waits for is forgotten.  What saves the worker is the order of the
tests: it looks at `enabled_` and at `task_` with the mutex in its hands and
gives it away only by falling asleep.

So a worker that is asleep has no task, except between the store of `TryAssign`
and the signal of the same call, which both happen under one lock; and once the
destructor has sent its signal, the worker only has the way out left.
-/

namespace ThreadedServer

open Transition

namespace OwnedWorker

variable {Task : Type*}

/-- The owner's control points after `enabled_` was cleared. -/
def Disabled : OwnerPc Task → Prop
  | .destroy .disable => False
  | .destroy _ => True
  | _ => False

/-- The owner's control points after the destructor's `pthread_cond_signal`. -/
def SignalSent : OwnerPc Task → Prop
  | .destroy .unlock | .destroy .join | .destroy .destroyed => True
  | _ => False

/-- The way out of `worker_func`: no control point of it waits for a signal,
and none of it works on a task. -/
def Leaving : ThreadPc Task → Prop
  | .start | .loop | .woken | .recheck | .unlock | .exited => True
  | _ => False

/-- The invariant of the wake-ups. -/
structure Alert (s : OwnedWorker Task) : Prop where
  enabled : s.worker.enabled = false ↔ Disabled s.owner
  asleep : s.worker.pc = .waiting →
    s.worker.task = none ∨ ∃ t, s.owner = .tryAssign t .signal
  leaving : SignalSent s.owner → Leaving s.worker.pc
  left : s.worker.pc = .unlock ∨ s.worker.pc = .exited → s.worker.enabled = false

theorem alert_create : Alert (create : OwnedWorker Task) := by
  constructor <;> simp [create, BackgroundWorker.create, Disabled, SignalSent]

/-- After its signal the destructor has cleared `enabled_`, and `task_` is
`NULL`. -/
theorem Alert.sent {s : OwnedWorker Task}
    (h : Alert s)
    (hc : Control s)
    (hsent : SignalSent s.owner) :
    s.worker.enabled = false ∧ s.worker.task = none := by
  have hknows := hc.ownerKnows
  cases ho : s.owner with
  | idle => simp [ho, SignalSent] at hsent
  | tryAssign t pc => simp [ho, SignalSent] at hsent
  | destroy pc =>
      rw [ho] at hknows
      refine ⟨h.enabled.mpr (by rw [ho]; cases pc <;> simp_all [SignalSent, Disabled]), ?_⟩
      cases pc <;> simp_all [SignalSent, OwnerKnows]

/-- The worker's thread falls asleep only without a task, and it does not leave
its way out. -/
theorem Alert.threadStep {s : OwnedWorker Task}
    (h : Alert s)
    (hc : Control s)
    {w : BackgroundWorker Task}
    (hw : s.worker.threadStep = some w)
    (log : List (Task × TaskEvent)) :
    Alert { s with worker := w, log := log } := by
  have hknows := hc.threadKnows
  have hcases := BackgroundWorker.threadStep_cases hw
  have hsent := h.sent hc
  obtain ⟨v, o, oldLog, results⟩ := s
  obtain ⟨henabled, hasleep, hleaving, hleft⟩ := h
  refine ⟨?_, ?_, ?_, ?_⟩
  · cases hcases <;> exact henabled
  · cases hcases with
    | condWait => exact fun _ => Or.inl hknows
    | _ => intro hpc; simp at hpc
  · intro ho
    obtain ⟨hoff, hnone⟩ := hsent ho
    have hway := hleaving ho
    cases hcases <;> simp_all [Leaving]
  · cases hcases <;> simp_all

/-- A spurious wake-up wakes. -/
theorem Alert.wake {s : OwnedWorker Task}
    (h : Alert s)
    {w : BackgroundWorker Task}
    (hw : s.worker.spuriousWake = some w) :
    Alert { s with worker := w } := by
  obtain ⟨-, rfl⟩ := BackgroundWorker.spuriousWake_cases hw
  exact ⟨h.enabled, fun hpc => by simp at hpc, fun _ => trivial, fun hpc => by simp at hpc⟩

/-- A signal leaves nobody asleep. -/
theorem condSignal_not_waiting (w : BackgroundWorker Task) : w.condSignal.pc ≠ .waiting := by
  rcases w.condSignal_pc with ⟨hpc, hne⟩ | ⟨-, hpc⟩
  · rwa [hpc]
  · simp [hpc]

/-- While the owner has the mutex, the worker's thread is outside of it. -/
theorem Control.outside {s : OwnedWorker Task}
    (hc : Control s)
    (ho : OwnerHolds s.owner) :
    s.worker.pc = .start ∨ s.worker.pc = .waiting ∨ s.worker.pc = .woken ∨
      s.worker.pc = .exited := by
  have hpc := hc.not_threadHolds ho
  cases h : s.worker.pc <;> simp_all [BackgroundWorker.ThreadHolds]

/-- The alertness of a worker whose owner is not about to send a signal and
has not sent the last one. -/
theorem Alert.of_call {w : BackgroundWorker Task} {o : OwnerPc Task}
    {log : List (Task × TaskEvent)} {results : List (Task × Bool)}
    (henabled : w.enabled = false ↔ Disabled o)
    (hasleep : w.pc = .waiting → w.task = none)
    (hsent : ¬ SignalSent o)
    (hleft : w.pc = .unlock ∨ w.pc = .exited → w.enabled = false) :
    Alert ⟨w, o, log, results⟩ :=
  ⟨henabled, fun hpc => Or.inl (hasleep hpc), fun ho => (hsent ho).elim, hleft⟩

/-- Unless `TryAssign` is about to send its signal, a sleeper has no task. -/
theorem Alert.asleep_without_task {s : OwnedWorker Task}
    (h : Alert s)
    (ho : ∀ t, s.owner ≠ .tryAssign t .signal) :
    s.worker.pc = .waiting → s.worker.task = none := by
  intro hw
  rcases h.asleep hw with hnone | ⟨t, ht⟩
  · exact hnone
  · exact absurd ht (ho t)

/-- A signal does not send anybody out of `worker_func`. -/
theorem condSignal_left {w : BackgroundWorker Task}
    (h : w.condSignal.pc = .unlock ∨ w.condSignal.pc = .exited) :
    w.pc = .unlock ∨ w.pc = .exited := by
  rcases w.condSignal_pc with ⟨hpc, -⟩ | ⟨-, hpc⟩
  · rwa [hpc] at h
  · simp [hpc] at h

/-- A line of `TryAssign`: the store may leave a sleeper with a task, and the
signal wakes him. -/
theorem Alert.tryAssignStep {s : OwnedWorker Task}
    (h : Alert s)
    {t : Task} {pc : TryPc}
    (ho : s.owner = .tryAssign t pc)
    (log : List (Task × TaskEvent)) :
    Alert ⟨(s.worker.tryAssignStep t pc).1, .tryAssign t (s.worker.tryAssignStep t pc).2,
      log, s.results⟩ := by
  have henabled : s.worker.enabled = false ↔ False := by
    have hno := h.enabled
    rwa [ho] at hno
  have hleft := h.left
  have hasleep : pc ≠ .signal → s.worker.pc = .waiting → s.worker.task = none :=
    fun hpc => h.asleep_without_task fun u => by simp [ho, hpc]
  cases pc with
  | trylock =>
      by_cases hm : s.worker.taskAssignedMutex = none <;>
        simp only [BackgroundWorker.tryAssignStep, hm, if_true, if_false]
      · exact .of_call henabled (hasleep (by simp)) id hleft
      · exact .of_call henabled (hasleep (by simp)) id hleft
  | check =>
      refine .of_call ?_ (hasleep (by simp)) id hleft
      exact henabled
  | assign => exact ⟨henabled, fun _ => Or.inr ⟨t, rfl⟩, False.elim, hleft⟩
  | signal =>
      refine .of_call ?_ ?_ id ?_
      · simpa [BackgroundWorker.tryAssignStep, Disabled] using henabled
      · exact fun hpc => absurd hpc (condSignal_not_waiting s.worker)
      · intro hpc
        simpa [BackgroundWorker.tryAssignStep] using hleft (condSignal_left hpc)
  | unlockFalse | unlockTrue =>
      refine .of_call ?_ (hasleep (by simp)) id hleft
      exact henabled
  | ret b =>
      refine .of_call ?_ (hasleep (by simp)) id hleft
      exact henabled

/-- A line of the destructor: its signal leaves the worker on the way out. -/
theorem Alert.destroyStep {s : OwnedWorker Task}
    (h : Alert s)
    (hc : Control s)
    {pc : DestroyPc}
    (ho : s.owner = .destroy pc)
    {r : BackgroundWorker Task × DestroyPc}
    (hr : s.worker.destroyStep pc = some r)
    (log : List (Task × TaskEvent)) :
    Alert ⟨r.1, .destroy r.2, log, s.results⟩ := by
  have henabled := h.enabled
  have hasleep : s.worker.pc = .waiting → s.worker.task = none :=
    h.asleep_without_task fun u => by simp [ho]
  have hleaving := h.leaving
  have hleft := h.left
  rw [ho] at henabled hleaving
  cases pc with
  | disable =>
      obtain rfl := Option.some.inj hr
      exact .of_call (by simp [Disabled]) hasleep id fun _ => rfl
  | lock =>
      obtain ⟨hm, rfl⟩ : s.worker.taskAssignedMutex = none ∧ _ = r := by
        simpa [BackgroundWorker.destroyStep] using hr
      exact .of_call henabled hasleep id hleft
  | check =>
      obtain rfl := Option.some.inj hr
      cases s.worker.task with
      | none => exact .of_call henabled hasleep id hleft
      | some t => exact .of_call henabled hasleep id hleft
  | delete =>
      obtain rfl := Option.some.inj hr
      exact .of_call henabled hasleep id hleft
  | clear =>
      obtain rfl := Option.some.inj hr
      exact .of_call henabled (fun _ => rfl) id hleft
  | signal =>
      obtain rfl := Option.some.inj hr
      have hwake := condSignal_not_waiting s.worker
      refine ⟨by simpa [Disabled] using henabled, fun hpc => absurd hpc hwake, fun _ => ?_,
        fun hpc => by simpa using hleft (condSignal_left hpc)⟩
      rcases s.worker.condSignal_pc with ⟨hpc, -⟩ | ⟨-, hpc⟩
      · rw [hpc] at hwake ⊢
        rcases hc.outside (by rw [ho]; trivial) with hout | hout | hout | hout
        · simp [hout, Leaving]
        · exact absurd hout hwake
        · simp [hout, Leaving]
        · simp [hout, Leaving]
      · simp [hpc, Leaving]
  | unlock =>
      obtain rfl := Option.some.inj hr
      exact ⟨henabled, fun hpc => Or.inl (hasleep hpc), fun _ => hleaving trivial, hleft⟩
  | join =>
      cases hpc : s.worker.pc <;> simp [BackgroundWorker.destroyStep, hpc] at hr
      subst hr
      exact ⟨henabled, fun hw => Or.inl (hasleep hw), fun _ => hleaving trivial, hleft⟩
  | destroyed => simp [BackgroundWorker.destroyStep] at hr

/-- A line of the owner. -/
theorem Alert.ownerStep {s t : OwnedWorker Task}
    (h : Alert s)
    (hc : Control s)
    (hs : s.ownerStep = some t) : Alert t := by
  cases ho : s.owner with
  | idle => simp [OwnedWorker.ownerStep, ho] at hs
  | tryAssign u pc =>
      cases pc with
      | ret b =>
          obtain rfl : _ = t := by simpa [OwnedWorker.ownerStep, ho] using hs
          have henabled := h.enabled
          rw [ho] at henabled
          have hasleep := h.asleep_without_task fun v => by simp [ho]
          exact .of_call henabled hasleep id h.left
      | _ =>
          obtain rfl : _ = t := by simpa [OwnedWorker.ownerStep, ho] using hs
          exact h.tryAssignStep ho _
  | destroy pc =>
      cases hr : s.worker.destroyStep pc with
      | none => simp [OwnedWorker.ownerStep, ho, hr] at hs
      | some r =>
          obtain rfl : _ = t := by simpa [OwnedWorker.ownerStep, ho, hr] using hs
          exact h.destroyStep hc ho hr _

/-- A call that the owner begins. -/
theorem Alert.call {s : OwnedWorker Task}
    (h : Alert s)
    (hidle : s.owner = .idle)
    (o : OwnerPc Task)
    (hcall : ¬ Disabled o ∧ ¬ SignalSent o) : Alert { s with owner := o } := by
  have henabled := h.enabled
  simp only [hidle, Disabled, iff_false] at henabled
  have hasleep := h.asleep_without_task fun v => by simp [hidle]
  exact .of_call (by simp [henabled, hcall.1]) hasleep hcall.2 h.left

/-- The mutex is free when neither side has it. -/
theorem Control.mutex_free {s : OwnedWorker Task}
    (hc : Control s)
    (hpc : ¬ BackgroundWorker.ThreadHolds s.worker.pc)
    (ho : ¬ OwnerHolds s.owner) : s.worker.taskAssignedMutex = none := by
  cases hm : s.worker.taskAssignedMutex with
  | none => rfl
  | some holder =>
      cases holder with
      | thread => exact absurd (hc.thread.mp hm) hpc
      | owner => exact absurd (hc.owner.mp hm) ho

variable [DecidableEq Task]

/-- The two invariants hold at every moment of every run. -/
theorem alert_of_reachable {s : OwnedWorker Task} (hs : (system Task).Reachable s) :
    Alert s ∧ Control s := by
  refine hs.invariant (fun s => Alert s ∧ Control s) ⟨alert_create, control_create⟩ ?_
  intro s e t hinv he
  obtain ⟨h, hc⟩ := hinv
  cases e with
  | thread =>
      obtain ⟨w, hw, rfl⟩ := Option.map_eq_some_iff.mp he
      exact ⟨h.threadStep hc hw _, hc.threadStep hw _⟩
  | wake =>
      obtain ⟨w, hw, rfl⟩ := Option.map_eq_some_iff.mp he
      exact ⟨h.wake hw, hc.wake hw⟩
  | owner => exact ⟨h.ownerStep hc he, hc.ownerStep he⟩
  | tryAssign u =>
      cases ho : s.owner <;> simp [system, step, ho] at he
      obtain ⟨-, rfl⟩ := he
      have hown := hc.owner
      rw [ho] at hown
      exact ⟨h.call ho _ ⟨id, id⟩, hc.thread, hown, hc.threadKnows, trivial⟩
  | destroy =>
      cases ho : s.owner <;> simp [system, step, ho] at he
      subst he
      have hown := hc.owner
      rw [ho] at hown
      exact ⟨h.call ho _ ⟨id, id⟩, hc.thread, hown, hc.threadKnows, trivial⟩

/-! ## The worker gets there by itself -/

/-- A worker with a task finds the mutex free sooner or later and carries the
task out with no help from anybody. -/
theorem carries_out_task {s : OwnedWorker Task}
    (h : Alert s)
    (hc : Control s)
    {t : Task}
    (htask : s.worker.task = some t)
    (henabled : s.worker.enabled = true)
    (ho : ¬ OwnerHolds s.owner) :
    ∃ s', (system Task).LeadsBy .thread s s' ∧ (t, .deleted) ∈ s'.log := by
  have hfree := hc.mutex_free
  have hasleep := h.asleep
  have hleft := h.left
  have hknows := hc.threadKnows
  obtain ⟨⟨m, x, en, pc⟩, o, log, results⟩ := s
  obtain rfl : x = some t := htask
  obtain rfl : en = true := henabled
  cases pc with
  | start =>
      obtain rfl : m = none := hfree id ho
      exact ⟨_, ⟨11, rfl⟩, by simp [threadEvents]⟩
  | waiting =>
      obtain hnone | ⟨u, hu⟩ := hasleep rfl
      · simp at hnone
      · exact absurd (by rw [hu]; trivial) ho
  | woken =>
      obtain rfl : m = none := hfree id ho
      exact ⟨_, ⟨9, rfl⟩, by simp [threadEvents]⟩
  | loop => exact ⟨_, ⟨10, rfl⟩, by simp [threadEvents]⟩
  | check => exact ⟨_, ⟨9, rfl⟩, by simp [threadEvents]⟩
  | recheck => exact ⟨_, ⟨8, rfl⟩, by simp [threadEvents]⟩
  | work => exact ⟨_, ⟨7, rfl⟩, by simp [threadEvents]⟩
  | working => exact ⟨_, ⟨6, rfl⟩, by simp [threadEvents]⟩
  | take => exact ⟨_, ⟨5, rfl⟩, by simp [threadEvents]⟩
  | clear y =>
      obtain ⟨-, rfl⟩ : y.isSome ∧ some t = y := hknows
      exact ⟨_, ⟨4, rfl⟩, by simp [threadEvents]⟩
  | condWait | done y | inDone y | delete y => simp [ThreadKnows] at hknows
  | unlock | exited => simp at hleft

omit [DecidableEq Task] in
/-- The task under way is in `task_` until `worker_func` has taken it out. -/
theorem task_of_current {w : BackgroundWorker Task} {o : OwnerPc Task} {t : Task}
    {ks : List TaskEvent}
    (hcur : current w o = some (t, ks))
    (ho : ¬ OwnerHolds o) :
    w.task = some t ∨ w.pc = .clear (some t) ∨ w.pc = .done (some t) ∨
      w.pc = .inDone (some t) ∨ w.pc = .delete (some t) := by
  unfold current at hcur
  split at hcur
  case h_7 =>
    rw [pending_of_not_holds ho] at hcur
    obtain ⟨u, hu, heq⟩ := Option.map_eq_some_iff.mp hcur
    obtain rfl : u = t := congrArg Prod.fst heq
    exact Or.inl hu
  all_goals
    obtain ⟨u, hu, heq⟩ := Option.map_eq_some_iff.mp hcur
    obtain rfl : u = t := congrArg Prod.fst heq
    simp_all

/-- A task that `worker_func` has taken out of `task_` goes on to its end. -/
theorem carries_out_local {s : OwnedWorker Task} {t : Task}
    (hpc : s.worker.pc = .clear (some t) ∨ s.worker.pc = .done (some t) ∨
      s.worker.pc = .inDone (some t) ∨ s.worker.pc = .delete (some t)) :
    ∃ s', (system Task).LeadsBy .thread s s' ∧ (t, .deleted) ∈ s'.log := by
  obtain ⟨⟨m, x, en, pc⟩, o, log, results⟩ := s
  rcases hpc with rfl | rfl | rfl | rfl
  · exact ⟨_, ⟨4, rfl⟩, by simp [threadEvents]⟩
  · exact ⟨_, ⟨3, rfl⟩, by simp [threadEvents]⟩
  · exact ⟨_, ⟨2, rfl⟩, by simp [threadEvents]⟩
  · exact ⟨_, ⟨1, rfl⟩, by simp [threadEvents]⟩

/-- A history that ends with the deletion by `worker_func` is whole. -/
theorem whole_of_deleted {ks : List TaskEvent}
    (hpre : ks <+: executed)
    (hdel : .deleted ∈ ks) : ks = executed := by
  rw [List.prefix_iff_eq_take] at hpre
  by_cases hlen : executed.length ≤ ks.length
  · rwa [List.take_of_length_le hlen] at hpre
  · have hfour : ks <+: executed.take 4 := by
      rw [hpre]
      exact List.take_prefix_take_left (by simp [executed] at hlen; omega)
    exact absurd (hfour.subset hdel) (by decide)

/-- **An accepted task is not left waiting.**  Until the destructor is called,
and as soon as the owner is out of the mutex, the worker's own steps lead an
accepted task to its end. -/
theorem carries_out {s : OwnedWorker Task}
    (hs : (system Task).Reachable s)
    {t : Task}
    (hres : (t, true) ∈ s.results)
    (henabled : s.worker.enabled = true)
    (ho : ¬ OwnerHolds s.owner) :
    ∃ s', (system Task).LeadsBy .thread s s' ∧
      (s'.history t = executed ∨ s'.history t = discarded) := by
  have hlife := life_of_reachable hs
  obtain ⟨h, hc⟩ := alert_of_reachable hs
  rcases hlife.accounted t with ⟨ks, hcur, -⟩ | ⟨-, hnil | hend⟩
  · obtain ⟨s', ⟨n, hn⟩, hdel⟩ :
        ∃ s', (system Task).LeadsBy .thread s s' ∧ (t, .deleted) ∈ s'.log := by
      rcases task_of_current hcur ho with htask | hpc
      · exact carries_out_task h hc htask henabled ho
      · exact carries_out_local hpc
    have hmem : TaskEvent.deleted ∈ s'.history t := by
      simpa [history, historyIn] using hdel
    have hlife' := life_of_reachable (hs.leads ⟨_, hn⟩)
    refine ⟨s', ⟨n, hn⟩, Or.inl ?_⟩
    rcases hlife'.history_prefix t with hpre | hpre
    · exact whole_of_deleted hpre hmem
    · exact absurd (hpre.subset hmem) (by decide)
  · exact absurd hnil ((hlife.accepted t).mpr (Or.inl hres))
  · exact ⟨s, .refl _ _, hend⟩

/-- **The destructor's join comes to an end.**  After its signal the worker's
own steps lead out of `worker_func`. -/
theorem leaves {s : OwnedWorker Task}
    (hs : (system Task).Reachable s)
    (ho : s.owner = .destroy .join) :
    ∃ s', (system Task).LeadsBy .thread s s' ∧ s'.worker.pc = .exited ∧
      s'.owner = .destroy .join := by
  obtain ⟨h, hc⟩ := alert_of_reachable hs
  obtain ⟨hoff, hnone⟩ := h.sent hc (by rw [ho]; trivial)
  have hway := h.leaving (by rw [ho]; trivial)
  have hfree := hc.mutex_free
  obtain ⟨⟨m, x, en, pc⟩, o, log, results⟩ := s
  obtain rfl : o = .destroy .join := ho
  obtain rfl : en = false := hoff
  obtain rfl : x = none := hnone
  cases pc with
  | start =>
      obtain rfl : m = none := hfree id id
      exact ⟨_, ⟨3, rfl⟩, rfl, rfl⟩
  | woken =>
      obtain rfl : m = none := hfree id id
      exact ⟨_, ⟨4, rfl⟩, rfl, rfl⟩
  | loop => exact ⟨_, ⟨2, rfl⟩, rfl, rfl⟩
  | recheck => exact ⟨_, ⟨3, rfl⟩, rfl, rfl⟩
  | unlock => exact ⟨_, ⟨1, rfl⟩, rfl, rfl⟩
  | exited => exact ⟨_, .refl _ _, rfl, rfl⟩
  | _ => exact hway.elim

/-- The sleeper of `TryAssign`: the owner's next step is the signal that wakes
him. -/
theorem signal_follows {s : OwnedWorker Task} {t : Task}
    (ho : s.owner = .tryAssign t .signal)
    (hpc : s.worker.pc = .waiting) :
    ∃ s', (system Task).step s .owner = some s' ∧ s'.worker.pc = .woken := by
  obtain ⟨⟨m, x, en, pc⟩, o, log, results⟩ := s
  obtain rfl : o = .tryAssign t .signal := ho
  obtain rfl : pc = .waiting := hpc
  exact ⟨_, rfl, rfl⟩

/-- **No wake-up is lost.**  In every state that the owner and the worker's
thread can reach, a worker that is asleep while `task_` is set is about to be
woken by the signal that `TryAssign` sends before it gives the mutex back; a
worker is not asleep after the destructor's signal; the worker's own steps lead
every accepted task to its end; and they lead out of `worker_func` while the
destructor is in `pthread_join`. -/
theorem wakeups_kept {s : OwnedWorker Task} (hs : (system Task).Reachable s) :
    (s.worker.pc = .waiting → s.worker.task ≠ none →
      ∃ t, s.owner = .tryAssign t .signal ∧
        ∃ s', (system Task).step s .owner = some s' ∧ s'.worker.pc = .woken) ∧
    (SignalSent s.owner → s.worker.pc ≠ .waiting) ∧
    (∀ t, (t, true) ∈ s.results → s.worker.enabled = true → ¬ OwnerHolds s.owner →
      ∃ s', (system Task).LeadsBy .thread s s' ∧
        (s'.history t = executed ∨ s'.history t = discarded)) ∧
    (s.owner = .destroy .join →
      ∃ s', (system Task).LeadsBy .thread s s' ∧ s'.worker.pc = .exited ∧
        s'.owner = .destroy .join) := by
  obtain ⟨h, hc⟩ := alert_of_reachable hs
  refine ⟨fun hpc htask => ?_, fun hsent hpc => ?_, fun t => carries_out hs, leaves hs⟩
  · obtain hnone | ⟨t, ho⟩ := h.asleep hpc
    · exact absurd hnone htask
    · exact ⟨t, ho, signal_follows ho hpc⟩
  · have hway := h.leaving hsent
    rw [hpc] at hway
    exact hway

/-- The worker is asleep when `TryAssign` has stored task 7. -/
def assignToSleeper : List (WorkerAct Nat) :=
  List.replicate 4 .thread ++ .tryAssign 7 :: List.replicate 3 .owner

theorem assignToSleeper_run :
    ∃ s, (system Nat).runFrom create assignToSleeper = some s ∧
      s.worker.pc = .waiting ∧ s.worker.task = some 7 :=
  ⟨_, rfl, rfl, rfl⟩

/-- Between the store and the signal a sleeping worker has a task, and no signal
is pending. -/
theorem sleeper_has_task :
    ∃ s, (system Nat).Reachable s ∧ s.worker.pc = .waiting ∧ s.worker.task = some 7 := by
  obtain ⟨s, hrun, hpc, htask⟩ := assignToSleeper_run
  exact ⟨s, System.reachable_of_run hrun, hpc, htask⟩

theorem wakeups_kept_sleeper :
    ∃ s, (system Nat).runFrom create assignToSleeper = some s ∧
      ∃ t, s.owner = .tryAssign t .signal ∧
        ∃ s', (system Nat).step s .owner = some s' ∧ s'.worker.pc = .woken := by
  obtain ⟨s, hrun, hpc, htask⟩ := assignToSleeper_run
  exact ⟨s, hrun, (wakeups_kept (System.reachable_of_run hrun)).1 hpc (by simp [htask])⟩

end OwnedWorker

end ThreadedServer
