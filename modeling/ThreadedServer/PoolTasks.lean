import ThreadedServer.PoolShutdown

/-!
# What becomes of the tasks when the pool is shut down

Seen from one worker, the pool is the accept loop that owns it (`WorkerLife`): it calls
`TryAssign` and, in its turn, the destructor.  So each worker alone carries a stored
task to one of its two ends.  The accept loop offers a task to one worker after the
other and stops with the first that accepts it, and it shuts the pool down only when
it is not in a call; so every task that was given to `Dispatch` is stored with one
worker, and when the destructor has returned it was executed there, or discarded.

A worker that was deleted has left its thread function, and with the last worker the
semaphore is out of use before it is deleted.
-/

namespace ThreadedServer

namespace Pool

variable {Task : Type*} [DecidableEq Task]

/-! ## One worker of the pool -/

omit [DecidableEq Task] in
/-- The entries of one worker. -/
def ofWorker {α : Type*} (i : Nat) (log : List (Nat × α)) : List α :=
  (log.filter fun e => e.1 = i).map Prod.snd

omit [DecidableEq Task] in
/-- The call of the accept loop on worker `i`. -/
def callAt (main : MainPc Task) (i : Nat) : OwnerPc Task :=
  match main with
  | .tryAssign t j pc => if j = i then .tryAssign t pc else .idle
  | _ => .idle

/-- Where the accept loop is, seen from worker `i`. -/
def ownerAt (p : Pool Task) (i : Nat) : OwnerPc Task :=
  if p.remaining ≤ i ∧ i < p.dispatcher.size then .destroy .destroyed
  else
    match p.shutdown with
    | .destroy pc => if i + 1 = p.remaining then .destroy pc else .idle
    | _ => callAt p.dispatcher.main i

/-- Worker `i` with its owner. -/
def view (p : Pool Task) (i : Nat) : OwnedWorker Task where
  worker := p.dispatcher.workers i
  owner := p.ownerAt i
  log := ofWorker i p.log
  results := ofWorker i p.results

section Entries

variable {α : Type*}

@[simp] theorem ofWorker_nil (i : Nat) : ofWorker i ([] : List (Nat × α)) = [] := rfl

@[simp] theorem ofWorker_append (i : Nat) (log events : List (Nat × α)) :
    ofWorker i (log ++ events) = ofWorker i log ++ ofWorker i events := by
  simp [ofWorker]

omit [DecidableEq Task] in
@[simp] theorem ofWorker_tagged (i : Nat) (events : List (Task × α)) :
    ofWorker i (tagged i events) = events := by
  simp [ofWorker, tagged, List.filter_map, Function.comp_def]

omit [DecidableEq Task] in
theorem ofWorker_tagged_of_ne {i j : Nat} (h : j ≠ i) (events : List (Task × α)) :
    ofWorker i (tagged j events) = [] := by
  simp [ofWorker, tagged, List.filter_map, Function.comp_def, h]

@[simp] theorem mem_ofWorker {i : Nat} {log : List (Nat × α)} {e : α} :
    e ∈ ofWorker i log ↔ (i, e) ∈ log := by
  simp [ofWorker]

end Entries

/-! ## What each worker sees -/

/-- The pool has moved worker `i` by a step of the worker or its owner, or not at all. -/
def Follows (p p' : Pool Task) (i : Nat) : Prop :=
  p'.view i = p.view i ∨ ∃ e, (p.view i).step e = some (p'.view i)

omit [DecidableEq Task] in
theorem view_congr {p p' : Pool Task} {i : Nat}
    (hworker : p'.dispatcher.workers i = p.dispatcher.workers i)
    (howner : p'.ownerAt i = p.ownerAt i)
    (hlog : ofWorker i p'.log = ofWorker i p.log)
    (hresults : ofWorker i p'.results = ofWorker i p.results) : p'.view i = p.view i := by
  unfold view
  rw [hworker, howner, hlog, hresults]

omit [DecidableEq Task] in
/-- Before the shutdown the accept loop is seen in its call. -/
theorem ownerAt_pool {p : Pool Task} (h : Stage p) (hpool : p.shutdown = .pool) (i : Nat) :
    p.ownerAt i = callAt p.dispatcher.main i := by
  have hsize := h.pool hpool
  have hnot : ¬ (p.remaining ≤ i ∧ i < p.dispatcher.size) := by omega
  rw [ownerAt, if_neg hnot, hpool]

omit [DecidableEq Task] in
/-- A call of `TryAssign` goes on before the shutdown only. -/
theorem Stage.pool_of_main {p : Pool Task} (h : Stage p) (hmain : p.dispatcher.main ≠ .idle) :
    p.shutdown = .pool := by
  by_contra hno
  exact hmain (h.main hno)

/-- Worker `i` follows its own thread, and the others do not notice. -/
theorem follows_thread {p : Pool Task} {i : Nat} {w : BackgroundWorker Task}
    (hw : (p.dispatcher.workers i).threadStep = some w) {p' : Pool Task}
    (hworkers : p'.dispatcher.workers = Function.update p.dispatcher.workers i w)
    (howner : ∀ j, p'.ownerAt j = p.ownerAt j)
    (hlog : p'.log = p.log ++ tagged i (OwnedWorker.threadEvents (p.dispatcher.workers i)))
    (hresults : p'.results = p.results) (j : Nat) : Follows p p' j := by
  by_cases hji : j = i
  · subst hji
    refine Or.inr ⟨.thread, ?_⟩
    have hview : p'.view j = { p.view j with
        worker := w
        log := (p.view j).log ++ OwnedWorker.threadEvents (p.dispatcher.workers j) } := by
      unfold view
      rw [hworkers, Function.update_self, howner, hlog, hresults, ofWorker_append, ofWorker_tagged]
    rw [hview, OwnedWorker.step]
    exact Option.map_eq_some_iff.mpr ⟨w, hw, rfl⟩
  · refine Or.inl (view_congr ?_ (howner j) ?_ (by rw [hresults]))
    · rw [hworkers, Function.update_of_ne hji]
    · rw [hlog, ofWorker_append, ofWorker_tagged_of_ne (Ne.symm hji), List.append_nil]

omit [DecidableEq Task] in
/-- Who is seen where depends on the stage and the call of the accept loop. -/
theorem ownerAt_congr {p p' : Pool Task} (hshutdown : p'.shutdown = p.shutdown)
    (hremaining : p'.remaining = p.remaining) (hsize : p'.dispatcher.size = p.dispatcher.size)
    {i : Nat} (hcall : callAt p'.dispatcher.main i = callAt p.dispatcher.main i) :
    p'.ownerAt i = p.ownerAt i := by
  unfold ownerAt
  rw [hshutdown, hremaining, hsize, hcall]

/-- The tasks that were given to `Dispatch`: each of them is on its way through the offers of
the accept loop, or is stored with exactly one worker. -/
structure Offered (p : Pool Task) : Prop where
  given : ∀ t, mainTask p.dispatcher.main = some t → t ∈ p.given
  logged : ∀ i t, (i, t, TaskEvent.assigned) ∈ p.log → t ∈ p.given
  offering : ∀ i t, (i, t, TaskEvent.assigned) ∈ p.log →
    mainTask p.dispatcher.main = some t →
    ∃ pc, p.dispatcher.main = .tryAssign t i pc ∧ OwnedWorker.Accepting pc
  unique : ∀ i j t, (i, t, TaskEvent.assigned) ∈ p.log → (j, t, TaskEvent.assigned) ∈ p.log →
    i = j
  covered : ∀ t ∈ p.given, mainTask p.dispatcher.main = some t ∨
    ∃ i < p.dispatcher.size, (i, t, TaskEvent.assigned) ∈ p.log

/-- What a step of the dispatcher leaves in the pool. -/
structure Ran (p p' : Pool Task) (l : DispatchLabel Task) : Prop where
  dispatcher : p.dispatcher.step l = some p'.dispatcher
  mayCall : p.mayCall l = true
  shutdown : p'.shutdown = p.shutdown
  remaining : p'.remaining = remainingAfter p.remaining l
  given : p'.given = givenAfter p.given l
  log : p'.log = p.log ++ runEvents p.dispatcher l
  results : p'.results = p.results ++ runResults p.dispatcher l

theorem ran_of_runStep {p p' : Pool Task} {l : DispatchLabel Task}
    (h : p.runStep l = some p') : Ran p p' l := by
  obtain ⟨hcall, h⟩ := Option.ite_none_right_eq_some.mp h
  obtain ⟨d, hd, rfl⟩ := Option.map_eq_some_iff.mp h
  exact ⟨hd, hcall, rfl, rfl, rfl, rfl, rfl⟩

omit [DecidableEq Task] in
theorem callAt_quiet {main : MainPc Task} (h : ∀ t i pc, main ≠ .tryAssign t i pc) (i : Nat) :
    callAt main i = .idle := by
  unfold callAt
  split
  case h_1 t j pc => exact absurd rfl (h t j pc)
  case h_2 => rfl

omit [DecidableEq Task] in
theorem mainEvents_quiet {main : MainPc Task} (h : ∀ t i pc, main ≠ .tryAssign t i pc) :
    mainEvents main = [] := by
  unfold mainEvents
  split
  case h_1 t j pc => exact absurd rfl (h t j pc)
  case h_2 => rfl

omit [DecidableEq Task] in
theorem mainResults_quiet {main : MainPc Task} (h : ∀ t i b, main ≠ .tryAssign t i (.ret b)) :
    mainResults main = [] := by
  unfold mainResults
  split
  case h_1 t j b => exact absurd rfl (h t j b)
  case h_2 => rfl

omit [DecidableEq Task] in
theorem callAt_other {t : Task} {i j : Nat} (pc : TryPc) (h : j ≠ i) :
    callAt (.tryAssign t j pc) i = .idle := by
  simp [callAt, h]

omit [DecidableEq Task] in
theorem callAt_self {t : Task} {i : Nat} (pc : TryPc) :
    callAt (.tryAssign t i pc) i = .tryAssign t pc := by
  simp [callAt]

/-- What a line of the accept loop is for the workers. -/
theorem follows_main {p p' : Pool Task} (hstage : Stage p) (hoffered : Offered p)
    (hs : p.runStep .main = some p') (i : Nat) : Follows p p' i := by
  obtain ⟨hd, -, hshutdown, -, -, hlog, hresults⟩ := ran_of_runStep hs
  replace hd : p.dispatcher.mainStep = some p'.dispatcher := hd
  have hpool : p.shutdown = .pool := by
    refine hstage.pool_of_main ?_
    intro hidle
    simp [TaskDispatcher.mainStep, hidle] at hd
  have hbefore := ownerAt_pool hstage hpool i
  have hafter := ownerAt_pool (hstage.run hs) (hshutdown.trans hpool) i
  obtain ⟨hmove, -, -⟩ := mainStep_move hd
  cases hmove with
  | quiet workers before after task =>
      have hnoEvents : runEvents p.dispatcher .main = [] := mainEvents_quiet before
      have hnoResults : runResults p.dispatcher .main = [] :=
        mainResults_quiet fun t i b => before t i _
      refine Or.inl (view_congr (by rw [workers]) ?_ (by simp [hlog, hnoEvents])
        (by simp [hresults, hnoResults]))
      rw [hbefore, hafter, callAt_quiet before, callAt_quiet after]
  | offer t j workers before hj after =>
      have hnoEvents : runEvents p.dispatcher .main = [] :=
        mainEvents_quiet (by simp [before])
      have hnoResults : runResults p.dispatcher .main = [] :=
        mainResults_quiet (by simp [before])
      have hidle : p.ownerAt i = .idle := by
        rw [hbefore, before]
        rfl
      by_cases hji : j = i
      · subst hji
        refine Or.inr ⟨.tryAssign t, ?_⟩
        have hfresh : (t, TaskEvent.assigned) ∉ (p.view j).log := by
          intro hmem
          obtain ⟨pc, hpc, -⟩ := hoffered.offering j t (mem_ofWorker.mp hmem)
            (by rw [before]; rfl)
          rw [before] at hpc
          cases hpc
        have howner : (p.view j).owner = .idle := hidle
        have hview : p'.view j = { p.view j with owner := .tryAssign t .trylock } := by
          unfold view
          rw [workers, hafter, after, callAt_self, hlog, hresults, hnoEvents, hnoResults,
            List.append_nil, List.append_nil]
        rw [OwnedWorker.step, howner, hview]
        exact if_neg hfresh
      · refine Or.inl (view_congr (by rw [workers]) ?_ (by simp [hlog, hnoEvents])
          (by simp [hresults, hnoResults]))
        rw [hidle, hafter, after, callAt_other _ hji]
  | line t j pc before inside workers after =>
      have hevents : runEvents p.dispatcher .main =
          tagged j (OwnedWorker.tryAssignEvents t pc) := by simp [runEvents, before, mainEvents]
      have hnoResults : runResults p.dispatcher .main = [] := by
        refine mainResults_quiet fun t' j' b hmain => ?_
        rw [before] at hmain
        obtain ⟨-, -, hpc⟩ : t = t' ∧ j = j' ∧ pc = .ret b := by simpa using hmain
        exact inside b hpc
      by_cases hji : j = i
      · subst hji
        refine Or.inr ⟨.owner, ?_⟩
        have howner : (p.view j).owner = .tryAssign t pc := by
          show p.ownerAt j = _
          rw [hbefore, before, callAt_self]
        have hview : p'.view j = { p.view j with
            worker := ((p.view j).worker.tryAssignStep t pc).1
            owner := .tryAssign t ((p.view j).worker.tryAssignStep t pc).2
            log := (p.view j).log ++ OwnedWorker.tryAssignEvents t pc } := by
          unfold view
          rw [workers, Function.update_self, hafter, after, callAt_self, hlog, hresults, hevents,
            hnoResults, ofWorker_append, ofWorker_tagged, List.append_nil]
        rw [hview]
        show (p.view j).ownerStep = _
        unfold OwnedWorker.ownerStep
        rw [howner]
        cases pc with
        | ret b => exact absurd rfl (inside b)
        | _ => rfl
      · refine Or.inl (view_congr ?_ ?_ ?_ (by simp [hresults, hnoResults]))
        · rw [workers, Function.update_of_ne (Ne.symm hji)]
        · rw [hbefore, hafter, before, after, callAt_other _ hji, callAt_other _ hji]
        · rw [hlog, hevents, ofWorker_append, ofWorker_tagged_of_ne hji, List.append_nil]
  | back t j b workers before after =>
      have hnoEvents : runEvents p.dispatcher .main = [] := by
        simp [runEvents, before, mainEvents, OwnedWorker.tryAssignEvents, tagged]
      have hevents : runResults p.dispatcher .main = [(j, t, b)] := by
        simp [runResults, before, mainResults]
      have hidle : p'.ownerAt i = .idle := by
        rw [hafter, after]
        cases b <;> rfl
      by_cases hji : j = i
      · subst hji
        refine Or.inr ⟨.owner, ?_⟩
        have howner : (p.view j).owner = .tryAssign t (.ret b) := by
          show p.ownerAt j = _
          rw [hbefore, before, callAt_self]
        have hview : p'.view j = { p.view j with
            owner := .idle, results := (p.view j).results ++ [(t, b)] } := by
          unfold view
          rw [workers, hidle, hlog, hresults, hnoEvents, hevents, List.append_nil, ofWorker_append]
          simp [ofWorker]
        rw [hview]
        show (p.view j).ownerStep = _
        unfold OwnedWorker.ownerStep
        rw [howner]
      · refine Or.inl (view_congr (by rw [workers]) ?_ (by simp [hlog, hnoEvents]) ?_)
        · rw [hidle, hbefore, before, callAt_other _ hji]
        · rw [hresults, hevents, ofWorker_append]
          simp [ofWorker, hji]

theorem follows_run {p p' : Pool Task} (hstage : Stage p) (hoffered : Offered p)
    {l : DispatchLabel Task} (hs : p.runStep l = some p') (i : Nat) : Follows p p' i := by
  have hran := ran_of_runStep hs
  obtain ⟨hd, hcall, hshutdown, hremaining, -, hlog, hresults⟩ := hran
  cases l with
  | main => exact follows_main hstage hoffered hs i
  | addWorker =>
      have hpool : p.shutdown = .pool := by simpa [mayCall] using hcall
      have hbefore := ownerAt_pool hstage hpool i
      have hafter := ownerAt_pool (hstage.run hs) (hshutdown.trans hpool) i
      replace hd : p.dispatcher.addWorker = some p'.dispatcher := hd
      unfold TaskDispatcher.addWorker at hd
      split at hd
      case h_2 => cases hd
      case h_1 hidle =>
        have hd := Option.some.inj hd
        refine Or.inl (view_congr ?_ ?_ (by simp [hlog, runEvents])
          (by simp [hresults, runResults]))
        · rw [← hd]
          by_cases hi : i = p.dispatcher.size
          · simp [TaskDispatcher.setWorker, hi, hstage.fresh]
          · simp [TaskDispatcher.setWorker, hi]
        · rw [hbefore, hafter, hidle, ← hd]
          rfl
  | dispatch t =>
      have hpool : p.shutdown = .pool := by
        have : p.shutdown = .pool ∧ t ∉ p.given := by simpa [mayCall] using hcall
        exact this.1
      have hbefore := ownerAt_pool hstage hpool i
      have hafter := ownerAt_pool (hstage.run hs) (hshutdown.trans hpool) i
      replace hd : p.dispatcher.dispatch t = some p'.dispatcher := hd
      unfold TaskDispatcher.dispatch at hd
      split at hd
      case h_2 => cases hd
      case h_1 hidle =>
        have hd := Option.some.inj hd
        refine Or.inl (view_congr ?_ ?_ (by simp [hlog, runEvents])
          (by simp [hresults, runResults]))
        · rw [← hd]
        · rw [hbefore, hafter, hidle, ← hd]
          rfl
  | mainSem a =>
      obtain ⟨s, -, hd⟩ := Option.map_eq_some_iff.mp hd
      refine Or.inl (view_congr ?_ ?_ (by simp [hlog, runEvents]) (by simp [hresults, runResults]))
      · rw [← hd]
      · exact ownerAt_congr hshutdown hremaining (by rw [← hd]) (by rw [← hd])
  | threadSem j a =>
      obtain ⟨-, hd⟩ := Option.ite_none_right_eq_some.mp hd
      obtain ⟨s, -, hd⟩ := Option.map_eq_some_iff.mp hd
      refine Or.inl (view_congr ?_ ?_ (by simp [hlog, runEvents]) (by simp [hresults, runResults]))
      · rw [← hd]
      · exact ownerAt_congr hshutdown hremaining (by rw [← hd]) (by rw [← hd])
  | thread j =>
      obtain ⟨-, hd⟩ := Option.ite_none_right_eq_some.mp hd
      obtain ⟨w, hw, hworkers, hsize, hmain, -⟩ := threadStep_worker hd
      refine follows_thread hw hworkers (fun k => ?_) (by rw [hlog]; rfl)
        (by simp [hresults, runResults]) i
      exact ownerAt_congr hshutdown hremaining hsize (by rw [hmain])
  | spurious j =>
      obtain ⟨-, hd⟩ := Option.ite_none_right_eq_some.mp hd
      obtain ⟨w, hw, hd⟩ := Option.map_eq_some_iff.mp hd
      have howner : p'.ownerAt i = p.ownerAt i :=
        ownerAt_congr hshutdown hremaining (by rw [← hd]; rfl) (by rw [← hd]; rfl)
      by_cases hij : i = j
      · subst hij
        refine Or.inr ⟨.wake, ?_⟩
        have hview : p'.view i = { p.view i with worker := w } := by
          unfold view
          rw [howner, ← hd]
          simp [hlog, hresults, runEvents, runResults, TaskDispatcher.setWorker]
        rw [hview, OwnedWorker.step]
        exact Option.map_eq_some_iff.mpr ⟨w, hw, rfl⟩
      · refine Or.inl (view_congr ?_ howner (by simp [hlog, runEvents])
          (by simp [hresults, runResults]))
        rw [← hd]
        exact Function.update_of_ne hij _ _

/-- What a line of `~TaskDispatcher` is for the workers. -/
theorem follows_destructor {p p' : Pool Task} (hstage : Stage p)
    (hs : p.destructorStep = some p') (i : Nat) : Follows p p' i := by
  have hsize := hstage.size
  rcases destructorStep_cases hs with ⟨hnow, rfl⟩ | ⟨hnow, rfl⟩ | ⟨pc, r, hnow, hr, rfl⟩ |
    ⟨hnow, rfl⟩
  · have hidle : callAt p.dispatcher.main i = .idle := by
      rw [hstage.main (by simp [hnow])]
      rfl
    by_cases hempty : p.remaining = 0
    · refine Or.inl (view_congr rfl ?_ rfl rfl)
      simp [ownerAt, hempty, hnow, hidle]
    · by_cases hi : i + 1 = p.remaining
      · have hin : ¬ (p.remaining ≤ i ∧ i < p.dispatcher.size) := by omega
        have howner : (p.view i).owner = .idle := by simp [view, ownerAt, hin, hnow, hidle]
        refine Or.inr ⟨.destroy, ?_⟩
        rw [OwnedWorker.step, howner]
        simp [view, ownerAt, hempty, hin, hi]
      · refine Or.inl (view_congr rfl ?_ rfl rfl)
        simp [ownerAt, hempty, hnow, hidle, hi]
  · have hidle : callAt p.dispatcher.main i = .idle := by
      rw [hstage.main (by simp [hnow])]
      rfl
    have hpos := hstage.destroy _ hnow
    refine Or.inl (view_congr rfl ?_ rfl rfl)
    by_cases hi : i + 1 = p.remaining
    · have hafter : p.remaining - 1 ≤ i ∧ i < p.dispatcher.size := by omega
      simp [ownerAt, hnow, hi, hafter]
    · have hiff : p.remaining - 1 ≤ i ↔ p.remaining ≤ i := by omega
      simp [ownerAt, hnow, hi, hiff, hidle]
  · have hpos := hstage.destroy _ hnow
    by_cases hi : i + 1 = p.remaining
    · have hat : p.remaining - 1 = i := by omega
      have hin : ¬ (p.remaining ≤ i ∧ i < p.dispatcher.size) := by omega
      have howner : (p.view i).owner = .destroy pc := by simp [view, ownerAt, hnow, hi, hin]
      rw [hat] at hr ⊢
      refine Or.inr ⟨.owner, ?_⟩
      show (p.view i).ownerStep = _
      rw [OwnedWorker.ownerStep, howner]
      refine Option.map_eq_some_iff.mpr ⟨r, hr, ?_⟩
      simp [view, ownerAt, TaskDispatcher.setWorker, hi, hin]
    · refine Or.inl (view_congr ?_ ?_ ?_ rfl)
      · have hne : i ≠ p.remaining - 1 := by omega
        simp [TaskDispatcher.setWorker, hne]
      · simp [ownerAt, hnow, hi, TaskDispatcher.setWorker]
      · rw [ofWorker_append, ofWorker_tagged_of_ne (by omega), List.append_nil]
  · refine Or.inl (view_congr rfl ?_ rfl rfl)
    simp [ownerAt, hnow]

theorem follows_step {p p' : Pool Task} (hstage : Stage p) (hoffered : Offered p)
    {l : PoolLabel Task} (hs : p.step l = some p') (i : Nat) : Follows p p' i := by
  cases l with
  | run l => exact follows_run hstage hoffered hs i
  | destructor => exact follows_destructor hstage hs i
  | shutdown =>
      obtain ⟨⟨hpool, -⟩, hs⟩ := Option.ite_none_right_eq_some.mp hs
      obtain rfl := Option.some.inj hs
      refine Or.inl (view_congr rfl ?_ rfl rfl)
      simp [ownerAt, hpool]

/-! ## Which worker has a task -/

omit [DecidableEq Task] in
theorem not_assigned_threadEvents (w : BackgroundWorker Task) (t : Task) :
    (t, TaskEvent.assigned) ∉ OwnedWorker.threadEvents w := by
  unfold OwnedWorker.threadEvents
  split <;> simp

omit [DecidableEq Task] in
theorem not_assigned_destroyEvents (w : BackgroundWorker Task) (pc : DestroyPc) (t : Task) :
    (t, TaskEvent.assigned) ∉ OwnedWorker.destroyEvents w pc := by
  unfold OwnedWorker.destroyEvents
  split <;> simp

omit [DecidableEq Task] in
theorem mem_tagged {α : Type*} {i j : Nat} {t : Task} {e : α} {events : List (Task × α)} :
    (i, t, e) ∈ tagged j events ↔ i = j ∧ (t, e) ∈ events := by
  simp only [tagged, List.mem_map, Prod.mk.injEq]
  constructor
  · rintro ⟨x, hx, rfl, rfl⟩
    exact ⟨rfl, hx⟩
  · rintro ⟨rfl, hx⟩
    exact ⟨(t, e), hx, rfl, rfl⟩

omit [DecidableEq Task] in
theorem offered_create : Offered (create : Pool Task) := by
  constructor <;> simp [create, TaskDispatcher.create, mainTask]

omit [DecidableEq Task] in
/-- The offers stand as long as no task is stored or handed in, and an accepting call goes on
accepting. -/
theorem Offered.keep {p p' : Pool Task} (h : Offered p)
    (htask : mainTask p'.dispatcher.main = mainTask p.dispatcher.main)
    (haccept : ∀ t i pc, p.dispatcher.main = .tryAssign t i pc → OwnedWorker.Accepting pc →
      ∃ pc', p'.dispatcher.main = .tryAssign t i pc' ∧ OwnedWorker.Accepting pc')
    (hgiven : p'.given = p.given) (hsize : p.dispatcher.size ≤ p'.dispatcher.size)
    (hlog : ∀ i t, (i, t, TaskEvent.assigned) ∈ p'.log ↔ (i, t, TaskEvent.assigned) ∈ p.log) :
    Offered p' where
  given t ht := by
    rw [hgiven]
    exact h.given t (htask.symm.trans ht)
  logged i t hmem := by
    rw [hgiven]
    exact h.logged i t ((hlog i t).mp hmem)
  offering i t hmem ht := by
    obtain ⟨pc, hpc, hacc⟩ := h.offering i t ((hlog i t).mp hmem) (htask.symm.trans ht)
    exact haccept t i pc hpc hacc
  unique i j t hi hj := h.unique i j t ((hlog i t).mp hi) ((hlog j t).mp hj)
  covered t ht := by
    rw [hgiven] at ht
    refine (h.covered t ht).imp (fun h => htask.trans h) ?_
    rintro ⟨i, hi, hmem⟩
    exact ⟨i, by omega, (hlog i t).mpr hmem⟩

omit [DecidableEq Task] in
/-- Once a call accepts, it goes on accepting. -/
theorem accepting_goes_on {w : BackgroundWorker Task} {t : Task} {pc : TryPc}
    (h : OwnedWorker.Accepting pc) : OwnedWorker.Accepting (w.tryAssignStep t pc).2 := by
  cases pc with
  | ret b => exact h
  | signal | unlockTrue => trivial
  | _ => exact h.elim

omit [DecidableEq Task] in
theorem mem_mainEvents {main : MainPc Task} {i : Nat} {t : Task} :
    (i, t, TaskEvent.assigned) ∈ mainEvents main ↔ main = .tryAssign t i .assign := by
  unfold mainEvents
  split
  case h_1 u j pc =>
    rw [mem_tagged]
    cases pc <;> simp [OwnedWorker.tryAssignEvents, eq_comm, and_comm]
  case h_2 hno => simpa using hno t i .assign

theorem Offered.main {p p' : Pool Task} (h : Offered p) (hstage : Stage p)
    (hview : ∀ i, OwnedWorker.Life (p.view i)) (hs : p.runStep .main = some p') :
    Offered p' := by
  obtain ⟨hd, -, -, -, hgiven, hlog, -⟩ := ran_of_runStep hs
  replace hd : p.dispatcher.mainStep = some p'.dispatcher := hd
  obtain ⟨hmove, hsize, -⟩ := mainStep_move hd
  -- only the store into `task_` is recorded
  have hassigned : ∀ i t, (i, t, TaskEvent.assigned) ∈ p'.log ↔
      (i, t, TaskEvent.assigned) ∈ p.log ∨ p.dispatcher.main = .tryAssign t i .assign := by
    intro i t
    rw [hlog, List.mem_append]
    exact or_congr_right mem_mainEvents
  have hkeep : (∀ t i, p.dispatcher.main ≠ .tryAssign t i .assign) → ∀ i t,
      (i, t, TaskEvent.assigned) ∈ p'.log ↔ (i, t, TaskEvent.assigned) ∈ p.log := by
    intro hno i t
    rw [hassigned]
    exact or_iff_left (hno t i)
  cases hmove with
  | quiet _ before _ task =>
      exact h.keep task (fun t i pc hpc => absurd hpc (before t i pc)) hgiven hsize.ge
        (hkeep fun t i => before t i _)
  | offer t i _ before _ after =>
      exact h.keep (by rw [before, after]; rfl) (by simp [before]) hgiven hsize.ge
        (hkeep (by simp [before]))
  | back t i b _ before after =>
      have hlog := hkeep (by simp [before])
      cases b with
      | false =>
          refine h.keep (by rw [before, after]; rfl) ?_ hgiven hsize.ge hlog
          intro u j pc hpc hacc
          rw [before] at hpc
          obtain ⟨-, -, rfl⟩ : t = u ∧ i = j ∧ .ret false = pc := by simpa using hpc
          exact absurd hacc (by simp)
      | true =>
          -- `TryAssign` has stored the task
          have hstored : (i, t, TaskEvent.assigned) ∈ p.log := by
            have hpool := hstage.pool_of_main (by simp [before])
            have howner : (p.view i).owner = .tryAssign t (.ret true) := by
              show p.ownerAt i = _
              rw [ownerAt_pool hstage hpool, before, callAt_self]
            have hhistory := ((hview i).accepted t).mpr
              (Or.inr ⟨_, howner, OwnedWorker.accepting_ret.mpr rfl⟩)
            exact mem_ofWorker.mp ((hview i).accounted.assigned_mem hhistory)
          have hnone : mainTask p'.dispatcher.main = none := by
            rw [after]
            rfl
          refine ⟨by simp [hnone], ?_, by simp [hnone], ?_, ?_⟩
          · intro j u hmem
            rw [hgiven]
            exact h.logged j u ((hlog j u).mp hmem)
          · intro j k u hj hk
            exact h.unique j k u ((hlog j u).mp hj) ((hlog k u).mp hk)
          · intro u hu
            rw [hgiven] at hu
            right
            rcases h.covered u hu with htask | ⟨j, hj, hmem⟩
            · rw [before] at htask
              obtain rfl : t = u := Option.some.inj htask
              exact ⟨i, by rw [hsize]; exact hstage.trying _ _ _ before,
                (hlog i t).mpr hstored⟩
            · exact ⟨j, by omega, (hlog j u).mpr hmem⟩
  | line t i pc before inside _ after =>
      have htask : mainTask p'.dispatcher.main = mainTask p.dispatcher.main := by
        rw [before, after]
        rfl
      have hgoes : ∀ u j pc', p.dispatcher.main = .tryAssign u j pc' →
          OwnedWorker.Accepting pc' →
          ∃ pc'', p'.dispatcher.main = .tryAssign u j pc'' ∧ OwnedWorker.Accepting pc'' := by
        intro u j pc' hpc' hacc
        rw [before] at hpc'
        obtain ⟨rfl, rfl, rfl⟩ : t = u ∧ i = j ∧ pc = pc' := by simpa using hpc'
        exact ⟨_, after, accepting_goes_on hacc⟩
      by_cases hpc : pc = .assign
      · subst hpc
        have hnew : ∀ j u, (j, u, TaskEvent.assigned) ∈ p'.log ↔
            (j, u, TaskEvent.assigned) ∈ p.log ∨ (j = i ∧ u = t) := by
          intro j u
          rw [hassigned, before]
          simp [eq_comm, and_comm]
        have hfresh : ∀ j, (j, t, TaskEvent.assigned) ∉ p.log := by
          intro j hmem
          obtain ⟨pc, hpc, hacc⟩ := h.offering j t hmem (by rw [before]; rfl)
          rw [before] at hpc
          obtain ⟨-, rfl⟩ : i = j ∧ .assign = pc := by simpa using hpc
          exact hacc
        have hmain : mainTask p.dispatcher.main = some t := by
          rw [before]
          rfl
        refine ⟨?_, ?_, ?_, ?_, ?_⟩
        · intro u hu
          rw [hgiven]
          exact h.given u (htask.symm.trans hu)
        · intro j u hmem
          rw [hgiven]
          rcases (hnew j u).mp hmem with hmem | ⟨-, rfl⟩
          · exact h.logged j u hmem
          · exact h.given u hmain
        · intro j u hmem hu
          rcases (hnew j u).mp hmem with hmem | ⟨rfl, rfl⟩
          · obtain ⟨pc', hpc', hacc⟩ := h.offering j u hmem (htask.symm.trans hu)
            exact hgoes u j pc' hpc' hacc
          · exact ⟨_, after, trivial⟩
        · intro j k u hj hk
          rcases (hnew j u).mp hj with hj | ⟨hji, hut⟩
          · rcases (hnew k u).mp hk with hk | ⟨-, hut⟩
            · exact h.unique j k u hj hk
            · rw [hut] at hj
              exact absurd hj (hfresh j)
          · rcases (hnew k u).mp hk with hk | ⟨hki, -⟩
            · rw [hut] at hk
              exact absurd hk (hfresh k)
            · rw [hji, hki]
        · intro u hu
          rw [hgiven] at hu
          refine (h.covered u hu).imp (fun hu => htask.trans hu) ?_
          rintro ⟨j, hj, hmem⟩
          exact ⟨j, by omega, (hnew j u).mpr (Or.inl hmem)⟩
      · refine h.keep htask hgoes hgiven hsize.ge (hkeep ?_)
        intro u j hmain
        rw [before] at hmain
        exact hpc (by simpa using hmain : t = u ∧ i = j ∧ pc = .assign).2.2

theorem Offered.run {p p' : Pool Task} (h : Offered p) (hstage : Stage p)
    (hview : ∀ i, OwnedWorker.Life (p.view i)) {l : DispatchLabel Task}
    (hs : p.runStep l = some p') : Offered p' := by
  have hran := ran_of_runStep hs
  obtain ⟨hd, hcall, -, -, hgiven, hlog, -⟩ := hran
  cases l with
  | main => exact h.main hstage hview hs
  | addWorker =>
      replace hd : p.dispatcher.addWorker = some p'.dispatcher := hd
      unfold TaskDispatcher.addWorker at hd
      split at hd
      case h_2 => cases hd
      case h_1 hidle =>
        have hd := Option.some.inj hd
        refine h.keep ?_ (by simp [hidle]) hgiven ?_ (by simp [hlog, runEvents])
        · rw [hidle, ← hd]
          rfl
        · rw [← hd]
          exact Nat.le_succ _
  | dispatch t =>
      have hnew : t ∉ p.given := by
        have : p.shutdown = .pool ∧ t ∉ p.given := by simpa [mayCall] using hcall
        exact this.2
      replace hd : p.dispatcher.dispatch t = some p'.dispatcher := hd
      unfold TaskDispatcher.dispatch at hd
      split at hd
      case h_2 => cases hd
      case h_1 hidle =>
        have hd := Option.some.inj hd
        replace hgiven : p'.given = t :: p.given := hgiven
        have hsame : p'.log = p.log := by simpa [runEvents] using hlog
        have hmain : mainTask p'.dispatcher.main = some t := by
          rw [← hd]
          rfl
        refine ⟨?_, ?_, ?_, ?_, ?_⟩
        · intro u hu
          rw [hmain] at hu
          rw [hgiven, ← Option.some.inj hu]
          exact List.mem_cons_self
        · intro i u hmem
          rw [hgiven]
          exact List.mem_cons_of_mem _ (h.logged i u (hsame ▸ hmem))
        · intro i u hmem hu
          rw [hmain] at hu
          obtain rfl := Option.some.inj hu
          exact absurd (h.logged i t (hsame ▸ hmem)) hnew
        · rw [hsame]
          exact h.unique
        · intro u hu
          rw [hgiven] at hu
          rcases List.mem_cons.mp hu with rfl | hu
          · exact Or.inl hmain
          · rcases h.covered u hu with hnone | ⟨i, hi, hmem⟩
            · rw [hidle] at hnone
              cases hnone
            · exact Or.inr ⟨i, by rw [← hd]; exact hi, by rw [hsame]; exact hmem⟩
  | mainSem a =>
      obtain ⟨s, -, hd⟩ := Option.map_eq_some_iff.mp hd
      refine h.keep (by rw [← hd]) ?_ hgiven (by rw [← hd]) (by simp [hlog, runEvents])
      rw [← hd]
      exact fun t i pc hpc hacc => ⟨pc, hpc, hacc⟩
  | threadSem i a =>
      obtain ⟨-, hd⟩ := Option.ite_none_right_eq_some.mp hd
      obtain ⟨s, -, hd⟩ := Option.map_eq_some_iff.mp hd
      refine h.keep (by rw [← hd]) ?_ hgiven (by rw [← hd]) (by simp [hlog, runEvents])
      rw [← hd]
      exact fun t i pc hpc hacc => ⟨pc, hpc, hacc⟩
  | spurious i =>
      obtain ⟨-, hd⟩ := Option.ite_none_right_eq_some.mp hd
      obtain ⟨w, -, hd⟩ := Option.map_eq_some_iff.mp hd
      refine h.keep (by rw [← hd]; rfl) ?_ hgiven (by rw [← hd]; rfl) (by simp [hlog, runEvents])
      rw [← hd]
      exact fun t i pc hpc hacc => ⟨pc, hpc, hacc⟩
  | thread i =>
      obtain ⟨-, hd⟩ := Option.ite_none_right_eq_some.mp hd
      obtain ⟨w, -, -, hsize, hmain, -⟩ := threadStep_worker hd
      refine h.keep (by rw [hmain]) ?_ hgiven hsize.ge ?_
      · rw [hmain]
        exact fun t i pc hpc hacc => ⟨pc, hpc, hacc⟩
      · intro j t
        rw [hlog, List.mem_append]
        refine or_iff_left ?_
        rw [runEvents, mem_tagged]
        exact fun hmem => not_assigned_threadEvents _ t hmem.2

theorem Offered.step {p p' : Pool Task} (h : Offered p) (hstage : Stage p)
    (hview : ∀ i, OwnedWorker.Life (p.view i)) {l : PoolLabel Task}
    (hs : p.step l = some p') : Offered p' := by
  have hsame : ∀ t i pc, p.dispatcher.main = .tryAssign t i pc → OwnedWorker.Accepting pc →
      ∃ pc', p.dispatcher.main = .tryAssign t i pc' ∧ OwnedWorker.Accepting pc' :=
    fun t i pc hpc hacc => ⟨pc, hpc, hacc⟩
  cases l with
  | run l => exact h.run hstage hview hs
  | shutdown =>
      obtain ⟨-, hs⟩ := Option.ite_none_right_eq_some.mp hs
      obtain rfl := Option.some.inj hs
      exact h.keep rfl hsame rfl le_rfl fun _ _ => Iff.rfl
  | destructor =>
      rcases destructorStep_cases hs with ⟨-, rfl⟩ | ⟨-, rfl⟩ | ⟨pc, r, -, -, rfl⟩ | ⟨-, rfl⟩
      · exact h.keep rfl hsame rfl le_rfl fun _ _ => Iff.rfl
      · exact h.keep rfl hsame rfl le_rfl fun _ _ => Iff.rfl
      · refine h.keep rfl hsame rfl le_rfl fun i t => ?_
        rw [List.mem_append]
        refine or_iff_left ?_
        rw [mem_tagged]
        exact fun hmem => not_assigned_destroyEvents _ _ t hmem.2
      · exact h.keep rfl hsame rfl le_rfl fun _ _ => Iff.rfl

/-! ## The end of the pool -/

/-- The invariant of the pool. -/
structure Inv (p : Pool Task) : Prop where
  stage : Stage p
  sem : SemSafe p.dispatcher
  offered : Offered p
  view : ∀ i, (OwnedWorker.system Task).Reachable (p.view i)

theorem inv_create : Inv (create : Pool Task) where
  stage := stage_create
  sem := semSafe_create
  offered := offered_create
  view i := by
    have hview : (create : Pool Task).view i = OwnedWorker.create := by
      simp [view, ownerAt, callAt, create, TaskDispatcher.create, OwnedWorker.create]
    rw [hview]
    exact Transition.System.ReachableVia.init

theorem Inv.step {p p' : Pool Task} (h : Inv p) {l : PoolLabel Task}
    (hs : p.step l = some p') : Inv p' where
  stage := h.stage.step hs
  sem := h.sem.step h.stage hs
  offered := h.offered.step h.stage (fun i => OwnedWorker.life_of_reachable (h.view i)) hs
  view i := by
    rcases follows_step h.stage h.offered hs i with hsame | ⟨e, he⟩
    · rw [hsame]
      exact h.view i
    · exact Transition.System.ReachableVia.step (h.view i) trivial he

theorem inv_of_reachable {p : Pool Task} (h : (system Task).Reachable p) : Inv p :=
  h.invariant Inv inv_create fun _ _ _ hi hs => hi.step hs

/-- What was done with a task, and by which worker. -/
def history (p : Pool Task) (t : Task) : List (Nat × TaskEvent) :=
  (p.log.filter fun e => e.2.1 = t).map fun e => (e.1, e.2.2)

/-- A worker that has not stored a task does nothing with it. -/
theorem Inv.stored {p : Pool Task} (h : Inv p) {i : Nat} {t : Task} {e : TaskEvent}
    (hmem : (i, t, e) ∈ p.log) : (i, t, TaskEvent.assigned) ∈ p.log := by
  have hlife := OwnedWorker.life_of_reachable (h.view i)
  refine mem_ofWorker.mp (hlife.accounted.assigned_mem ?_)
  have hview : (t, e) ∈ (p.view i).log := mem_ofWorker.mpr hmem
  have hhistory : e ∈ (p.view i).history t :=
    List.mem_map.mpr ⟨(t, e), List.mem_filter.mpr ⟨hview, by simp⟩, rfl⟩
  exact List.ne_nil_of_mem hhistory

/-- The worker that has stored a task is the only one that does anything with it. -/
theorem Inv.history_eq {p : Pool Task} (h : Inv p) {i : Nat} {t : Task}
    (hmem : (i, t, TaskEvent.assigned) ∈ p.log) :
    p.history t = ((p.view i).history t).map fun e => (i, e) := by
  have hworker : ∀ e ∈ p.log, e.2.1 = t → e.1 = i := by
    rintro ⟨j, u, e⟩ he hu
    obtain rfl : u = t := hu
    exact h.offered.unique j i u (h.stored he) hmem
  have hfilter : p.log.filter (fun e => e.2.1 = t) =
      (p.log.filter fun e => e.1 = i).filter fun e => e.2.1 = t := by
    rw [List.filter_filter]
    refine List.filter_congr ?_
    intro e he
    by_cases hu : e.2.1 = t
    · simp [hu, hworker e he hu]
    · simp [hu]
  have hindex : ∀ e ∈ (p.log.filter fun e => e.1 = i).filter fun e => e.2.1 = t, e.1 = i := by
    intro e he
    simpa using (List.mem_filter.mp (List.mem_filter.mp he).1).2
  have hlog : (p.view i).log = ofWorker i p.log := rfl
  unfold history OwnedWorker.history OwnedWorker.historyIn
  rw [hlog, ofWorker, hfilter, List.filter_map, List.map_map, List.map_map]
  refine List.map_congr_left ?_
  intro e he
  rw [hindex e he]
  rfl

/-- A worker that was deleted has left its thread function. -/
theorem Inv.deleted {p : Pool Task} (h : Inv p) {i : Nat}
    (hi : p.remaining ≤ i) (hsize : i < p.dispatcher.size) :
    (p.view i).owner = .destroy .destroyed ∧ (p.dispatcher.workers i).pc = .exited := by
  have howner : (p.view i).owner = .destroy .destroyed := by
    show p.ownerAt i = _
    simp [ownerAt, hi, hsize]
  have hknows := (OwnedWorker.life_of_reachable (h.view i)).control.ownerKnows
  rw [howner] at hknows
  exact ⟨howner, hknows.2⟩

/-- **Every task once.**  When the destructor of the pool has returned, each task that was
given to `Dispatch` was executed by one worker, from its assignment to its deletion, or
was assigned to one worker and discarded, and nobody else has touched it. -/
theorem shutdown_tasks {p : Pool Task} (hp : (system Task).Reachable p)
    (hgone : p.shutdown = .gone) {t : Task} (ht : t ∈ p.given) :
    ∃ i < p.dispatcher.size,
      p.history t = OwnedWorker.executed.map (fun e => (i, e)) ∨
        p.history t = OwnedWorker.discarded.map fun e => (i, e) := by
  have h := inv_of_reachable hp
  have hidle := h.stage.main (by simp [hgone])
  rcases h.offered.covered t ht with hnone | ⟨i, hi, hmem⟩
  · rw [hidle] at hnone
    cases hnone
  · refine ⟨i, hi, ?_⟩
    have hempty := h.stage.empty (Or.inr hgone)
    obtain ⟨howner, -⟩ := h.deleted (i := i) (by omega) hi
    have hlife := OwnedWorker.life_of_reachable (h.view i)
    have hsettled := hlife.destroyed howner t
    have hview : (t, TaskEvent.assigned) ∈ (p.view i).log := mem_ofWorker.mpr hmem
    have hne : (p.view i).history t ≠ [] := by
      have hin : TaskEvent.assigned ∈ (p.view i).history t :=
        List.mem_map.mpr ⟨_, List.mem_filter.mpr ⟨hview, by simp⟩, rfl⟩
      exact List.ne_nil_of_mem hin
    rw [h.history_eq hmem]
    rcases hsettled with hnil | hexecuted | hdiscarded
    · exact absurd hnil hne
    · exact Or.inl (by rw [hexecuted])
    · exact Or.inr (by rw [hdiscarded])

/-- **Nothing is used after it was deleted.**  No thread of a worker that was deleted takes a
step, and when the semaphore is deleted nobody is inside it or waits for it. -/
theorem shutdown_safe {p : Pool Task} (hp : (system Task).Reachable p) :
    (∀ i, p.remaining ≤ i → i < p.dispatcher.size →
      p.step (.run (.thread i)) = none ∧ p.step (.run (.spurious i)) = none ∧
        ∀ a, p.step (.run (.threadSem i a)) = none) ∧
      (p.shutdown = .deleteSemaphore ∨ p.shutdown = .gone →
        p.dispatcher.semaphore.lock = none ∧ p.dispatcher.semaphore.waiters = [] ∧
          ∀ q, p.dispatcher.semaphore.pc q = .out) := by
  have h := inv_of_reachable hp
  have hout : ∀ i, (p.dispatcher.workers i).pc = .exited ∨
      (p.dispatcher.workers i).pc = .start → p.dispatcher.semaphore.pc (.worker i) = .out := by
    intro i hpc
    by_contra hne
    obtain ⟨y, hy⟩ := (h.sem.worker i hne).1
    rcases hpc with hpc | hpc <;> simp [hpc] at hy
  have hwaiters : ∀ i, Party.worker i ∉ p.dispatcher.semaphore.waiters := by
    intro i hmem
    have := (h.sem.waiters _ hmem).1
    cases this
  refine ⟨fun i hi hsize => ?_, fun hlast => ?_⟩
  · obtain ⟨-, hexited⟩ := h.deleted hi hsize
    have hsem := hout i (Or.inl hexited)
    refine ⟨?_, ?_, fun a => ?_⟩
    · simp [step, runStep, TaskDispatcher.step, TaskDispatcher.threadStep, hexited,
        BackgroundWorker.threadStep]
    · simp [step, runStep, TaskDispatcher.step, hexited, BackgroundWorker.spuriousWake]
    · have hnone : p.dispatcher.semaphore.step (.worker i) a = none := by
        cases a with
        | run => simp [Semaphore.step, Semaphore.runStep, hsem]
        | wake j => cases j <;> simp [Semaphore.step, hsem]
        | spurious => simp [Semaphore.step, hwaiters i]
      simp [step, runStep, TaskDispatcher.step, hnone]
  · have hempty := h.stage.empty hlast
    have hidle := h.stage.main (by rcases hlast with hlast | hlast <;> simp [hlast])
    have hall : ∀ q, p.dispatcher.semaphore.pc q = .out := by
      intro q
      cases q with
      | main =>
          have hfits := h.sem.main
          rwa [hidle] at hfits
      | worker i =>
          refine hout i ?_
          by_cases hsize : i < p.dispatcher.size
          · exact Or.inl (h.deleted (by omega) hsize).2
          · right
            rw [h.stage.fresh i (by omega)]
            rfl
    refine ⟨?_, ?_, hall⟩
    · by_contra hlock
      obtain ⟨q, hq⟩ := Option.ne_none_iff_exists'.mp hlock
      have hholds := (h.sem.sound.lock q).mp hq
      rw [hall q] at hholds
      exact hholds
    · refine List.eq_nil_iff_forall_not_mem.mpr fun q hq => ?_
      have hcond := (h.sem.waiters q hq).2
      rw [hall] at hcond
      cases hcond

/-- A worker is added and a task assigned to it, before its thread has started. -/
def addAndDispatch : List (PoolLabel Nat) :=
  [.run .addWorker, .run (.mainSem .run), .run (.mainSem .run), .run (.mainSem (.wake none)),
    .run (.mainSem .run), .run .main, .run (.dispatch 7)] ++
    List.replicate 4 (.run (.mainSem .run)) ++ List.replicate 9 (.run .main)

/-- The destructor takes the task back, and the thread starts and leaves. -/
def takeBack : List (PoolLabel Nat) :=
  .shutdown :: List.replicate 8 .destructor ++ List.replicate 3 (.run (.thread 0)) ++
    List.replicate 4 .destructor

theorem shutdown_tasks_seven :
    ∃ p, (system Nat).runFrom create (addAndDispatch ++ takeBack) = some p ∧
      p.shutdown = .gone ∧ 7 ∈ p.given ∧
      ∃ i < p.dispatcher.size,
        p.history 7 = OwnedWorker.executed.map (fun e => (i, e)) ∨
          p.history 7 = OwnedWorker.discarded.map fun e => (i, e) := by
  obtain ⟨p, hrun, hgone, hgiven⟩ :
      ∃ p, (system Nat).runFrom create (addAndDispatch ++ takeBack) = some p ∧
        p.shutdown = .gone ∧ 7 ∈ p.given :=
    ⟨_, rfl, by decide, by decide⟩
  have hreach : (system Nat).Reachable p := Transition.System.reachable_of_run hrun
  exact ⟨p, hrun, hgone, hgiven, shutdown_tasks hreach hgone hgiven⟩

theorem shutdown_safe_one :
    ∃ p, (system Nat).runFrom create (addAndDispatch ++ takeBack) = some p ∧
      p.step (.run (.thread 0)) = none ∧ p.dispatcher.semaphore.lock = none := by
  obtain ⟨p, hrun, hgone, hsize, hremaining⟩ :
      ∃ p, (system Nat).runFrom create (addAndDispatch ++ takeBack) = some p ∧
        p.shutdown = .gone ∧ p.dispatcher.size = 1 ∧ p.remaining = 0 :=
    ⟨_, rfl, by decide, by decide, by decide⟩
  have hreach : (system Nat).Reachable p := Transition.System.reachable_of_run hrun
  obtain ⟨hthreads, hlast⟩ := shutdown_safe hreach
  obtain ⟨hthread, -, -⟩ := hthreads 0 (by omega) (by omega)
  exact ⟨p, hrun, hthread, (hlast (Or.inr hgone)).1⟩

end Pool

end ThreadedServer
