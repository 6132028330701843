import ThreadedServer.ClientSession
import ThreadedServer.Descriptors

/-!
# The server process

The workers of the pool serve their clients independently, but they are threads of one
process, and so is the accept loop that hands the clients to them.  The process ends with
the session that reaches an `exit`, an assertion or an exception; with the accept loop,
when no descriptor is left or `Dispatch` finds no worker; and with it all the other
sessions.

The sessions are isolated from each other as long as nobody gives the process a reason to
end: as long as no connection fails that something is received from or sent to, packets
are of the types and lengths that the server expects, the decoder gets through the audio,
there is a descriptor for each client, and no offer of a task meets a worker's own thread
on the mutex at the last chance.
-/

namespace ThreadedServer

/-- The accept loop with its pool, and the clients.  A client is known by the descriptor of
its connection, which is that of its `SocketTask`; no descriptor is ever used again. -/
structure ServerProcess where
  server : ServerDescriptors
  clients : Nat → ClientSession
  alive : Bool

inductive ProcessLabel
  /-- a step of the accept loop or of a worker's thread, outside `Work()` -/
  | server (l : ServerLabel)
  /-- a step of a client -/
  | client (sock : Nat) (l : WorkLabel)
  /-- a step of worker `i` inside `Work()`, for this client -/
  | work (i sock : Nat) (l : WorkLabel)

namespace ServerDescriptors

/-- Neither `accept` nor the assertion of `Dispatch` has ended the process. -/
def Running (s : ServerDescriptors) : Prop :=
  s.died = false ∧ ∀ t, s.dispatcher.main ≠ .assertFailed t

instance (s : ServerDescriptors) : Decidable s.Running :=
  match h : s.dispatcher.main with
  | .assertFailed t => .isFalse fun hrun => hrun.2 t h
  | .idle | .addSignal | .wait _ | .setObserver _ | .loop _ _ | .tryAssign _ _ _ =>
      decidable_of_iff (s.died = false) ⟨fun hdied => ⟨hdied, by simp [h]⟩, And.left⟩

end ServerDescriptors

namespace ServerProcess

open TaskDispatcher Transition

/-- The client that worker `i` is inside `Work()` with. -/
def servedBy (d : TaskDispatcher Nat) (i : Nat) : Option Nat :=
  if i < d.size then
    match (d.workers i).pc with
    | .working => (d.workers i).task
    | _ => none
  else none

/-- `Work()` returns when its session is over. -/
def mayStep (p : ServerProcess) : ServerLabel → Bool
  | .pool (.thread i) =>
      match servedBy p.server.dispatcher i with
      | some sock => (p.clients sock).work.pc = .returned
      | none => true
  | _ => true

def setClient (p : ServerProcess) (sock : Nat) (c : ClientSession) : ServerProcess :=
  { p with clients := Function.update p.clients sock c }

@[simp] theorem setClient_self (p : ServerProcess) (sock : Nat) (c : ClientSession) :
    (p.setClient sock c).clients sock = c := Function.update_self _ _ _

@[simp] theorem setClient_of_ne (p : ServerProcess) {sock sock' : Nat} (h : sock' ≠ sock)
    (c : ClientSession) : (p.setClient sock c).clients sock' = p.clients sock' :=
  Function.update_of_ne h _ _

def create : ServerProcess where
  server := .create
  clients := fun _ => .create
  alive := true

section Steps

variable (decodes : List (List Byte) → Bool) (limit : Nat)

/-- A step of the process, which has none when it has ended; what follows when memory is
overrun is undefined. -/
def step (p : ServerProcess) (l : ProcessLabel) : Option ServerProcess :=
  if p.alive then
    match l with
    | .server l =>
        if p.mayStep l then
          (p.server.step limit l).map fun server => { p with server, alive := server.Running }
        else none
    | .client sock l =>
        if sock ∈ p.server.accepted ∧ ClientSession.byClient l = true then
          ((p.clients sock).step decodes l).map (p.setClient sock)
        else none
    | .work i sock l =>
        if servedBy p.server.dispatcher i = some sock ∧ ClientSession.byClient l = false then
          ((p.clients sock).step decodes l).map fun c =>
            { p.setClient sock c with alive := c.work.Running }
        else none
  else none

/-- The process with room for this many clients. -/
def system : System ServerProcess ProcessLabel where
  init := create
  step := step decodes limit

/-- The condition on a step: there is a descriptor for the client, the offer of a task does
not meet the worker's thread on the mutex at the last chance, and the server can count on
the client. -/
def Served (p : ServerProcess) : ProcessLabel → Prop
  | .server (.accept _) => p.server.openFds.length < limit
  | .server (.pool _) => ¬ Contended p.server.dispatcher
  | .client _ _ => True
  | .work _ sock l => (p.clients sock).Orderly decodes l

instance (p : ServerProcess) (l : ProcessLabel) : Decidable (Served decodes limit p l) :=
  match l with
  | .server (.accept _) => inferInstanceAs (Decidable (_ < _))
  | .server (.pool _) => inferInstanceAs (Decidable (¬ Contended _))
  | .client _ _ => inferInstanceAs (Decidable True)
  | .work _ _ _ => inferInstanceAs (Decidable (ClientSession.Orderly _ _ _))

end Steps

variable {decodes : List (List Byte) → Bool} {limit : Nat} {p q : ServerProcess}
  {l : ProcessLabel}

/-! ## What a step can do -/

theorem step_cases (h : p.step decodes limit l = some q) :
    p.alive = true ∧
      ((∃ sl server, l = .server sl ∧ p.mayStep sl = true ∧
          p.server.step limit sl = some server ∧
          q = { p with server, alive := server.Running }) ∨
        (∃ sock wl c, l = .client sock wl ∧ ClientSession.byClient wl = true ∧
          (p.clients sock).step decodes wl = some c ∧ q = p.setClient sock c) ∨
        ∃ i sock wl c, l = .work i sock wl ∧ servedBy p.server.dispatcher i = some sock ∧
          ClientSession.byClient wl = false ∧ (p.clients sock).step decodes wl = some c ∧
          q = { p.setClient sock c with alive := c.work.Running }) := by
  obtain ⟨halive, h⟩ := Option.ite_none_right_eq_some.mp h
  refine ⟨halive, ?_⟩
  cases l with
  | server sl =>
      obtain ⟨hmay, h⟩ := Option.ite_none_right_eq_some.mp h
      obtain ⟨server, hserver, rfl⟩ := Option.map_eq_some_iff.mp h
      exact Or.inl ⟨sl, server, rfl, hmay, hserver, rfl⟩
  | client sock wl =>
      obtain ⟨⟨-, hclient⟩, h⟩ := Option.ite_none_right_eq_some.mp h
      obtain ⟨c, hc, rfl⟩ := Option.map_eq_some_iff.mp h
      exact Or.inr (Or.inl ⟨sock, wl, c, rfl, hclient, hc, rfl⟩)
  | work i sock wl =>
      obtain ⟨⟨hserved, hclient⟩, h⟩ := Option.ite_none_right_eq_some.mp h
      obtain ⟨c, hc, rfl⟩ := Option.map_eq_some_iff.mp h
      exact Or.inr (Or.inr ⟨i, sock, wl, c, rfl, hserved, hclient, hc, rfl⟩)

theorem dead_stuck (h : p.alive = false) (l : ProcessLabel) : p.step decodes limit l = none :=
  if_neg (by simp [h])

theorem leads_step {u : ServerProcess} (hs : p.step decodes limit l = some q)
    (h : (system decodes limit).Leads q u) : (system decodes limit).Leads p u :=
  System.Leads.head (e := l) (show (system decodes limit).step p l = some q from hs) h

/-- The accept loop and the pool go through a run of their own. -/
theorem server_reachable (h : (system decodes limit).Reachable p) :
    (ServerDescriptors.system limit).Reachable p.server := by
  refine h.invariant
    (fun p : ServerProcess => (ServerDescriptors.system limit).Reachable p.server)
    (show (ServerDescriptors.system limit).Reachable .create from System.ReachableVia.init) ?_
  intro p l q hp hs
  obtain ⟨-, ⟨sl, server, rfl, -, hserver, rfl⟩ | ⟨sock, wl, c, rfl, -, -, rfl⟩ |
    ⟨i, sock, wl, c, rfl, -, -, -, rfl⟩⟩ := step_cases hs
  · exact .step hp trivial hserver
  · exact hp
  · exact hp

theorem running_of_alive (h : (system decodes limit).Reachable p) (halive : p.alive = true) :
    p.server.Running := by
  refine h.invariant (fun p : ServerProcess => p.alive = true → p.server.Running) ?_ ?_ halive
  · exact fun _ => ⟨rfl, by simp [system, create, ServerDescriptors.create, TaskDispatcher.create]⟩
  · intro p l q hp hs
    obtain ⟨halive, ⟨sl, server, rfl, -, -, rfl⟩ | ⟨sock, wl, c, rfl, -, -, rfl⟩ |
      ⟨i, sock, wl, c, rfl, -, -, -, rfl⟩⟩ := step_cases hs
    · exact of_decide_eq_true
    · exact fun _ => hp halive
    · exact fun _ => hp halive

/-! ## Isolation -/

/-- The step of a client's session in a step of the process. -/
def sessionLabel (sock : Nat) : ProcessLabel → Option WorkLabel
  | .server _ => none
  | .client sock' l => if sock' = sock then some l else none
  | .work _ sock' l => if sock' = sock then some l else none

/-- A session moves by its own steps only. -/
theorem sessions_project {es : List ProcessLabel} (sock : Nat)
    (h : (system decodes limit).runFrom p es = some q) :
    (ClientSession.system decodes).runFrom (p.clients sock)
      (es.filterMap (sessionLabel sock)) = some (q.clients sock) := by
  refine System.runFrom_project (fun p : ServerProcess => p.clients sock) ?_ ?_ h
  · intro p l q wl hs hl
    obtain ⟨-, ⟨sl, server, rfl, -, -, rfl⟩ | ⟨sock', wl', c, rfl, -, hc, rfl⟩ |
      ⟨i, sock', wl', c, rfl, -, -, hc, rfl⟩⟩ := step_cases hs
    · cases hl
    all_goals
      obtain ⟨rfl, rfl⟩ : sock' = sock ∧ wl' = wl := by simpa [sessionLabel] using hl
      exact hc.trans (congrArg some (setClient_self p sock' c).symm)
  · intro p l q hs hl
    obtain ⟨-, ⟨sl, server, rfl, -, -, rfl⟩ | ⟨sock', wl', c, rfl, -, -, rfl⟩ |
      ⟨i, sock', wl', c, rfl, -, -, -, rfl⟩⟩ := step_cases hs
    · rfl
    all_goals
      have hne : sock' ≠ sock := by simpa [sessionLabel] using hl
      exact setClient_of_ne p hne.symm c

/-- As long as the steps meet the condition, the dispatcher meets that of its own, and the
server can count on every session. -/
structure Sound (decodes : List (List Byte) → Bool) (p : ServerProcess) : Prop where
  alive : p.alive = true
  uncontended : (TaskDispatcher.system Nat).ReachableVia (fun d _ => ¬ Contended d)
    p.server.dispatcher
  clients : ∀ sock, (p.clients sock).Sound decodes

theorem sound_create : Sound decodes create where
  alive := rfl
  uncontended := System.ReachableVia.init
  clients _ := ClientSession.sound_create decodes

theorem Sound.setClient (h : Sound decodes p) {sock : Nat} {c : ClientSession}
    (hc : c.Sound decodes) (sock' : Nat) : ((p.setClient sock c).clients sock').Sound decodes := by
  by_cases heq : sock' = sock
  · subst heq
    rwa [setClient_self]
  · rw [setClient_of_ne p heq]
    exact h.clients sock'

/-- **One step.**  A step that meets the condition keeps the process alive. -/
theorem Sound.step (h : Sound decodes p) (hok : Served decodes limit p l)
    (hs : p.step decodes limit l = some q) : Sound decodes q := by
  obtain ⟨-, ⟨sl, server, rfl, -, hserver, rfl⟩ | ⟨sock, wl, c, rfl, hclient, hc, rfl⟩ |
    ⟨i, sock, wl, c, rfl, -, -, hc, rfl⟩⟩ := step_cases hs
  · obtain ⟨hdied, hcases⟩ := ServerDescriptors.step_cases hserver
    obtain ⟨hdied', huncontended⟩ : server.died = false ∧
        (TaskDispatcher.system Nat).ReachableVia (fun d _ => ¬ Contended d)
          server.dispatcher := by
      rcases hcases with ⟨sock, dispatcher, rfl, hdispatch, -, -, rfl⟩ |
        ⟨sock, rfl, -, hfull, rfl⟩ | ⟨m, rfl, -, hpool⟩
      · have hidle : ¬ Contended p.server.dispatcher := by
          rintro ⟨t, i, hmain, -⟩
          rw [(holds_dispatch hdispatch).1] at hmain
          cases hmain
        exact ⟨hdied, .step h.uncontended hidle (e := .dispatch sock) hdispatch⟩
      · exact absurd hok (by simpa [Served] using hfull)
      · obtain ⟨dispatcher, hstep, rfl⟩ := Option.map_eq_some_iff.mp hpool
        exact ⟨hdied, .step h.uncontended hok hstep⟩
    exact ⟨decide_eq_true ⟨hdied', not_assertFailed_of_uncontended huncontended⟩, huncontended,
      h.clients⟩
  · have hquiet : ClientSession.Orderly decodes (p.clients sock) wl := by
      cases wl with
      | clientSends bytes | clientCloses => trivial
      | _ => cases hclient
    exact ⟨h.alive, h.uncontended, h.setClient ((h.clients sock).step hquiet hc)⟩
  · have hsound := (h.clients sock).step hok hc
    exact ⟨decide_eq_true hsound.running, h.uncontended, h.setClient hsound⟩

theorem sound_of_served (h : (system decodes limit).ReachableVia (Served decodes limit) p) :
    Sound decodes p :=
  h.invariant (Sound decodes) sound_create fun _ _ _ _ hok hi hs => hi.step hok hs

/-! ## Done -/

/-- The dispatcher has moved. -/
def withPool (p : ServerProcess) (d : TaskDispatcher Nat) : ServerProcess :=
  { p with server := { p.server with dispatcher := d } }

theorem running_withPool (hrun : p.server.Running) {d : TaskDispatcher Nat}
    (hmain : d.main = p.server.dispatcher.main) : (p.withPool d).server.Running :=
  ⟨hrun.1, fun t => hmain ▸ hrun.2 t⟩

/-- A step of the pool that deletes no task. -/
theorem step_pool (halive : p.alive = true) (hrun : p.server.Running) {m : DispatchLabel Nat}
    {d : TaskDispatcher Nat} (hmay : p.mayStep (.pool m) = true) (hm : ∀ t, m ≠ .dispatch t)
    (hstep : p.server.dispatcher.step m = some d)
    (hdelete : deletedTask p.server.dispatcher m = none) :
    p.step decodes limit (.server (.pool m)) =
      some { p.withPool d with alive := (p.withPool d).server.Running } := by
  have hserver : p.server.step limit (.pool m) = some { p.server with dispatcher := d } := by
    have hpool : p.server.pool m = some { p.server with dispatcher := d } := by
      rw [ServerDescriptors.pool, hstep, hdelete]
      rfl
    have hlive : ¬ p.server.died = true := by simp [hrun.1]
    cases m with
    | dispatch t => exact absurd rfl (hm t)
    | _ => exact (if_neg hlive).trans hpool
  rw [step, if_pos halive]
  dsimp only
  rw [if_pos hmay, hserver]
  rfl

/-- It keeps the process alive where it leaves the accept loop alone. -/
theorem step_quiet (halive : p.alive = true) (hrun : p.server.Running) {m : DispatchLabel Nat}
    {d : TaskDispatcher Nat} (hmay : p.mayStep (.pool m) = true) (hm : ∀ t, m ≠ .dispatch t)
    (hstep : p.server.dispatcher.step m = some d)
    (hdelete : deletedTask p.server.dispatcher m = none)
    (hmain : d.main = p.server.dispatcher.main) :
    p.step decodes limit (.server (.pool m)) = some (p.withPool d) := by
  rw [step_pool halive hrun hmay hm hstep hdelete, decide_eq_true (running_withPool hrun hmain),
    ← halive]
  rfl

/-- A line of `worker_func` before `task->Done()`. -/
theorem step_line {i : Nat} {w w' : BackgroundWorker Nat} (halive : p.alive = true)
    (hrun : p.server.Running) (hi : i < p.server.dispatcher.size)
    (hw : p.server.dispatcher.workers i = w) (hstep : w.threadStep = some w')
    (hmay : p.mayStep (.pool (.thread i)) = true)
    (hpc : w.pc = .working ∨ w.pc = .take ∨ ∃ x, w.pc = .clear x) :
    p.step decodes limit (.server (.pool (.thread i))) =
      some (p.withPool (p.server.dispatcher.setWorker i w')) := by
  subst hw
  refine step_quiet halive hrun hmay (by simp) ?_ ?_ rfl
  · have hline : p.server.dispatcher.threadStep i =
        some (p.server.dispatcher.setWorker i w') := by
      rw [TaskDispatcher.threadStep]
      rcases hpc with hpc | hpc | ⟨x, hpc⟩ <;> simp [hpc, hstep]
    rw [TaskDispatcher.step, if_pos hi, hline]
  · rcases hpc with hpc | hpc | ⟨x, hpc⟩ <;> simp [deletedTask, hpc]

theorem mayStep_outside {i : Nat} (h : (p.server.dispatcher.workers i).pc ≠ .working) :
    p.mayStep (.pool (.thread i)) = true := by
  have hnone : servedBy p.server.dispatcher i = none := by
    unfold servedBy
    split
    · split
      case h_1 hpc => exact absurd hpc h
      case h_2 => rfl
    · rfl
  simp [mayStep, hnone]

/-- The line that calls `Done()` of a task whose observer is the dispatcher. -/
theorem step_done {i sock : Nat} {m : Option Holder} {en : Bool} (halive : p.alive = true)
    (hrun : p.server.Running) (hi : i < p.server.dispatcher.size)
    (hw : p.server.dispatcher.workers i = ⟨m, none, en, .done (some sock)⟩)
    (hobserved : p.server.dispatcher.observer sock = true) :
    p.step decodes limit (.server (.pool (.thread i))) =
      some (p.withPool { p.server.dispatcher.setWorker i ⟨m, none, en, .inDone (some sock)⟩ with
        semaphore := p.server.dispatcher.semaphore.signal (.worker i) }) := by
  refine step_quiet halive hrun (mayStep_outside (by simp [hw])) (by simp) ?_ ?_ rfl
  · rw [TaskDispatcher.step, if_pos hi, TaskDispatcher.threadStep]
    simp only [hw, BackgroundWorker.threadStep, Option.map_some]
    exact congrArg some (if_pos hobserved)
  · simp [deletedTask, hw]

/-- A line of `Signal`. -/
theorem step_signal {i : Nat} {s : Semaphore Party} (halive : p.alive = true)
    (hrun : p.server.Running) (hi : i < p.server.dispatcher.size)
    (hs : p.server.dispatcher.semaphore.step (.worker i) .run = some s) :
    p.step decodes limit (.server (.pool (.threadSem i .run))) =
      some (p.withPool { p.server.dispatcher with semaphore := s }) := by
  refine step_quiet halive hrun rfl (by simp) ?_ rfl rfl
  rw [TaskDispatcher.step, if_pos hi, hs]
  rfl

/-- The steps of worker `i` from the return of `Work()` to the raised semaphore. -/
def returnPermit (i : Nat) : List ProcessLabel :=
  List.replicate 4 (.server (.pool (.thread i))) ++
    List.replicate 2 (.server (.pool (.threadSem i .run)))

/-- **Done.**  When `Work()` is over, the worker's thread calls `Done()` and raises the
semaphore, as soon as that is not locked; nobody else is concerned. -/
theorem returns_permit (hp : (system decodes limit).Reachable p) (halive : p.alive = true)
    {i sock : Nat} (hserved : servedBy p.server.dispatcher i = some sock)
    (hover : (p.clients sock).work.pc = .returned)
    (hfree : p.server.dispatcher.semaphore.lock = none) :
    ∃ q, (system decodes limit).runFrom p (returnPermit i) = some q ∧ q.alive = true ∧
      q.clients = p.clients ∧
      (q.server.dispatcher.workers i).task = none ∧
      (∀ j, j ≠ i → q.server.dispatcher.workers j = p.server.dispatcher.workers j) ∧
      q.server.dispatcher.semaphore.counter = p.server.dispatcher.semaphore.counter + 1 := by
  have hrun := running_of_alive hp halive
  have hinv := (ServerDescriptors.inv_of_reachable (server_reachable hp)).pool.worker i
  have hmay : p.mayStep (.pool (.thread i)) = true := by
    simp [mayStep, hserved, hover]
  unfold servedBy at hserved
  obtain ⟨hi, hserved⟩ := Option.ite_none_right_eq_some.mp hserved
  split at hserved
  case h_2 => cases hserved
  case h_1 hpc =>
    have hobserved := hinv.observed sock (Or.inl hserved)
    generalize hw : p.server.dispatcher.workers i = w at hpc hserved
    obtain ⟨m, x, en, pc⟩ := w
    obtain rfl : x = some sock := hserved
    obtain rfl : pc = .working := hpc
    -- up to the call of `Done()`
    let d₁ := p.server.dispatcher.setWorker i ⟨m, some sock, en, .take⟩
    let d₂ := d₁.setWorker i ⟨m, some sock, en, .clear (some sock)⟩
    let d₃ := d₂.setWorker i ⟨m, none, en, .done (some sock)⟩
    have hw₁ : d₁.workers i = ⟨m, some sock, en, .take⟩ := Function.update_self _ _ _
    have hw₂ : d₂.workers i = ⟨m, some sock, en, .clear (some sock)⟩ := Function.update_self _ _ _
    have hw₃ : d₃.workers i = ⟨m, none, en, .done (some sock)⟩ := Function.update_self _ _ _
    have h₁ : p.step decodes limit (.server (.pool (.thread i))) =
        some (p.withPool d₁) := step_line halive hrun hi hw rfl hmay (Or.inl rfl)
    have h₂ : (p.withPool d₁).step decodes limit (.server (.pool (.thread i))) =
        some (p.withPool d₂) := by
      refine step_line halive (running_withPool hrun rfl) hi hw₁ rfl (mayStep_outside ?_)
        (Or.inr (Or.inl rfl))
      exact fun hpc => by cases (congrArg BackgroundWorker.pc hw₁).symm.trans hpc
    have h₃ : (p.withPool d₂).step decodes limit (.server (.pool (.thread i))) =
        some (p.withPool d₃) := by
      refine step_line halive (running_withPool hrun rfl) hi hw₂ rfl (mayStep_outside ?_)
        (Or.inr (Or.inr ⟨_, rfl⟩))
      exact fun hpc => by cases (congrArg BackgroundWorker.pc hw₂).symm.trans hpc
    let d₄ := { d₃.setWorker i ⟨m, none, en, .inDone (some sock)⟩ with
      semaphore := p.server.dispatcher.semaphore.signal (.worker i) }
    have h₄ : (p.withPool d₃).step decodes limit (.server (.pool (.thread i))) =
        some (p.withPool d₄) :=
      step_done halive (running_withPool hrun rfl) hi hw₃ hobserved
    -- the semaphore
    let locked : Semaphore Party := { d₄.semaphore with lock := some (.worker i) }
    let s₅ := locked.goto (.worker i) .signalRaise
    let raised : Semaphore Party := { s₅ with counter := s₅.counter + 1 }
    let s₆ := raised.goto (.worker i) .signalCond
    have hlock : d₄.semaphore.step (.worker i) .run = some s₅ := by
      have hpc : d₄.semaphore.pc (.worker i) = .signalLock := Function.update_self _ _ _
      rw [Semaphore.step, Semaphore.runStep, hpc]
      exact if_pos hfree
    have hraise : s₅.step (.worker i) .run = some s₆ := by
      have hpc : s₅.pc (.worker i) = .signalRaise := Function.update_self _ _ _
      rw [Semaphore.step, Semaphore.runStep, hpc]
    have h₅ : (p.withPool d₄).step decodes limit
        (.server (.pool (.threadSem i .run))) =
          some (p.withPool { d₄ with semaphore := s₅ }) :=
      step_signal halive (running_withPool hrun rfl) hi hlock
    have h₆ : (p.withPool { d₄ with semaphore := s₅ }).step decodes limit
        (.server (.pool (.threadSem i .run))) =
          some (p.withPool { d₄ with semaphore := s₆ }) :=
      step_signal halive (running_withPool hrun rfl) hi hraise
    refine ⟨p.withPool { d₄ with semaphore := s₆ }, ?_, halive, rfl, ?_, fun j hj => ?_, rfl⟩
    · show (system decodes limit).runFrom p [_, _, _, _, _, _] = _
      rw [System.runFrom_cons h₁, System.runFrom_cons h₂, System.runFrom_cons h₃,
        System.runFrom_cons h₄, System.runFrom_cons h₅, System.runFrom_cons h₆]
      rfl
    · show (Function.update d₃.workers i _ i).task = none
      rw [Function.update_self]
    · show Function.update (Function.update (Function.update (Function.update _ i _) i _) i _) i _ j
        = _
      simp only [Function.update_idem, Function.update_of_ne hj]

/-! ## The end of the process -/

/-- The accept loop goes on by itself to the failing assertion. -/
theorem ends_by_main (n : Nat) {d : TaskDispatcher Nat} {t : Nat} (halive : p.alive = true)
    (hrun : p.server.Running)
    (h : (TaskDispatcher.system Nat).runFrom p.server.dispatcher (List.replicate n .main) = some d)
    (hd : d.main = .assertFailed t) :
    ∃ u, (system decodes limit).Leads p u ∧ u.alive = false := by
  induction n generalizing p with
  | zero =>
      obtain rfl := Option.some.inj h
      exact absurd hd (hrun.2 t)
  | succ n ih =>
      obtain ⟨e, he, hrest⟩ := Option.bind_eq_some_iff.mp h
      have hstep : p.step decodes limit (.server (.pool .main)) =
          some { p.withPool e with alive := (p.withPool e).server.Running } :=
        step_pool halive hrun rfl (by simp) he rfl
      by_cases hnext : (p.withPool e).server.Running
      · obtain ⟨u, hu, hdead⟩ := ih
          (p := { p.withPool e with alive := (p.withPool e).server.Running })
          (decide_eq_true hnext) hnext hrest
        exact ⟨u, leads_step hstep hu, hdead⟩
      · exact ⟨_, leads_step hstep (System.Leads.refl _), decide_eq_false hnext⟩

/-- A session goes on by itself to the end of the process. -/
theorem ends_by_session {i sock : Nat} {es : List WorkLabel} {c : ClientSession}
    (halive : p.alive = true) (hserved : servedBy p.server.dispatcher i = some sock)
    (hes : ∀ e ∈ es, ClientSession.byClient e = false)
    (h : (ClientSession.system decodes).runFrom (p.clients sock) es = some c)
    (hnow : (p.clients sock).work.Running) (hc : ¬ c.work.Running) :
    ∃ u, (system decodes limit).Leads p u ∧ u.alive = false := by
  induction es generalizing p with
  | nil =>
      obtain rfl := Option.some.inj h
      exact absurd hnow hc
  | cons e es ih =>
      obtain ⟨b, hb, hrest⟩ := Option.bind_eq_some_iff.mp h
      have hstep : p.step decodes limit (.work i sock e) =
          some { p.setClient sock b with alive := b.work.Running } := by
        rw [step, if_pos halive]
        dsimp only
        rw [if_pos ⟨hserved, hes e List.mem_cons_self⟩]
        exact congrArg (Option.map _) hb
      by_cases hnext : b.work.Running
      · have hself : (p.setClient sock b).clients sock = b := setClient_self p sock b
        obtain ⟨u, hu, hdead⟩ := ih (p := { p.setClient sock b with alive := b.work.Running })
          (decide_eq_true hnext) hserved (fun e he => hes e (List.mem_cons_of_mem _ he))
          (by simpa using hrest) (by simpa using hnext)
        exact ⟨u, leads_step hstep hu, hdead⟩
      · exact ⟨_, leads_step hstep (System.Leads.refl _), decide_eq_false hnext⟩

/-- Wherever a step does not meet the condition, the process may come to its end. -/
theorem ends_of_not_served (hp : (system decodes limit).Reachable p)
    (hs : p.step decodes limit l = some q) (hno : ¬ Served decodes limit p l) :
    ∃ u, (system decodes limit).Leads p u ∧ u.alive = false := by
  obtain ⟨halive, ⟨sl, server, rfl, -, hserver, rfl⟩ | ⟨sock, wl, c, rfl, -, -, rfl⟩ |
    ⟨i, sock, wl, c, rfl, hserved, hwork, hc, rfl⟩⟩ := step_cases hs
  · cases sl with
    | accept sock =>
        have hdied : server.died = true := by
          obtain ⟨-, ⟨_, _, -, -, hroom, -, -⟩ | ⟨_, -, -, -, rfl⟩ | ⟨m, hm, -⟩⟩ :=
            ServerDescriptors.step_cases hserver
          · exact absurd hroom hno
          · rfl
          · cases hm
        have hdead : ¬ server.Running := by
          intro hrun
          have hlive := hrun.1
          rw [hdied] at hlive
          cases hlive
        exact ⟨_, leads_step hs (System.Leads.refl _), decide_eq_false hdead⟩
    | pool m =>
        obtain ⟨d, t, ⟨n, hn⟩, hd⟩ := contended_fails (Decidable.not_not.mp hno)
        exact ends_by_main n halive (running_of_alive hp halive) hn hd
  · exact absurd trivial hno
  · by_cases hnext : c.work.Running
    · obtain ⟨es, b, hes, hrun, hb⟩ := ClientSession.ended_of_not_orderly hno hc
      have hends : ∃ u, (system decodes limit).Leads
          { p.setClient sock c with alive := c.work.Running } u ∧ u.alive = false :=
        ends_by_session (decide_eq_true hnext) hserved hes (by simpa using hrun)
          (by simpa using hnext) hb
      obtain ⟨u, hu, hdead⟩ := hends
      exact ⟨u, leads_step hs hu, hdead⟩
    · exact ⟨_, leads_step hs (System.Leads.refl _), decide_eq_false hnext⟩

/-- Two workers, each inside `Work()` with a client. -/
def twoBusy : List ProcessLabel :=
  (ServerDescriptors.addWorkerSteps ++ ServerDescriptors.addWorkerSteps ++
    ServerDescriptors.acceptSteps 4 ++ ServerLabel.accept 5 ::
      (List.replicate 4 (.mainSem .run) ++ List.replicate 14 .main ++
        List.replicate 5 (.thread 0) ++ List.replicate 5 (.thread 1) :
          List (DispatchLabel Nat)).map .pool).map .server

/-- The first one sends features instead of a wave, which `Work` refuses. -/
def invalidRequest : List ProcessLabel :=
  .client 4 (.clientSends (sendPacket .decodeRequest 1 [0] ++ sendPacket .dataFeature 0 [])) ::
    ([.recv 8, .received false, .recv 1, .received false, .send, .send, .recv 8,
      .received false] : List WorkLabel).map (.work 0 4)

end ServerProcess

end ThreadedServer
