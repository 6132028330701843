import ThreadedServer.Transition

/-!
# Two programs on a connection

A connection carries values in both directions, each in order.  A program sends values,
receives as many as it asks for and goes on with them, or halts; while it receives, what
has arrived is handed out to it in any pieces.

Neither of two such programs can find out how its values were cut or which of the two was
faster: receiving is all they wait for, and what they receive was sent for them alone.
So their runs are on the way to one and the same end, if there is a run that has one, and
none of them can go on forever.
-/

namespace Dialogue

open Transition

variable {β ρ τ : Type*}

/-- A program that ends with a result. -/
inductive Proc (β ρ : Type*)
  | send (values : List β) (next : Proc β ρ)
  | receive (length : Nat) (next : List β → Proc β ρ)
  | halt (result : ρ)

/-- A program in the middle of its run, with what it has received since it began to. -/
structure Party (β ρ : Type*) where
  proc : Proc β ρ
  received : List β

/-- What a program can do next. -/
inductive Move
  /-- it sends, or has received all that it asked for -/
  | goesOn
  /-- so many values are handed out to it -/
  | recv (k : Nat)
  deriving DecidableEq, Repr

namespace Party

/-- A program that is about to begin. -/
def start (proc : Proc β ρ) : Party β ρ := ⟨proc, []⟩

/-- The program is waiting for values. -/
def waiting (p : Party β ρ) : Bool :=
  match p.proc with
  | .receive length _ => decide (p.received.length < length)
  | _ => false

/-- A step, with the values on their way to the program; the program after it, what is still
on its way, and what has been sent. -/
def step (p : Party β ρ) (wire : List β) : Move → Option (Party β ρ × List β × List β)
  | .goesOn =>
      match p.proc with
      | .send values next => some (start next, wire, values)
      | .receive length next =>
          if p.received.length < length then none else some (start (next p.received), wire, [])
      | .halt _ => none
  | .recv k =>
      match p.proc with
      | .receive length _ =>
          if 0 < k ∧ k ≤ wire.length ∧ p.received.length + k ≤ length then
            some ({ p with received := p.received ++ wire.take k }, wire.drop k, [])
          else none
      | _ => none

/-- The step when values are handed out one by one. -/
def move (p : Party β ρ) : Move := if p.waiting then .recv 1 else .goesOn

section Step

variable {p : Party β ρ} {wire : List β} {m : Move} {k : Nat}
  {r : Party β ρ × List β × List β}

/-- Values are handed out to a program that receives. -/
theorem recv_cases (h : p.step wire (.recv k) = some r) :
    ∃ length next, p.proc = .receive length next ∧
      (0 < k ∧ k ≤ wire.length ∧ p.received.length + k ≤ length) ∧
      r = ({ p with received := p.received ++ wire.take k }, wire.drop k, []) := by
  rw [step] at h
  cases hproc : p.proc with
  | send values next => simp [hproc] at h
  | halt result => simp [hproc] at h
  | receive length next =>
      simp only [hproc] at h
      obtain ⟨hk, h⟩ := Option.ite_none_right_eq_some.mp h
      exact ⟨length, next, rfl, hk, (Option.some.inj h).symm⟩

/-- What arrives later makes no difference to a step that can be taken. -/
theorem step_append (h : p.step wire m = some r) (more : List β) :
    p.step (wire ++ more) m = some (r.1, r.2.1 ++ more, r.2.2) := by
  cases m with
  | goesOn =>
      rw [step] at h ⊢
      cases hproc : p.proc with
      | send values next =>
          simp only [hproc] at h ⊢
          obtain rfl := Option.some.inj h
          rfl
      | receive length next =>
          simp only [hproc] at h ⊢
          obtain ⟨hall, h⟩ := Option.ite_none_left_eq_some.mp h
          obtain rfl := Option.some.inj h
          rw [if_neg hall]
      | halt result => simp [hproc] at h
  | recv k =>
      obtain ⟨length, next, hproc, ⟨hpos, hle, hlength⟩, rfl⟩ := recv_cases h
      have hle' : k ≤ (wire ++ more).length := by
        rw [List.length_append]
        omega
      simp only [step, hproc]
      rw [if_pos ⟨hpos, hle', hlength⟩, List.take_append_of_le_length hle,
        List.drop_append_of_le_length hle]

/-- A program that goes on has not been waiting. -/
theorem move_goesOn (h : p.step wire .goesOn = some r) : p.move = .goesOn := by
  rw [step] at h
  rw [move, waiting]
  cases hproc : p.proc with
  | send values next => rfl
  | halt result => rfl
  | receive length next =>
      simp only [hproc] at h ⊢
      obtain ⟨hall, -⟩ := Option.ite_none_left_eq_some.mp h
      simp [hall]

/-- The first of several values is handed out, and then the others. -/
theorem recv_split (h : p.step wire (.recv (k + 1)) = some r) :
    p.move = .recv 1 ∧ ∃ q, p.step wire (.recv 1) = some q ∧
      (k = 0 ∧ q = r ∨ q.2.2 = [] ∧ q.1.step q.2.1 (.recv k) = some r) := by
  obtain ⟨length, next, hproc, ⟨-, hle, hlength⟩, rfl⟩ := recv_cases h
  have hmove : p.move = .recv 1 := by
    have hlt : p.received.length < length := by omega
    simp [move, waiting, hproc, hlt]
  have hfirst : p.step wire (.recv 1) =
      some ({ p with received := p.received ++ wire.take 1 }, wire.drop 1, []) := by
    simp only [step, hproc]
    rw [if_pos ⟨Nat.one_pos, by omega, by omega⟩]
  refine ⟨hmove, _, hfirst, ?_⟩
  rcases Nat.eq_zero_or_pos k with rfl | hpos
  · exact .inl ⟨rfl, rfl⟩
  · refine .inr ⟨rfl, ?_⟩
    have htake : (wire.take 1).length = 1 := by
      rw [List.length_take]
      omega
    have hrest : k ≤ (wire.drop 1).length := by
      rw [List.length_drop]
      omega
    have hroom : (p.received ++ wire.take 1).length + k ≤ length := by
      rw [List.length_append, htake]
      omega
    simp only [step, hproc]
    rw [if_pos ⟨hpos, hrest, hroom⟩, List.append_assoc, ← List.take_add, List.drop_drop,
      Nat.add_comm 1 k]

/-- A program takes what it has asked for all at once, -/
theorem recv_all {length : Nat} {next : List β → Proc β ρ} {values : List β}
    (hlength : values.length = length) (hne : values ≠ []) (wire : List β) :
    (start (.receive length next)).step (values ++ wire) (.recv length) =
      some (⟨.receive length next, values⟩, wire, []) := by
  have hpos := List.length_pos_iff.mpr hne
  have hguard : 0 < length ∧ length ≤ (values ++ wire).length ∧ ([] : List β).length + length ≤
      length := by
    rw [List.length_append, List.length_nil]
    omega
  have hrecv : (start (.receive length next)).step (values ++ wire) (.recv length) =
      some (⟨.receive length next, [] ++ (values ++ wire).take length⟩,
        (values ++ wire).drop length, []) := if_pos hguard
  rw [hrecv, List.take_left' hlength, List.drop_left' hlength, List.nil_append]

/-- and goes on with it. -/
theorem returns {length : Nat} {next : List β → Proc β ρ} {values : List β}
    (hlength : values.length = length) (wire : List β) :
    (⟨.receive length next, values⟩ : Party β ρ).step wire .goesOn =
      some (start (next values), wire, []) := by
  simp only [step]
  rw [if_neg (by omega)]

/-- A program that has halted does nothing more. -/
theorem step_halt {result : ρ} (h : p.proc = .halt result) : p.step wire m = none := by
  cases m <;> simp [step, h]

end Step

end Party

/-! ## The connection -/

/-- The two sides of a connection. -/
inductive Side
  | left
  | right
  deriving DecidableEq, Repr

/-- Two programs and the values on their way to each of them. -/
structure Session (β ρ τ : Type*) where
  left : Party β ρ
  right : Party β τ
  toLeft : List β
  toRight : List β

namespace Session

/-- Both programs are about to begin. -/
def create (left : Proc β ρ) (right : Proc β τ) : Session β ρ τ where
  left := .start left
  right := .start right
  toLeft := []
  toRight := []

def step (s : Session β ρ τ) : Side × Move → Option (Session β ρ τ)
  | (.left, m) => (s.left.step s.toLeft m).map fun r =>
      { s with left := r.1, toLeft := r.2.1, toRight := s.toRight ++ r.2.2 }
  | (.right, m) => (s.right.step s.toRight m).map fun r =>
      { s with right := r.1, toRight := r.2.1, toLeft := s.toLeft ++ r.2.2 }

/-- The two programs under all orders of steps and all ways of cutting what they receive. -/
def system (left : Proc β ρ) (right : Proc β τ) : System (Session β ρ τ) (Side × Move) where
  init := create left right
  step := step

/-- The step of a side, when values are handed out one by one. -/
def fineLabel (s : Session β ρ τ) : Side → Side × Move
  | .left => (.left, s.left.move)
  | .right => (.right, s.right.move)

/-- The two programs, when values are handed out one by one. -/
def fine (left : Proc β ρ) (right : Proc β τ) : System (Session β ρ τ) Side where
  init := create left right
  step := fun s side => s.step (s.fineLabel side)

section Determined

variable {left : Proc β ρ} {right : Proc β τ} {s t f : Session β ρ τ}

/-- Steps of the two sides commute. -/
theorem fine_diamond : (fine left right : System (Session β ρ τ) Side).Diamond := by
  have hsides : ∀ s t u : Session β ρ τ, s.step (s.fineLabel .left) = some t →
      s.step (s.fineLabel .right) = some u →
      ∃ v, t.step (t.fineLabel .right) = some v ∧ u.step (u.fineLabel .left) = some v := by
    intro s t u ht hu
    obtain ⟨r, hr, rfl⟩ := Option.map_eq_some_iff.mp ht
    obtain ⟨q, hq, rfl⟩ := Option.map_eq_some_iff.mp hu
    refine ⟨⟨r.1, q.1, r.2.1 ++ q.2.2, q.2.1 ++ r.2.2⟩, ?_, ?_⟩
    · exact Option.map_eq_some_iff.mpr ⟨_, Party.step_append hq r.2.2, rfl⟩
    · exact Option.map_eq_some_iff.mpr ⟨_, Party.step_append hr q.2.2, rfl⟩
  intro s d e t u ht hu
  cases d with
  | left =>
      cases e with
      | left => exact .inl (Option.some.inj (ht.symm.trans hu))
      | right => exact .inr (hsides s t u ht hu)
  | right =>
      cases e with
      | left =>
          obtain ⟨v, huv, htv⟩ := hsides s u t hu ht
          exact .inr ⟨v, htv, huv⟩
      | right => exact .inl (Option.some.inj (ht.symm.trans hu))

/-- The first of several values is handed out to a side, and then the others. -/
theorem recv_split {side : Side} {k : Nat} (h : s.step (side, .recv (k + 1)) = some t) :
    s.fineLabel side = (side, .recv 1) ∧ ∃ u, s.step (side, .recv 1) = some u ∧
      (u = t ∨ u.step (side, .recv k) = some t) := by
  cases side with
  | left =>
      obtain ⟨r, hr, rfl⟩ := Option.map_eq_some_iff.mp h
      obtain ⟨hmove, q, hq, hrest⟩ := Party.recv_split hr
      refine ⟨congrArg (Prod.mk Side.left) hmove, _, Option.map_eq_some_iff.mpr ⟨q, hq, rfl⟩, ?_⟩
      rcases hrest with ⟨-, rfl⟩ | ⟨hnone, hlater⟩
      · exact .inl rfl
      · refine .inr (Option.map_eq_some_iff.mpr ⟨r, hlater, ?_⟩)
        rw [hnone, List.append_nil]
  | right =>
      obtain ⟨r, hr, rfl⟩ := Option.map_eq_some_iff.mp h
      obtain ⟨hmove, q, hq, hrest⟩ := Party.recv_split hr
      refine ⟨congrArg (Prod.mk Side.right) hmove, _, Option.map_eq_some_iff.mpr ⟨q, hq, rfl⟩, ?_⟩
      rcases hrest with ⟨-, rfl⟩ | ⟨hnone, hlater⟩
      · exact .inl rfl
      · refine .inr (Option.map_eq_some_iff.mpr ⟨r, hlater, ?_⟩)
        rw [hnone, List.append_nil]

/-- A step is made of steps that hand out one value. -/
theorem step_fine (left : Proc β ρ) (right : Proc β τ) {l : Side × Move}
    (h : s.step l = some t) :
    ∃ es, (fine left right).runFrom s es = some t ∧ 0 < es.length := by
  obtain ⟨side, m⟩ := l
  cases m with
  | goesOn =>
      have hlabel : s.fineLabel side = (side, .goesOn) := by
        cases side with
        | left =>
            obtain ⟨r, hr, -⟩ := Option.map_eq_some_iff.mp h
            exact congrArg (Prod.mk Side.left) (Party.move_goesOn hr)
        | right =>
            obtain ⟨r, hr, -⟩ := Option.map_eq_some_iff.mp h
            exact congrArg (Prod.mk Side.right) (Party.move_goesOn hr)
      have hstep : (fine left right).step s side = some t := by
        show s.step (s.fineLabel side) = some t
        rw [hlabel, h]
      exact ⟨[side], Option.bind_eq_some_iff.mpr ⟨t, hstep, rfl⟩, Nat.one_pos⟩
  | recv k =>
      induction k generalizing s with
      | zero =>
          cases side <;>
          · obtain ⟨r, hr, -⟩ := Option.map_eq_some_iff.mp h
            obtain ⟨-, -, -, ⟨hpos, -⟩, -⟩ := Party.recv_cases hr
            cases hpos
      | succ k ih =>
          obtain ⟨hlabel, u, hu, hrest⟩ := recv_split h
          have hstep : (fine left right).step s side = some u := by
            show s.step (s.fineLabel side) = some u
            rw [hlabel, hu]
          rcases hrest with rfl | hlater
          · exact ⟨[side], Option.bind_eq_some_iff.mpr ⟨u, hstep, rfl⟩, Nat.one_pos⟩
          · obtain ⟨es, hes, -⟩ := ih hlater
            exact ⟨side :: es, Option.bind_eq_some_iff.mpr ⟨u, hstep, hes⟩, Nat.succ_pos _⟩

theorem run_fine {ls : List (Side × Move)} (h : (system left right).runFrom s ls = some t) :
    ∃ es, (fine left right).runFrom s es = some t ∧ ls.length ≤ es.length := by
  induction ls generalizing s with
  | nil =>
      obtain rfl : s = t := Option.some.inj h
      exact ⟨[], rfl, Nat.le_refl 0⟩
  | cons l ls ih =>
      obtain ⟨u, hu, hrest⟩ := Option.bind_eq_some_iff.mp h
      obtain ⟨es, hes, hpos⟩ := step_fine left right hu
      obtain ⟨fs, hfs, hlength⟩ := ih hrest
      refine ⟨es ++ fs, ?_, ?_⟩
      · rw [System.runFrom_append, hes, Option.bind_some, hfs]
      · rw [List.length_cons, List.length_append]
        omega

/-- Handing out values one by one is one way of cutting them. -/
theorem leads_of_fine {es : List Side} (h : (fine left right).runFrom s es = some t) :
    (system left right).Leads s t := by
  induction es generalizing s with
  | nil =>
      obtain rfl : s = t := Option.some.inj h
      exact .refl s
  | cons e es ih =>
      obtain ⟨u, hu, hrest⟩ := Option.bind_eq_some_iff.mp h
      exact .head hu (ih hrest)

/-- Both programs have halted, with these results. -/
def Ended (s : Session β ρ τ) (result : ρ) (result' : τ) : Prop :=
  s.left.proc = .halt result ∧ s.right.proc = .halt result'

theorem Ended.no_step {result : ρ} {result' : τ} (h : f.Ended result result')
    (l : Side × Move) : f.step l = none := by
  obtain ⟨side, m⟩ := l
  cases side with
  | left => rw [step, Party.step_halt h.1, Option.map_none]
  | right => rw [step, Party.step_halt h.2, Option.map_none]

/-- What a program has ended with stays. -/
theorem step_halted {l : Side × Move} (h : s.step l = some t) :
    (∀ result, s.left.proc = .halt result → t.left.proc = .halt result) ∧
      ∀ result, s.right.proc = .halt result → t.right.proc = .halt result := by
  obtain ⟨side, m⟩ := l
  cases side with
  | left =>
      obtain ⟨r, hr, rfl⟩ := Option.map_eq_some_iff.mp h
      refine ⟨fun result hresult => ?_, fun result hresult => hresult⟩
      rw [Party.step_halt hresult] at hr
      cases hr
  | right =>
      obtain ⟨r, hr, rfl⟩ := Option.map_eq_some_iff.mp h
      refine ⟨fun result hresult => hresult, fun result hresult => ?_⟩
      rw [Party.step_halt hresult] at hr
      cases hr

/-- **One end.**  Where some run has an end, every run can be continued to it, none is longer
than a bound that holds for all of them, and a program that halts does so with the result
that it has there. -/
theorem determined {result : ρ} {result' : τ} (hended : f.Ended result result')
    (hleads : (system left right).Leads (create left right) f) :
    ∃ bound, ∀ ls t, (system left right).runFrom (create left right) ls = some t →
      (system left right).Leads t f ∧ ls.length ≤ bound ∧
      (∀ r, t.left.proc = .halt r → r = result) ∧
      ∀ r, t.right.proc = .halt r → r = result' := by
  obtain ⟨ms, hms⟩ := hleads
  obtain ⟨es, hes, -⟩ := run_fine hms
  refine ⟨es.length, ?_⟩
  intro ls t hls
  obtain ⟨ds, hds, hlength⟩ := run_fine hls
  have hend : ∀ e, (fine left right).step f e = none := fun e => hended.no_step (f.fineLabel e)
  obtain ⟨fs, hfs, hsum⟩ := fine_diamond.run hend hes hds
  have hleads := leads_of_fine hfs
  obtain ⟨ns, hns⟩ := hleads
  refine ⟨⟨ns, hns⟩, by omega, ?_, ?_⟩
  · intro r hr
    have hstays := System.runFrom_invariant (fun s : Session β ρ τ => s.left.proc = .halt r)
      (fun s l t hs hstep => (step_halted hstep).1 r hs) hr hns
    exact Proc.halt.inj (hstays.symm.trans hended.1)
  · intro r hr
    have hstays := System.runFrom_invariant (fun s : Session β ρ τ => s.right.proc = .halt r)
      (fun s l t hs hstep => (step_halted hstep).2 r hs) hr hns
    exact Proc.halt.inj (hstays.symm.trans hended.2)

end Determined

/-! ## The rules of a dialogue -/

section Rules

variable {left : Proc β ρ} {right : Proc β τ} {next : Proc β ρ} {next' : Proc β τ}
  {p : Party β ρ} {q : Party β τ} {toLeft toRight values : List β}

/-- The left side sends. -/
theorem leads_send_left :
    (system left right).Leads ⟨.start (.send values next), q, toLeft, toRight⟩
      ⟨.start next, q, toLeft, toRight ++ values⟩ :=
  ⟨[(.left, .goesOn)], rfl⟩

/-- The right side sends. -/
theorem leads_send_right :
    (system left right).Leads ⟨p, .start (.send values next'), toLeft, toRight⟩
      ⟨p, .start next', toLeft ++ values, toRight⟩ :=
  ⟨[(.right, .goesOn)], rfl⟩

/-- The left side receives what is on its way. -/
theorem leads_receive_left {length : Nat} {next : List β → Proc β ρ}
    (hlength : values.length = length) :
    (system left right).Leads ⟨.start (.receive length next), q, values ++ toLeft, toRight⟩
      ⟨.start (next values), q, toLeft, toRight⟩ := by
  have hreturns : (system left right).step ⟨⟨.receive length next, values⟩, q, toLeft, toRight⟩
      (.left, .goesOn) = some ⟨.start (next values), q, toLeft, toRight⟩ := by
    refine Option.map_eq_some_iff.mpr ⟨_, Party.returns hlength toLeft, ?_⟩
    rw [List.append_nil]
  rcases eq_or_ne values [] with rfl | hne
  · exact .head hreturns (.refl _)
  · refine .head (e := (.left, .recv length)) ?_ (.head hreturns (.refl _))
    refine Option.map_eq_some_iff.mpr ⟨_, Party.recv_all hlength hne toLeft, ?_⟩
    rw [List.append_nil]

/-- The right side receives what is on its way. -/
theorem leads_receive_right {length : Nat} {next' : List β → Proc β τ}
    (hlength : values.length = length) :
    (system left right).Leads ⟨p, .start (.receive length next'), toLeft, values ++ toRight⟩
      ⟨p, .start (next' values), toLeft, toRight⟩ := by
  have hreturns : (system left right).step ⟨p, ⟨.receive length next', values⟩, toLeft, toRight⟩
      (.right, .goesOn) = some ⟨p, .start (next' values), toLeft, toRight⟩ := by
    refine Option.map_eq_some_iff.mpr ⟨_, Party.returns hlength toRight, ?_⟩
    rw [List.append_nil]
  rcases eq_or_ne values [] with rfl | hne
  · exact .head hreturns (.refl _)
  · refine .head (e := (.right, .recv length)) ?_ (.head hreturns (.refl _))
    refine Option.map_eq_some_iff.mpr ⟨_, Party.recv_all hlength hne toRight, ?_⟩
    rw [List.append_nil]

end Rules

end Session

end Dialogue
