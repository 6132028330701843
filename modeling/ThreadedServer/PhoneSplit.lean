import Mathlib.Data.List.Basic
import Mathlib.Tactic.Common

/-!
# Splitting an alignment into phones

An alignment is the sequence of transition identifiers along a path.  Each state of
a phone's model is visited once: some turns of its self loop and one transition
that leaves it, the self loops first, or last in a graph that was built with the
transitions reordered.  `SplitToPhones` guesses the order from the alignment, and
cuts behind every final transition; in a reordered graph the self loops that follow
the final transition belong to the phone as well.

What is cut is always the whole alignment, into non-empty parts of one phone each.
The result tells whether every part is a complete instance of its phone, and an
alignment that is made of complete instances is cut back into these.
-/

namespace ThreadedServer

/-- What the splitting reads of the acoustic model's `TransitionModel`. -/
structure TransitionModel where
  transitionIdToTransitionState : Nat → Nat
  isSelfLoop : Nat → Bool
  isFinal : Nat → Bool
  transitionStateToPhone : Nat → Nat
  transitionStateToHmmState : Nat → Nat

namespace TransitionModel

/-- `TransitionIdToPhone` -/
def transitionIdToPhone (m : TransitionModel) (tid : Nat) : Nat :=
  m.transitionStateToPhone (m.transitionIdToTransitionState tid)

/-- The loop of `IsReordered`: `none` where its assertion fails, and otherwise what it
returns, if it returns from inside the loop. -/
def scanReordered (m : TransitionModel) : List Nat → Option (Option Bool)
  | tid :: next :: rest =>
      if m.transitionIdToTransitionState tid ≠ m.transitionIdToTransitionState next then
        if m.isSelfLoop tid && m.isSelfLoop next then none
        else if m.isSelfLoop tid then some (some true)
        else if m.isSelfLoop next then some (some false)
        else m.scanReordered (next :: rest)
      else m.scanReordered (next :: rest)
  | _ => some none

/-- `IsReordered` -/
def isReordered (m : TransitionModel) (alignment : List Nat) : Option Bool := do
  match ← m.scanReordered alignment with
  | some answer => some answer
  | none =>
      match alignment.head?, alignment.getLast? with
      | some front, some back =>
          if m.isSelfLoop front then some false
          else if m.isSelfLoop back then some true
          else some false
      | _, _ => some false

/-- The inner loop of `SplitToPhonesInternal`: how many self loops follow.  `none` where the
assertion on their states fails. -/
def skipSelfLoops (m : TransitionModel) (tid : Nat) : List Nat → Option Nat
  | [] => some 0
  | next :: rest =>
      if m.isSelfLoop next then
        if m.transitionIdToTransitionState tid = m.transitionIdToTransitionState next then
          (m.skipSelfLoops next rest).map (· + 1)
        else none
      else some 0

/-- The first loop of `SplitToPhonesInternal`, from position `i` on, where `rest` is left
of the alignment: `was_ok` and the end points. -/
def endPoints (m : TransitionModel) (reordered : Bool) (i : Nat) :
    List Nat → Option (Bool × List Nat)
  | [] => some (true, [])
  | tid :: rest =>
      if m.isFinal tid then
        if reordered then do
          let skipped ← m.skipSelfLoops tid rest
          let (wasOk, ends) ← m.endPoints reordered (i + skipped + 1) (rest.drop skipped)
          some (wasOk, (i + skipped + 1) :: ends)
        else do
          let (wasOk, ends) ← m.endPoints reordered (i + 1) rest
          some (wasOk, (i + 1) :: ends)
      else
        match rest with
        | [] => some (false, [i + 1])
        | next :: rest =>
            let thisState := m.transitionIdToTransitionState tid
            let nextState := m.transitionIdToTransitionState next
            if thisState = nextState then m.endPoints reordered (i + 1) (next :: rest)
            else if m.transitionStateToPhone thisState ≠ m.transitionStateToPhone nextState then do
              let (_, ends) ← m.endPoints reordered (i + 1) (next :: rest)
              some (false, (i + 1) :: ends)
            else m.endPoints reordered (i + 1) (next :: rest)
  termination_by rest => rest.length
  decreasing_by all_goals simp only [List.length_cons, List.length_drop]; omega

/-- The second loop of `SplitToPhonesInternal`: the parts, and whether each begins in the
first state of a phone.  `none` is a read beyond the end of the alignment. -/
def cutAt (m : TransitionModel) (alignment : List Nat) (curPoint : Nat) :
    List Nat → Option (Bool × List (List Nat))
  | [] => some (true, [])
  | e :: ends => do
      let first ← alignment[curPoint]?
      let (wasOk, parts) ← m.cutAt alignment e ends
      some ((m.transitionStateToHmmState (m.transitionIdToTransitionState first) == 0) && wasOk,
        ((alignment.drop curPoint).take (e - curPoint)) :: parts)

/-- `SplitToPhonesInternal` -/
def splitToPhonesInternal (m : TransitionModel) (alignment : List Nat) (reordered : Bool) :
    Option (Bool × List (List Nat)) := do
  if alignment = [] then some (true, [])
  else
    let (wasOk, ends) ← m.endPoints reordered 0 alignment
    let (initialOk, parts) ← m.cutAt alignment 0 ends
    some (wasOk && initialOk, parts)

/-- `SplitToPhones` -/
def splitToPhones (m : TransitionModel) (alignment : List Nat) :
    Option (Bool × List (List Nat)) := do
  m.splitToPhonesInternal alignment (← m.isReordered alignment)

/-! ## What a part looks like -/

/-- All transitions belong to one phone. -/
def OnePhone (m : TransitionModel) (part : List Nat) : Prop :=
  ∀ tid ∈ part, ∀ other ∈ part, m.transitionIdToPhone tid = m.transitionIdToPhone other

/-- The part runs up to its only final transition, and in a reordered graph on to the self
loops of the last state. -/
def Closed (m : TransitionModel) (reordered : Bool) (part : List Nat) : Prop :=
  ∃ body last loops, part = body ++ last :: loops ∧
    (∀ tid ∈ body, m.isFinal tid = false) ∧ m.isFinal last = true ∧
    (∀ tid ∈ loops, m.isSelfLoop tid = true ∧
      m.transitionIdToTransitionState tid = m.transitionIdToTransitionState last) ∧
    (reordered = false → loops = [])

/-- The part begins in the first state of a phone. -/
def Initial (m : TransitionModel) (part : List Nat) : Prop :=
  ∀ tid ∈ part.head?, m.transitionStateToHmmState (m.transitionIdToTransitionState tid) = 0

/-- A complete instance of a phone. -/
structure PhoneInstance (m : TransitionModel) (reordered : Bool) (part : List Nat) : Prop where
  onePhone : m.OnePhone part
  initial : m.Initial part
  closed : m.Closed reordered part

/-- Behind a final transition of a reordered graph the next phone cannot begin with a self
loop. -/
def Leaves (m : TransitionModel) (reordered : Bool) (rest : List Nat) : Prop :=
  reordered = true → ∀ next ∈ rest.head?, m.isSelfLoop next = false

/-- The end points of parts that lie behind each other, from position `i` on. -/
def endsOf (i : Nat) : List (List Nat) → List Nat
  | [] => []
  | part :: parts => (i + part.length) :: endsOf (i + part.length) parts

variable {m : TransitionModel}

theorem Closed.ne_nil {reordered : Bool} {part : List Nat} (h : m.Closed reordered part) :
    part ≠ [] := by
  obtain ⟨body, last, loops, rfl, -⟩ := h
  simp

/-- A transition that is not final goes on with its part. -/
theorem closed_cons_iff {reordered : Bool} {tid : Nat} {part : List Nat}
    (htid : m.isFinal tid = false) :
    m.Closed reordered (tid :: part) ↔ m.Closed reordered part := by
  constructor
  · rintro ⟨body, last, loops, heq, hbody, hlast, hloops, hr⟩
    cases body with
    | nil =>
        obtain ⟨rfl, -⟩ := List.cons.inj heq
        rw [htid] at hlast
        contradiction
    | cons first body =>
        obtain ⟨-, rfl⟩ := List.cons.inj heq
        exact ⟨body, last, loops, rfl,
          fun t ht => hbody t (List.mem_cons_of_mem _ ht), hlast, hloops, hr⟩
  · rintro ⟨body, last, loops, rfl, hbody, hlast, hloops, hr⟩
    refine ⟨tid :: body, last, loops, rfl, ?_, hlast, hloops, hr⟩
    intro t ht
    rcases List.mem_cons.mp ht with rfl | ht
    · exact htid
    · exact hbody t ht

theorem not_closed_singleton {reordered : Bool} {tid : Nat} (htid : m.isFinal tid = false) :
    ¬ m.Closed reordered [tid] := by
  rw [closed_cons_iff htid]
  intro h
  exact h.ne_nil rfl

theorem onePhone_singleton (tid : Nat) : m.OnePhone [tid] := by
  intro a ha b hb
  rw [List.mem_singleton.mp ha, List.mem_singleton.mp hb]

/-- A transition joins a part whose first transition has its phone. -/
theorem OnePhone.cons {tid next : Nat} {part : List Nat} (h : m.OnePhone (next :: part))
    (heq : m.transitionIdToPhone tid = m.transitionIdToPhone next) :
    m.OnePhone (tid :: next :: part) := by
  have hnext : ∀ other ∈ tid :: next :: part,
      m.transitionIdToPhone other = m.transitionIdToPhone next := by
    intro other hother
    rcases List.mem_cons.mp hother with rfl | hother
    · exact heq
    · exact h other hother next List.mem_cons_self
  intro a ha b hb
  rw [hnext a ha, hnext b hb]

/-! ## The self loops behind a final transition -/

/-- What is skipped are self loops of the same state, up to the first other transition. -/
theorem skipSelfLoops_spec {rest : List Nat} :
    ∀ {tid skipped : Nat}, m.skipSelfLoops tid rest = some skipped →
      (∀ t ∈ rest.take skipped, m.isSelfLoop t = true ∧
        m.transitionIdToTransitionState t = m.transitionIdToTransitionState tid) ∧
      skipped ≤ rest.length := by
  induction rest with
  | nil =>
      intro tid skipped h
      obtain rfl : 0 = skipped := by simpa [skipSelfLoops] using h
      simp
  | cons next rest ih =>
      intro tid skipped h
      rw [skipSelfLoops] at h
      split at h
      next hloop =>
        split at h
        next hstate =>
          obtain ⟨k, hk, rfl⟩ := Option.map_eq_some_iff.mp h
          obtain ⟨hloops, hlength⟩ := ih hk
          refine ⟨?_, by simpa using hlength⟩
          intro t ht
          rcases List.mem_cons.mp ht with rfl | ht
          · exact ⟨hloop, hstate.symm⟩
          · exact ⟨(hloops t ht).1, (hloops t ht).2.trans hstate.symm⟩
        next => exact absurd h (by simp)
      next =>
        obtain rfl : 0 = skipped := by simpa using h
        simp

/-- All self loops of the state are skipped, and nothing else. -/
theorem skipSelfLoops_append {loops : List Nat} :
    ∀ {tid : Nat} {rest : List Nat},
      (∀ t ∈ loops, m.isSelfLoop t = true ∧
        m.transitionIdToTransitionState t = m.transitionIdToTransitionState tid) →
      (∀ next ∈ rest.head?, m.isSelfLoop next = false) →
      m.skipSelfLoops tid (loops ++ rest) = some loops.length := by
  induction loops with
  | nil =>
      intro tid rest _ hrest
      cases rest with
      | nil => rfl
      | cons next rest => simp [skipSelfLoops, hrest next rfl]
  | cons loop loops ih =>
      intro tid rest hloops hrest
      obtain ⟨hloop, hstate⟩ := hloops loop List.mem_cons_self
      have htail : ∀ t ∈ loops, m.isSelfLoop t = true ∧
          m.transitionIdToTransitionState t = m.transitionIdToTransitionState loop := by
        intro t ht
        have := hloops t (List.mem_cons_of_mem _ ht)
        exact ⟨this.1, this.2.trans hstate.symm⟩
      simp [skipSelfLoops, hloop, hstate, ih htail hrest]

/-! ## The end points -/

theorem endPoints_final_reordered {i tid : Nat} {rest : List Nat} (htid : m.isFinal tid = true) :
    m.endPoints true i (tid :: rest) =
      (m.skipSelfLoops tid rest).bind fun skipped =>
        (m.endPoints true (i + skipped + 1) (rest.drop skipped)).map fun found =>
          (found.1, (i + skipped + 1) :: found.2) := by
  rw [endPoints.eq_def]
  simp only [htid, if_true]
  cases m.skipSelfLoops tid rest with
  | none => rfl
  | some skipped =>
      cases h : m.endPoints true (i + skipped + 1) (rest.drop skipped) <;> simp [h]

theorem endPoints_final_plain {i tid : Nat} {rest : List Nat} (htid : m.isFinal tid = true) :
    m.endPoints false i (tid :: rest) =
      (m.endPoints false (i + 1) rest).map fun found => (found.1, (i + 1) :: found.2) := by
  rw [endPoints.eq_def]
  simp only [htid, if_true, Bool.false_eq_true, if_false]
  cases h : m.endPoints false (i + 1) rest <;> simp

theorem endPoints_last {reordered : Bool} {i tid : Nat} (htid : m.isFinal tid = false) :
    m.endPoints reordered i [tid] = some (false, [i + 1]) := by
  rw [endPoints, if_neg (by simp [htid])]

theorem endPoints_same_phone {reordered : Bool} {i tid next : Nat} {rest : List Nat}
    (htid : m.isFinal tid = false)
    (hphone : m.transitionIdToPhone tid = m.transitionIdToPhone next) :
    m.endPoints reordered i (tid :: next :: rest) =
      m.endPoints reordered (i + 1) (next :: rest) := by
  unfold transitionIdToPhone at hphone
  rw [endPoints, if_neg (by simp [htid])]
  simp [hphone]

theorem endPoints_other_phone {reordered : Bool} {i tid next : Nat} {rest : List Nat}
    (htid : m.isFinal tid = false)
    (hphone : m.transitionIdToPhone tid ≠ m.transitionIdToPhone next) :
    m.endPoints reordered i (tid :: next :: rest) =
      (m.endPoints reordered (i + 1) (next :: rest)).map fun found =>
        (false, (i + 1) :: found.2) := by
  unfold transitionIdToPhone at hphone
  have hstate : m.transitionIdToTransitionState tid ≠ m.transitionIdToTransitionState next :=
    fun h => hphone (by rw [h])
  rw [endPoints, if_neg (by simp [htid])]
  simp only [if_neg hstate, if_pos hphone]
  cases h : m.endPoints reordered (i + 1) (next :: rest) <;> simp

/-- What the first loop has found: parts of one phone that make up the alignment, and
whether each of them is closed. -/
structure Found (m : TransitionModel) (reordered : Bool) (i : Nat) (alignment : List Nat)
    (wasOk : Bool) (ends : List Nat) (parts : List (List Nat)) : Prop where
  flatten : parts.flatten = alignment
  ends : ends = endsOf i parts
  ne_nil : ∀ part ∈ parts, part ≠ []
  onePhone : ∀ part ∈ parts, m.OnePhone part
  closed : wasOk = true ↔ ∀ part ∈ parts, m.Closed reordered part

/-- A part in front of those that were found. -/
theorem Found.cons {reordered : Bool} {i : Nat} {part rest : List Nat} {wasOk : Bool}
    {ends : List Nat} {parts : List (List Nat)} (wasOk' : Bool)
    (h : m.Found reordered (i + part.length) rest wasOk ends parts)
    (hne : part ≠ []) (hphone : m.OnePhone part)
    (hclosed : wasOk' = true ↔ m.Closed reordered part ∧ wasOk = true) :
    m.Found reordered i (part ++ rest) wasOk' ((i + part.length) :: ends) (part :: parts) where
  flatten := by rw [List.flatten_cons, h.flatten]
  ends := by rw [h.ends, endsOf]
  ne_nil := List.forall_mem_cons.mpr ⟨hne, h.ne_nil⟩
  onePhone := List.forall_mem_cons.mpr ⟨hphone, h.onePhone⟩
  closed := by rw [List.forall_mem_cons, ← h.closed, hclosed]

/-- A single transition as a part in front of those that were found. -/
theorem Found.single {reordered : Bool} {i tid : Nat} {rest : List Nat} {wasOk : Bool}
    {ends : List Nat} {parts : List (List Nat)} (wasOk' : Bool)
    (h : m.Found reordered (i + 1) rest wasOk ends parts)
    (hclosed : wasOk' = true ↔ m.Closed reordered [tid] ∧ wasOk = true) :
    m.Found reordered i (tid :: rest) wasOk' ((i + 1) :: ends) ([tid] :: parts) := by
  have hfound : m.Found reordered (i + [tid].length) rest wasOk ends parts := h
  exact hfound.cons wasOk' (by simp) (onePhone_singleton tid) hclosed

/-- A transition in front of the first of the parts that were found. -/
theorem Found.extend {reordered : Bool} {i tid next : Nat} {rest : List Nat} {wasOk : Bool}
    {ends : List Nat} {parts : List (List Nat)}
    (h : m.Found reordered (i + 1) (next :: rest) wasOk ends parts)
    (htid : m.isFinal tid = false)
    (hphone : m.transitionIdToPhone tid = m.transitionIdToPhone next) :
    ∃ parts', m.Found reordered i (tid :: next :: rest) wasOk ends parts' := by
  obtain ⟨hflatten, hends, hne, hone, hclosed⟩ := h
  cases parts with
  | nil => exact absurd hflatten (by simp)
  | cons part parts =>
      cases part with
      | nil => exact absurd rfl (hne [] List.mem_cons_self)
      | cons first part =>
          obtain ⟨rfl, hrest⟩ := List.cons.inj hflatten
          rw [List.forall_mem_cons] at hne hone hclosed
          refine ⟨(tid :: first :: part) :: parts, ?_, ?_, ?_, ?_, ?_⟩
          · rw [← hrest]
            rfl
          · have hlength : i + (tid :: first :: part).length =
                i + 1 + (first :: part).length := by
              simp only [List.length_cons]
              omega
            rw [hends, endsOf, endsOf, hlength]
          · exact List.forall_mem_cons.mpr ⟨by simp, hne.2⟩
          · exact List.forall_mem_cons.mpr ⟨hone.1.cons hphone, hone.2⟩
          · rw [List.forall_mem_cons, closed_cons_iff htid, hclosed]

/-- The first loop cuts any alignment into parts of one phone, and its answer is whether
these are closed. -/
theorem endPoints_found {reordered : Bool} {i : Nat} {alignment : List Nat} :
    ∀ {wasOk : Bool} {ends : List Nat},
      m.endPoints reordered i alignment = some (wasOk, ends) →
      ∃ parts, m.Found reordered i alignment wasOk ends parts := by
  induction i, alignment using endPoints.induct m reordered with
  | case1 i =>
      intro wasOk ends h
      rw [endPoints] at h
      obtain ⟨rfl, rfl⟩ := Prod.mk.inj (Option.some.inj h)
      exact ⟨[], rfl, rfl, by simp, by simp, by simp⟩
  | case2 i tid rest htid hr ih =>
      intro wasOk ends h
      subst hr
      rw [endPoints_final_reordered htid] at h
      obtain ⟨skipped, hskipped, h⟩ := Option.bind_eq_some_iff.mp h
      obtain ⟨⟨ok, others⟩, hothers, heq⟩ := Option.map_eq_some_iff.mp h
      obtain ⟨rfl, rfl⟩ := Prod.mk.inj heq
      obtain ⟨hloops, hlength⟩ := skipSelfLoops_spec hskipped
      have hpart : i + skipped + 1 = i + (tid :: rest.take skipped).length := by
        rw [List.length_cons, List.length_take, Nat.min_eq_left hlength]
        omega
      rw [hpart] at hothers ⊢
      obtain ⟨parts, hfound⟩ := ih skipped (by rw [hpart]; exact hothers)
      have hclosed : m.Closed true (tid :: rest.take skipped) :=
        ⟨[], tid, rest.take skipped, rfl, by simp, htid, hloops, by simp⟩
      have hphone : m.OnePhone (tid :: rest.take skipped) := by
        have hall : ∀ t ∈ tid :: rest.take skipped,
            m.transitionIdToPhone t = m.transitionIdToPhone tid := by
          intro t ht
          rcases List.mem_cons.mp ht with rfl | ht
          · rfl
          · rw [transitionIdToPhone, (hloops t ht).2, transitionIdToPhone]
        intro a ha b hb
        rw [hall a ha, hall b hb]
      have := Found.cons ok (by rw [← hpart]; exact hfound) (by simp) hphone (by simp [hclosed])
      rw [List.cons_append, List.take_append_drop] at this
      exact ⟨_, this⟩
  | case3 i tid rest htid hr ih =>
      intro wasOk ends h
      rw [Bool.not_eq_true] at hr
      subst hr
      rw [endPoints_final_plain htid] at h
      obtain ⟨⟨ok, others⟩, hothers, heq⟩ := Option.map_eq_some_iff.mp h
      obtain ⟨rfl, rfl⟩ := Prod.mk.inj heq
      obtain ⟨parts, hfound⟩ := ih hothers
      have hclosed : m.Closed false [tid] :=
        ⟨[], tid, [], rfl, by simp, htid, by simp, by simp⟩
      exact ⟨_, hfound.single ok (by simp [hclosed])⟩
  | case4 i tid htid =>
      intro wasOk ends h
      rw [Bool.not_eq_true] at htid
      rw [endPoints_last htid] at h
      obtain ⟨rfl, rfl⟩ := Prod.mk.inj (Option.some.inj h)
      refine ⟨[[tid]], rfl, rfl, by simp, ?_, ?_⟩
      · simpa using onePhone_singleton tid
      · simpa using not_closed_singleton htid
  | case5 i tid htid next rest thisState nextState =>
      rename_i hstate ih
      intro wasOk ends h
      rw [Bool.not_eq_true] at htid
      have hphone : m.transitionIdToPhone tid = m.transitionIdToPhone next :=
        congrArg m.transitionStateToPhone hstate
      rw [endPoints_same_phone htid hphone] at h
      obtain ⟨parts, hfound⟩ := ih h
      exact hfound.extend htid hphone
  | case6 i tid htid next rest thisState nextState =>
      rename_i hstate hphone ih
      intro wasOk ends h
      rw [Bool.not_eq_true] at htid
      rw [endPoints_other_phone htid hphone] at h
      obtain ⟨⟨ok, others⟩, hothers, heq⟩ := Option.map_eq_some_iff.mp h
      obtain ⟨rfl, rfl⟩ := Prod.mk.inj heq
      obtain ⟨parts, hfound⟩ := ih hothers
      exact ⟨_, hfound.single false (by simp [not_closed_singleton htid])⟩
  | case7 i tid htid next rest thisState nextState =>
      rename_i hstate hphone ih
      intro wasOk ends h
      rw [Bool.not_eq_true] at htid
      rw [endPoints_same_phone htid (not_not.mp hphone)] at h
      obtain ⟨parts, hfound⟩ := ih h
      exact hfound.extend htid (not_not.mp hphone)

/-- The first loop cuts behind a closed part, where another phone can begin. -/
theorem endPoints_closed {reordered : Bool} {part rest : List Nat}
    (hclosed : m.Closed reordered part) (hphone : m.OnePhone part)
    (hleaves : m.Leaves reordered rest) (i : Nat) :
    m.endPoints reordered i (part ++ rest) =
      (m.endPoints reordered (i + part.length) rest).map fun found =>
        (found.1, (i + part.length) :: found.2) := by
  obtain ⟨body, last, loops, rfl, hbody, hlast, hloops, hr⟩ := hclosed
  induction body generalizing i with
  | nil =>
      cases reordered with
      | false =>
          obtain rfl : loops = [] := hr rfl
          exact endPoints_final_plain hlast
      | true =>
          have hskip := skipSelfLoops_append hloops (hleaves rfl)
          have hlength : i + ([] ++ last :: loops).length = i + loops.length + 1 := by
            simp [Nat.add_assoc]
          rw [hlength, List.nil_append, List.cons_append, endPoints_final_reordered hlast, hskip]
          simp
  | cons tid body ih =>
      have htid : m.isFinal tid = false := hbody tid List.mem_cons_self
      have htail : m.OnePhone (body ++ last :: loops) := fun a ha b hb =>
        hphone a (List.mem_cons_of_mem _ ha) b (List.mem_cons_of_mem _ hb)
      have hstep : m.endPoints reordered i (tid :: (body ++ last :: loops ++ rest)) =
          m.endPoints reordered (i + 1) (body ++ last :: loops ++ rest) := by
        cases hnext : body ++ last :: loops with
        | nil => exact absurd hnext (by simp)
        | cons next others =>
            have hmem : next ∈ body ++ last :: loops := by simp [hnext]
            exact endPoints_same_phone htid
              (hphone tid List.mem_cons_self next (List.mem_cons_of_mem _ hmem))
      have hlength : i + (tid :: body ++ last :: loops).length =
          i + 1 + (body ++ last :: loops).length := by
        simp only [List.cons_append, List.length_cons]
        omega
      rw [hlength, List.cons_append, List.cons_append, hstep]
      exact ih (i + 1) htail fun t ht => hbody t (List.mem_cons_of_mem _ ht)

/-- Parts that can follow each other: behind each of them another phone can begin. -/
def Separated (m : TransitionModel) (reordered : Bool) : List (List Nat) → Prop
  | [] => True
  | _ :: parts => m.Leaves reordered parts.flatten ∧ Separated m reordered parts

/-- The first loop finds the ends of closed parts that can follow each other. -/
theorem endPoints_flatten {reordered : Bool} {parts : List (List Nat)}
    (hparts : ∀ part ∈ parts, m.Closed reordered part ∧ m.OnePhone part)
    (hseparated : m.Separated reordered parts) (i : Nat) :
    m.endPoints reordered i parts.flatten = some (true, endsOf i parts) := by
  induction parts generalizing i with
  | nil => simp [endPoints, endsOf]
  | cons part parts ih =>
      rw [List.forall_mem_cons] at hparts
      obtain ⟨⟨hclosed, hphone⟩, hothers⟩ := hparts
      obtain ⟨hleaves, hseparated⟩ := hseparated
      rw [List.flatten_cons, endPoints_closed hclosed hphone hleaves, ih hothers hseparated]
      rfl

/-! ## The parts -/

/-- The second loop hands out the parts whose end points it is given. -/
theorem cutAt_endsOf {parts : List (List Nat)} (hne : ∀ part ∈ parts, part ≠ [])
    (done : List Nat) :
    ∃ initialOk, m.cutAt (done ++ parts.flatten) done.length (endsOf done.length parts) =
        some (initialOk, parts) ∧
      (initialOk = true ↔ ∀ part ∈ parts, m.Initial part) := by
  induction parts generalizing done with
  | nil => exact ⟨true, rfl, by simp⟩
  | cons part parts ih =>
      rw [List.forall_mem_cons] at hne
      obtain ⟨ok, hcut, hok⟩ := ih hne.2 (done ++ part)
      rw [List.length_append, List.append_assoc] at hcut
      cases part with
      | nil => exact absurd rfl hne.1
      | cons first part =>
          refine ⟨m.transitionStateToHmmState (m.transitionIdToTransitionState first) == 0 && ok,
            ?_, ?_⟩
          · rw [endsOf, cutAt, List.flatten_cons, hcut]
            simp
          · rw [List.forall_mem_cons, ← hok, Bool.and_eq_true, beq_iff_eq]
            simp [Initial]

theorem splitToPhonesInternal_eq {alignment : List Nat} {reordered : Bool} :
    m.splitToPhonesInternal alignment reordered =
      (m.endPoints reordered 0 alignment).bind fun found =>
        (m.cutAt alignment 0 found.2).map fun cut => (found.1 && cut.1, cut.2) := by
  by_cases hempty : alignment = []
  · subst hempty
    simp [splitToPhonesInternal, endPoints, cutAt]
  · rw [splitToPhonesInternal, if_neg hempty]
    cases m.endPoints reordered 0 alignment with
    | none => rfl
    | some found =>
        cases h : m.cutAt alignment 0 found.2 <;> simp [h]

theorem splitToPhonesInternal_spec {alignment : List Nat} {reordered wasOk : Bool}
    {parts : List (List Nat)}
    (h : m.splitToPhonesInternal alignment reordered = some (wasOk, parts)) :
    parts.flatten = alignment ∧ (∀ part ∈ parts, part ≠ [] ∧ m.OnePhone part) ∧
      (wasOk = true ↔ ∀ part ∈ parts, m.PhoneInstance reordered part) := by
  rw [splitToPhonesInternal_eq] at h
  obtain ⟨⟨endsOk, ends⟩, hends, h⟩ := Option.bind_eq_some_iff.mp h
  obtain ⟨⟨initialOk, cut⟩, hcut, heq⟩ := Option.map_eq_some_iff.mp h
  obtain ⟨rfl, rfl⟩ := Prod.mk.inj heq
  obtain ⟨found, hflatten, rfl, hne, hone, hclosed⟩ := endPoints_found hends
  obtain ⟨ok, hcut', hok⟩ := cutAt_endsOf (m := m) hne []
  rw [List.nil_append, hflatten] at hcut'
  obtain ⟨rfl, rfl⟩ := Prod.mk.inj (Option.some.inj (hcut.symm.trans hcut'))
  refine ⟨hflatten, fun part hpart => ⟨hne part hpart, hone part hpart⟩, ?_⟩
  rw [Bool.and_eq_true, hclosed, hok]
  constructor
  · rintro ⟨hclosed, hinitial⟩ part hpart
    exact ⟨hone part hpart, hinitial part hpart, hclosed part hpart⟩
  · intro hall
    exact ⟨fun part hpart => (hall part hpart).closed,
      fun part hpart => (hall part hpart).initial⟩

/-- Any alignment is cut into non-empty parts of one phone each, and the answer is whether
these are complete instances of their phones. -/
theorem splitToPhones_spec {alignment : List Nat} {wasOk : Bool} {parts : List (List Nat)}
    (h : m.splitToPhones alignment = some (wasOk, parts)) :
    parts.flatten = alignment ∧ (∀ part ∈ parts, part ≠ [] ∧ m.OnePhone part) ∧
      ∃ reordered, m.isReordered alignment = some reordered ∧
        (wasOk = true ↔ ∀ part ∈ parts, m.PhoneInstance reordered part) := by
  obtain ⟨reordered, hreordered, h⟩ := Option.bind_eq_some_iff.mp h
  obtain ⟨hflatten, hparts, hok⟩ := splitToPhonesInternal_spec h
  exact ⟨hflatten, hparts, reordered, hreordered, hok⟩

/-- Complete instances that can follow each other are cut apart again. -/
theorem splitToPhonesInternal_flatten {reordered : Bool} {parts : List (List Nat)}
    (hparts : ∀ part ∈ parts, m.PhoneInstance reordered part)
    (hseparated : m.Separated reordered parts) :
    m.splitToPhonesInternal parts.flatten reordered = some (true, parts) := by
  have hends := endPoints_flatten
    (fun part hpart => ⟨(hparts part hpart).closed, (hparts part hpart).onePhone⟩) hseparated 0
  obtain ⟨initialOk, hcut, hok⟩ :=
    cutAt_endsOf (m := m) (fun part hpart => (hparts part hpart).closed.ne_nil) []
  obtain rfl : initialOk = true := hok.mpr fun part hpart => (hparts part hpart).initial
  rw [List.nil_append] at hcut
  rw [splitToPhonesInternal_eq, hends, Option.bind_some]
  exact congrArg _ hcut

end TransitionModel

/-! ## Alignments of paths through the models -/

/-- A visit to a state: the turns of its self loop and the transition that leaves it. -/
structure Visit where
  loops : List Nat
  leave : Nat

namespace Visit

variable {m : TransitionModel}

/-- The transitions of the visit, in a graph with or without reordered transitions. -/
def tids (reordered : Bool) (v : Visit) : List Nat :=
  if reordered then v.leave :: v.loops else v.loops ++ [v.leave]

/-- The state that is visited. -/
def state (m : TransitionModel) (v : Visit) : Nat := m.transitionIdToTransitionState v.leave

/-- The loops are self loops of the state, and the transition that leaves it is none. -/
structure Valid (m : TransitionModel) (v : Visit) : Prop where
  leave : m.isSelfLoop v.leave = false
  isLoop : ∀ tid ∈ v.loops, m.isSelfLoop tid = true
  notFinal : ∀ tid ∈ v.loops, m.isFinal tid = false
  state : ∀ tid ∈ v.loops, m.transitionIdToTransitionState tid = v.state m

/-- The transitions of the visits one after the other. -/
def alignment (reordered : Bool) (visits : List Visit) : List Nat :=
  visits.flatMap (tids reordered)

/-- A path through the model of one phone, from its first state to the final transition. -/
structure Passage (m : TransitionModel) (visits : List Visit) : Prop where
  valid : ∀ v ∈ visits, v.Valid m
  phone : ∀ v ∈ visits, ∀ w ∈ visits, m.transitionStateToPhone (v.state m) =
    m.transitionStateToPhone (w.state m)
  initial : ∀ v ∈ visits.head?, m.transitionStateToHmmState (v.state m) = 0
  final : ∃ inner last, visits = inner ++ [last] ∧ (∀ v ∈ inner, m.isFinal v.leave = false) ∧
    m.isFinal last.leave = true

theorem mem_tids {v : Visit} {reordered : Bool} {tid : Nat} :
    tid ∈ v.tids reordered ↔ tid = v.leave ∨ tid ∈ v.loops := by
  cases reordered with
  | false => simp [tids, or_comm]
  | true => simp [tids]

theorem tids_ne_nil (reordered : Bool) (v : Visit) : v.tids reordered ≠ [] :=
  List.ne_nil_of_mem (mem_tids.mpr (Or.inl rfl))

theorem Valid.mem_state {v : Visit} (hv : v.Valid m) {reordered : Bool} {tid : Nat}
    (htid : tid ∈ v.tids reordered) : m.transitionIdToTransitionState tid = v.state m := by
  rcases mem_tids.mp htid with rfl | hloop
  · rfl
  · exact hv.state tid hloop

/-- Within a state the loop of `IsReordered` finds out nothing. -/
theorem scanReordered_same_state {tids : List Nat} {last : Nat} (rest : List Nat)
    (hstate : ∀ tid ∈ tids, m.transitionIdToTransitionState tid =
      m.transitionIdToTransitionState last) :
    m.scanReordered (tids ++ last :: rest) = m.scanReordered (last :: rest) := by
  induction tids with
  | nil => rfl
  | cons tid tids ih =>
      rw [List.forall_mem_cons] at hstate
      rw [← ih hstate.2]
      cases tids with
      | nil => simp [TransitionModel.scanReordered, hstate.1]
      | cons next tids =>
          have hnext := hstate.2 next List.mem_cons_self
          simp [TransitionModel.scanReordered, hstate.1, hnext]

/-- The loop of `IsReordered` comes to the last turn of a self loop behind the transition that
leaves the state. -/
theorem Valid.scanReordered_turns {v : Visit} (hv : v.Valid m) {inner : List Nat} {last : Nat}
    (hloops : v.loops = inner.concat last) (rest : List Nat) :
    m.scanReordered (v.leave :: inner ++ last :: rest) = m.scanReordered (last :: rest) := by
  refine scanReordered_same_state rest ?_
  have hlast := hv.state last (by simp [hloops])
  intro tid htid
  rw [hlast]
  rcases List.mem_cons.mp htid with rfl | htid
  · rfl
  · exact hv.state tid (by simp [hloops, htid])

/-- With the self loops first, the loop of `IsReordered` never finds the other order, and
gives no answer only if no self loop follows. -/
theorem scanReordered_plain {visits : List Visit} :
    ∀ {v : Visit}, v.Valid m → (∀ w ∈ visits, w.Valid m) →
      List.IsChain (fun v w => v.state m ≠ w.state m) (v :: visits) →
      m.scanReordered (v.leave :: alignment false visits) = some (some false) ∨
        m.scanReordered (v.leave :: alignment false visits) = some none := by
  induction visits with
  | nil =>
      intro v _ _ _
      exact Or.inr rfl
  | cons w visits ih =>
      intro v hv hvisits hchain
      rw [List.forall_mem_cons] at hvisits
      obtain ⟨hne, hchain⟩ := List.isChain_cons_cons.mp hchain
      unfold state at hne
      obtain ⟨hw, hothers⟩ := hvisits
      cases hloops : w.loops with
      | nil =>
          have hscan : m.scanReordered (v.leave :: alignment false (w :: visits)) =
              m.scanReordered (w.leave :: alignment false visits) := by
            simp [alignment, tids, hloops, TransitionModel.scanReordered, hne, hv.leave, hw.leave]
          rw [hscan]
          exact ih hw hothers hchain
      | cons loop loops =>
          have hmem : loop ∈ w.loops := by simp [hloops]
          have hloop := hw.isLoop loop hmem
          have hstate := hw.state loop hmem
          unfold state at hstate
          left
          simp [alignment, tids, hloops, TransitionModel.scanReordered, hstate, hne, hv.leave,
            hloop]

/-- With the self loops last, the loop of `IsReordered` finds this out at the first state
that is left behind a self loop. -/
theorem scanReordered_reordered {visits : List Visit} (hvisits : ∀ v ∈ visits, v.Valid m)
    (hchain : List.IsChain (fun v w => v.state m ≠ w.state m) visits) :
    m.scanReordered (alignment true visits) = some (some true) ∨
      (m.scanReordered (alignment true visits) = some none ∧
        ∀ v ∈ visits.dropLast, v.loops = []) := by
  induction visits with
  | nil => exact Or.inr ⟨rfl, by simp⟩
  | cons v visits ih =>
      rw [List.forall_mem_cons] at hvisits
      obtain ⟨hv, hothers⟩ := hvisits
      cases visits with
      | nil =>
          refine Or.inr ⟨?_, by simp⟩
          rcases List.eq_nil_or_concat v.loops with hloops | ⟨inner, last, hloops⟩
          · simp [alignment, tids, hloops, TransitionModel.scanReordered]
          · have := hv.scanReordered_turns hloops []
            simpa [alignment, tids, hloops, TransitionModel.scanReordered] using this
      | cons w visits =>
          obtain ⟨hne, hchain⟩ := List.isChain_cons_cons.mp hchain
          unfold state at hne
          have hw := hothers w List.mem_cons_self
          rcases List.eq_nil_or_concat v.loops with hloops | ⟨inner, last, hloops⟩
          · have hscan : m.scanReordered (alignment true (v :: w :: visits)) =
                m.scanReordered (alignment true (w :: visits)) := by
              simp [alignment, tids, hloops, TransitionModel.scanReordered, hne, hv.leave,
                hw.leave]
            rw [hscan]
            rcases ih hothers hchain with h | ⟨h, hnone⟩
            · exact Or.inl h
            · refine Or.inr ⟨h, ?_⟩
              rw [List.dropLast_cons_cons]
              exact List.forall_mem_cons.mpr ⟨hloops, hnone⟩
          · have hmem : last ∈ v.loops := by simp [hloops]
            have hlast : m.transitionIdToTransitionState last ≠
                m.transitionIdToTransitionState w.leave := by
              rw [hv.state last hmem]
              exact hne
            have hscan : m.scanReordered (alignment true (v :: w :: visits)) =
                m.scanReordered (last :: alignment true (w :: visits)) := by
              have := hv.scanReordered_turns hloops (alignment true (w :: visits))
              simpa [alignment, tids, hloops] using this
            left
            rw [hscan]
            simp [alignment, tids, TransitionModel.scanReordered, hlast,
              hv.isLoop last hmem, hw.leave]

/-- With the self loops first, no other order is found. -/
theorem isReordered_plain {visits : List Visit} (hvisits : ∀ v ∈ visits, v.Valid m)
    (hchain : List.IsChain (fun v w => v.state m ≠ w.state m) visits) :
    m.isReordered (alignment false visits) = some false := by
  cases visits with
  | nil => rfl
  | cons v visits =>
      obtain ⟨hv, hothers⟩ := List.forall_mem_cons.mp hvisits
      have hscan : m.scanReordered (alignment false (v :: visits)) =
          m.scanReordered (v.leave :: alignment false visits) := by
        have := scanReordered_same_state (alignment false visits) hv.state
        simpa [alignment, tids] using this
      have hback : ∃ back, (alignment false (v :: visits)).getLast? = some back ∧
          m.isSelfLoop back = false := by
        rcases List.eq_nil_or_concat (v :: visits) with hnil | ⟨inner, last, hvisits'⟩
        · exact absurd hnil (by simp)
        · have hlast : last ∈ v :: visits := by simp [hvisits']
          refine ⟨last.leave, ?_, (hvisits last hlast).leave⟩
          rw [hvisits']
          simp [alignment, tids, ← List.append_assoc]
      obtain ⟨back, hback, hnot⟩ := hback
      unfold TransitionModel.isReordered
      rcases scanReordered_plain hv hothers hchain with h | h
      · simp [hscan, h]
      · rw [hscan, h, hback]
        cases (alignment false (v :: visits)).head? <;> simp [hnot]

/-- With the self loops last, this order is found, unless there are no self loops at all. -/
theorem isReordered_reordered {visits : List Visit} (hvisits : ∀ v ∈ visits, v.Valid m)
    (hchain : List.IsChain (fun v w => v.state m ≠ w.state m) visits) :
    m.isReordered (alignment true visits) = some true ∨
      (m.isReordered (alignment true visits) = some false ∧ ∀ v ∈ visits, v.loops = []) := by
  unfold TransitionModel.isReordered
  rcases scanReordered_reordered hvisits hchain with h | ⟨h, hnone⟩
  · left
    simp [h]
  · rcases List.eq_nil_or_concat visits with rfl | ⟨inner, last, rfl⟩
    · right
      exact ⟨by rw [h]; rfl, by simp⟩
    · obtain ⟨front, others, hfront, hnot⟩ : ∃ front others,
          alignment true (inner.concat last) = front :: others ∧ m.isSelfLoop front = false := by
        cases inner with
        | nil => exact ⟨last.leave, last.loops, by simp [alignment, tids],
            (hvisits last (by simp)).leave⟩
        | cons v inner => exact ⟨v.leave, v.loops ++ alignment true (inner.concat last),
            by simp [alignment, tids], (hvisits v (by simp)).leave⟩
      rcases List.eq_nil_or_concat last.loops with hloops | ⟨turns, back, hloops⟩
      · right
        have hback : (alignment true (inner.concat last)).getLast? = some last.leave := by
          simp [alignment, tids, hloops]
        refine ⟨?_, ?_⟩
        · rw [h, hback, hfront]
          simp [hnot, (hvisits last (by simp)).leave]
        · rw [List.concat_eq_append, List.dropLast_concat] at hnone
          intro v hv
          rw [List.concat_eq_append] at hv
          rcases List.mem_append.mp hv with hv | hv
          · exact hnone v hv
          · rw [List.mem_singleton.mp hv, hloops]
      · left
        have hback : (alignment true (inner.concat last)).getLast? = some back := by
          have htids : alignment true (inner.concat last) =
              alignment true inner ++ last.leave :: turns ++ [back] := by
            simp [alignment, tids, hloops]
          rw [htids, List.getLast?_concat]
        have hloop := (hvisits last (by simp)).isLoop back (by simp [hloops])
        rw [h, hback, hfront]
        simp [hnot, hloop]

theorem mem_alignment {reordered : Bool} {visits : List Visit} {tid : Nat}
    (h : tid ∈ alignment reordered visits) : ∃ v ∈ visits, tid ∈ v.tids reordered :=
  List.mem_flatMap.mp h

/-- A passage through the model of a phone is a complete instance of it. -/
theorem Passage.phoneInstance {visits : List Visit} (h : Passage m visits) (reordered : Bool) :
    m.PhoneInstance reordered (alignment reordered visits) := by
  obtain ⟨hvalid, hphone, hinitial, inner, last, rfl, hinner, hlast⟩ := h
  have hstate : ∀ v ∈ inner ++ [last], ∀ tid ∈ v.tids reordered,
      m.transitionIdToTransitionState tid = v.state m :=
    fun v hv tid htid => (hvalid v hv).mem_state htid
  have hvalidLast := hvalid last (by simp)
  refine ⟨?_, ?_, ?_⟩
  · intro a ha b hb
    obtain ⟨v, hv, hav⟩ := mem_alignment ha
    obtain ⟨w, hw, hbw⟩ := mem_alignment hb
    unfold TransitionModel.transitionIdToPhone
    rw [hstate v hv a hav, hstate w hw b hbw]
    exact hphone v hv w hw
  · obtain ⟨v, others, hvisits⟩ := List.exists_cons_of_ne_nil (l := inner ++ [last]) (by simp)
    rw [hvisits] at hinitial hstate ⊢
    intro tid htid
    obtain ⟨first, rest, hfirst⟩ := List.exists_cons_of_ne_nil (v.tids_ne_nil reordered)
    obtain rfl : first = tid := by simpa [alignment, hfirst] using htid
    rw [hstate v List.mem_cons_self first (by simp [hfirst])]
    exact hinitial v rfl
  · have hbody : ∀ tid ∈ alignment reordered inner, m.isFinal tid = false := by
      intro tid htid
      obtain ⟨v, hv, htid⟩ := mem_alignment htid
      rcases mem_tids.mp htid with rfl | hloop
      · exact hinner v hv
      · exact (hvalid v (by simp [hv])).notFinal tid hloop
    cases reordered with
    | false =>
        refine ⟨alignment false inner ++ last.loops, last.leave, [], ?_, ?_, hlast, by simp,
          by simp⟩
        · simp [alignment, tids]
        · intro tid htid
          rcases List.mem_append.mp htid with htid | htid
          · exact hbody tid htid
          · exact hvalidLast.notFinal tid htid
    | true =>
        refine ⟨alignment true inner, last.leave, last.loops, ?_, hbody, hlast, ?_, by simp⟩
        · simp [alignment, tids]
        · exact fun tid htid => ⟨hvalidLast.isLoop tid htid, hvalidLast.state tid htid⟩

theorem alignment_append (reordered : Bool) (earlier later : List Visit) :
    alignment reordered (earlier ++ later) =
      alignment reordered earlier ++ alignment reordered later := by
  simp [alignment]

theorem alignment_flatten (reordered : Bool) (phones : List (List Visit)) :
    (phones.map (alignment reordered)).flatten = alignment reordered phones.flatten := by
  induction phones with
  | nil => rfl
  | cons phone phones ih => rw [List.map_cons, List.flatten_cons, ih, List.flatten_cons,
      alignment_append]

/-- No passage begins with a self loop in a reordered graph. -/
theorem separated_passages {reordered : Bool} {phones : List (List Visit)}
    (hphones : ∀ phone ∈ phones, Passage m phone) :
    m.Separated reordered (phones.map (alignment reordered)) := by
  induction phones with
  | nil => trivial
  | cons phone phones ih =>
      rw [List.forall_mem_cons] at hphones
      refine ⟨?_, ih hphones.2⟩
      intro hr next hnext
      subst hr
      rw [alignment_flatten] at hnext
      cases hvisits : phones.flatten with
      | nil => simp [hvisits, alignment] at hnext
      | cons v visits =>
          obtain rfl : v.leave = next := by simpa [hvisits, alignment, tids] using hnext
          obtain ⟨phone', hphone', hv⟩ : ∃ phone' ∈ phones, v ∈ phone' :=
            List.mem_flatten.mp (by simp [hvisits])
          exact ((hphones.2 phone' hphone').valid v hv).leave

/-- An alignment along passages through the models of phones, with the self loops first in
every state or last in every state, is cut into these passages. -/
theorem splitToPhones_passages (reordered : Bool) {phones : List (List Visit)}
    (hphones : ∀ phone ∈ phones, Passage m phone)
    (hchain : List.IsChain (fun v w => v.state m ≠ w.state m) phones.flatten) :
    m.splitToPhones (phones.map (alignment reordered)).flatten =
      some (true, phones.map (alignment reordered)) := by
  have hvalid : ∀ v ∈ phones.flatten, v.Valid m := by
    intro v hv
    obtain ⟨phone, hphone, hv⟩ := List.mem_flatten.mp hv
    exact (hphones phone hphone).valid v hv
  have hsplit : ∀ order, m.splitToPhonesInternal (phones.map (alignment order)).flatten order =
      some (true, phones.map (alignment order)) := by
    intro order
    refine TransitionModel.splitToPhonesInternal_flatten ?_ (separated_passages hphones)
    intro part hpart
    obtain ⟨phone, hphone, rfl⟩ := List.mem_map.mp hpart
    exact (hphones phone hphone).phoneInstance order
  rw [TransitionModel.splitToPhones, alignment_flatten]
  cases reordered with
  | false =>
      rw [isReordered_plain hvalid hchain, ← alignment_flatten]
      exact hsplit false
  | true =>
      rcases isReordered_reordered hvalid hchain with h | ⟨h, hnone⟩
      · rw [h, ← alignment_flatten]
        exact hsplit true
      · -- without self loops the two orders are the same alignment
        have hsame : phones.map (alignment true) = phones.map (alignment false) := by
          refine List.map_congr_left ?_
          intro phone hphone
          refine List.flatMap_congr ?_
          intro v hv
          have := hnone v (List.mem_flatten.mpr ⟨phone, hphone, hv⟩)
          simp [tids, this]
        rw [h, ← alignment_flatten, hsame]
        exact hsplit false

end Visit

/-! ## A small model -/

/-- A model of two phones with a state each: transition `2 * s + 1` is the self loop of state
`s` and `2 * s + 2` the final transition. -/
def twoPhones : TransitionModel where
  transitionIdToTransitionState tid := (tid - 1) / 2
  isSelfLoop tid := tid % 2 == 1
  isFinal tid := tid % 2 == 0
  transitionStateToPhone state := state
  transitionStateToHmmState _ := 0

/-- An alignment that stops within a phone is cut, and reported. -/
theorem splitToPhones_spec_unfinished :
    [[1, 2], [3]].flatten = [1, 2, 3] ∧
      (∀ part ∈ [[1, 2], [3]], part ≠ [] ∧ twoPhones.OnePhone part) ∧
      ∃ reordered, twoPhones.isReordered [1, 2, 3] = some reordered ∧
        (false = true ↔ ∀ part ∈ [[1, 2], [3]], twoPhones.PhoneInstance reordered part) := by
  refine TransitionModel.splitToPhones_spec ?_
  have hends : twoPhones.endPoints false 0 [1, 2, 3] = some (false, [2, 3]) := by
    rw [TransitionModel.endPoints_same_phone (by decide) (by decide),
      TransitionModel.endPoints_final_plain (by decide),
      TransitionModel.endPoints_last (by decide)]
    rfl
  have hreordered : twoPhones.isReordered [1, 2, 3] = some false := by decide
  rw [TransitionModel.splitToPhones, hreordered, Option.bind_eq_bind, Option.bind_some,
    TransitionModel.splitToPhonesInternal_eq, hends]
  decide

/-- Some turns of the self loop and the final transition are a passage through the phone. -/
theorem twoPhones_passage (s turns : Nat) :
    Visit.Passage twoPhones
      [{ loops := List.replicate turns (2 * s + 1), leave := 2 * s + 2 }] where
  valid := by
    intro v hv
    obtain rfl := List.mem_singleton.mp hv
    refine ⟨by simp [twoPhones], by simp [twoPhones], by simp [twoPhones], ?_⟩
    intro tid htid
    obtain rfl := List.eq_of_mem_replicate htid
    show (2 * s + 1 - 1) / 2 = (2 * s + 2 - 1) / 2
    omega
  phone := by simp
  initial := by simp [twoPhones]
  final := ⟨[], _, rfl, by simp, by simp [twoPhones]⟩

/-- Two phones of a reordered graph, each with a turn of its self loop. -/
theorem splitToPhones_passages_reordered :
    twoPhones.splitToPhones [2, 1, 4, 3] = some (true, [[2, 1], [4, 3]]) := by
  have hpassages : ∀ phone ∈ [[Visit.mk [1] 2], [Visit.mk [3] 4]],
      Visit.Passage twoPhones phone := by
    intro phone hphone
    have hcases : phone = [⟨[1], 2⟩] ∨ phone = [⟨[3], 4⟩] := by simpa using hphone
    rcases hcases with rfl | rfl
    · exact twoPhones_passage 0 1
    · exact twoPhones_passage 1 1
  exact Visit.splitToPhones_passages true hpassages (by simp [Visit.state, twoPhones])

end ThreadedServer
