import ThreadedServer.OnlineVad

/-!
# What the listeners are told

The notification loop of `OnlineVadFeInput::Compute` changes `batchVad_` and
`hangoverCount_` while it goes through the listeners, and tests both again for
the next one.  It comes out even: when the first listener is told of a change,
so are the others, and when the first one holds the end of speech back, the
others see no change at all.

So each listener hears the transitions of `batchVad_` from one iteration to the
next and nothing else: start and end of speech in turn.  The extractor is given
the front of the buffer in the iterations from a start through the matching
end.  The number of listeners shows only in `hangoverCount_` after an end, which
the next start sets back.
-/

namespace ThreadedServer

namespace VadSession

open OnlineVadFeInput

variable {α : Type*}

/-- What listener `i` is told in an iteration. -/
def heardIn (i : Nat) (b : Batch α) : List VadEvent :=
  b.events.filterMap fun e => if e.1 = i then some e.2 else none

/-- What listener `i` has been told so far, the first event first. -/
def heard (i : Nat) (log : List (Batch α)) : List VadEvent :=
  log.reverse.flatMap (heardIn i)

/-- The other event. -/
def otherEvent : VadEvent → VadEvent
  | .speechStart => .speechEnd
  | .speechEnd => .speechStart

/-- The events strictly alternate, beginning with the given one. -/
def Alternates : VadEvent → List VadEvent → Prop
  | _, [] => True
  | e, x :: xs => x = e ∧ Alternates (otherEvent e) xs

/-- The event that continues an alternating sequence. -/
def nextEvent : VadEvent → List VadEvent → VadEvent
  | e, [] => e
  | e, _ :: xs => nextEvent (otherEvent e) xs

theorem Alternates.concat {e : VadEvent} {xs : List VadEvent}
    (h : Alternates e xs) : Alternates e (xs ++ [nextEvent e xs]) := by
  induction xs generalizing e with
  | nil => exact ⟨rfl, trivial⟩
  | cons x xs ih => exact ⟨h.1, ih h.2⟩

theorem nextEvent_concat (e : VadEvent) (xs : List VadEvent) (y : VadEvent) :
    nextEvent e (xs ++ [y]) = otherEvent (nextEvent e xs) := by
  induction xs generalizing e with
  | nil => rfl
  | cons x xs ih => exact ih (otherEvent e)

/-! ## Transitions of the detector -/

/-- The change of `batchVad_` in an iteration. -/
def transition (b : Batch α) : List VadEvent :=
  if !b.lastBatchVad && b.batchVad then [.speechStart]
  else if b.lastBatchVad && !b.batchVad then [.speechEnd]
  else []

theorem transition_start {b : Batch α} :
    transition b = [.speechStart] ↔ b.lastBatchVad = false ∧ b.batchVad = true := by
  cases hlast : b.lastBatchVad <;> cases hvad : b.batchVad <;> simp [transition, hlast, hvad]

theorem transition_end {b : Batch α} :
    transition b = [.speechEnd] ↔ b.lastBatchVad = true ∧ b.batchVad = false := by
  cases hlast : b.lastBatchVad <;> cases hvad : b.batchVad <;> simp [transition, hlast, hvad]

/-- Each iteration goes on from the `batchVad_` that the one before it left; the
last one left `vad`. -/
def Chained : List (Batch α) → Bool → Prop
  | [], vad => vad = false
  | b :: older, vad => b.batchVad = vad ∧ Chained older b.lastBatchVad

/-- Between a start and the end that matches it. -/
def Speaking (log : List (Batch α)) : Prop :=
  ∃ mid start rest, log = mid ++ start :: rest ∧ transition start = [.speechStart] ∧
    ∀ c ∈ mid, transition c ≠ [.speechEnd]

theorem Chained.older {newer older : List (Batch α)} {vad : Bool}
    (h : Chained (newer ++ older) vad) : ∃ vad', Chained older vad' := by
  induction newer generalizing vad with
  | nil => exact ⟨vad, h⟩
  | cons b newer ih => exact ih h.2

/-- The transitions of the iterations are start and end of speech in turn. -/
theorem Chained.alternates {log : List (Batch α)} {vad : Bool}
    (h : Chained log vad) :
    Alternates .speechStart (log.reverse.flatMap transition) ∧
      nextEvent .speechStart (log.reverse.flatMap transition) =
        if vad then .speechEnd else .speechStart := by
  induction log generalizing vad with
  | nil =>
      obtain rfl : vad = false := h
      exact ⟨trivial, rfl⟩
  | cons b older ih =>
      obtain ⟨rfl, holder⟩ := h
      obtain ⟨halt, hnext⟩ := ih holder
      rw [List.reverse_cons, List.flatMap_append, List.flatMap_singleton]
      cases hlast : b.lastBatchVad <;> cases hvad : b.batchVad <;>
        simp only [transition, hlast, hvad, Bool.not_false, Bool.not_true, Bool.and_true,
          Bool.and_false, Bool.false_eq_true, if_true, if_false, List.append_nil] at hnext ⊢
      · exact ⟨halt, hnext⟩
      · have hcat := halt.concat
        rw [hnext] at hcat
        exact ⟨hcat, by rw [nextEvent_concat, hnext]; rfl⟩
      · have hcat := halt.concat
        rw [hnext] at hcat
        exact ⟨hcat, by rw [nextEvent_concat, hnext]; rfl⟩
      · exact ⟨halt, hnext⟩

/-- `batchVad_` says whether the iterations are between a start and its end. -/
theorem Chained.speaking_iff {log : List (Batch α)} {vad : Bool}
    (h : Chained log vad) : vad = true ↔ Speaking log := by
  induction log generalizing vad with
  | nil =>
      obtain rfl : vad = false := h
      simp [Speaking]
  | cons b older ih =>
      obtain ⟨rfl, holder⟩ := h
      constructor
      · intro hvad
        cases hlast : b.lastBatchVad with
        | false => exact ⟨[], b, older, rfl, transition_start.mpr ⟨hlast, hvad⟩, by simp⟩
        | true =>
            obtain ⟨mid, start, rest, rfl, hstart, hmid⟩ := (ih holder).mp hlast
            refine ⟨b :: mid, start, rest, rfl, hstart, fun c hc => ?_⟩
            rcases List.mem_cons.mp hc with rfl | hc
            · simp [transition_end, hvad]
            · exact hmid c hc
      · rintro ⟨mid, start, rest, hlog, hstart, hmid⟩
        cases mid with
        | nil =>
            obtain ⟨rfl, rfl⟩ := List.cons.inj hlog
            exact (transition_start.mp hstart).2
        | cons c mid =>
            rw [List.cons_append] at hlog
            obtain ⟨rfl, rfl⟩ := List.cons.inj hlog
            have hlast := (ih holder).mpr
              ⟨mid, start, rest, rfl, hstart, fun c hc => hmid c (List.mem_cons_of_mem _ hc)⟩
            have hno := hmid b List.mem_cons_self
            rw [ne_eq, transition_end, not_and, Bool.not_eq_false] at hno
            exact hno hlast

/-- An iteration is active when it is the start itself or comes after a start
with no end strictly between. -/
theorem Chained.active_iff {b : Batch α} {older : List (Batch α)} {vad : Bool}
    (h : Chained (b :: older) vad) :
    (b.lastBatchVad || b.batchVad) = true ↔
      ∃ mid start rest, b :: older = mid ++ start :: rest ∧
        transition start = [.speechStart] ∧ ∀ c ∈ mid.tail, transition c ≠ [.speechEnd] := by
  obtain ⟨rfl, holder⟩ := h
  constructor
  · intro hactive
    cases hlast : b.lastBatchVad with
    | false =>
        have hvad : b.batchVad = true := by simpa [hlast] using hactive
        exact ⟨[], b, older, rfl, transition_start.mpr ⟨hlast, hvad⟩, by simp⟩
    | true =>
        obtain ⟨mid, start, rest, rfl, hstart, hmid⟩ := holder.speaking_iff.mp hlast
        exact ⟨b :: mid, start, rest, rfl, hstart, hmid⟩
  · rintro ⟨mid, start, rest, hlog, hstart, hmid⟩
    cases mid with
    | nil =>
        obtain ⟨rfl, rfl⟩ := List.cons.inj hlog
        simp [(transition_start.mp hstart).2]
    | cons c mid =>
        rw [List.cons_append] at hlog
        obtain ⟨rfl, rfl⟩ := List.cons.inj hlog
        have hlast := holder.speaking_iff.mpr ⟨mid, start, rest, rfl, hstart, hmid⟩
        simp [hlast]

/-! ## Every listener hears the transitions -/

/-- A notification that goes to all listeners reaches each of them once. -/
theorem filterMap_range (n i : Nat) (e : VadEvent) :
    ((List.range n).map fun j => (j, e)).filterMap
        (fun e => if e.1 = i then some e.2 else none) = if i < n then [e] else [] := by
  induction n with
  | zero => rfl
  | succ n ih =>
      rw [List.range_succ, List.map_append, List.filterMap_append, ih]
      by_cases hi : i < n
      · simp [hi, Nat.lt_succ_of_lt hi, (Nat.ne_of_lt hi).symm]
      · by_cases heq : n = i
        · simp [heq]
        · simp [hi, heq, show ¬ i < n + 1 by omega]

variable {o : VadOptions} {s s' t : VadSession α}

/-- What the listeners were told, and what the extractor was given. -/
structure Told (o : VadOptions) (s : VadSession α) : Prop where
  heard : ∀ b ∈ s.log, ∀ i, i < o.nVadListeners → heardIn i b = transition b
  features : ∀ b ∈ s.log, b.features.isSome = (b.lastBatchVad || b.batchVad)
  chained : Chained s.log s.feInput.batchVad

theorem told_create (o : VadOptions) : Told o (create o : VadSession α) := by
  constructor <;> simp [create, OnlineVadFeInput.create, Chained]

/-- In an iteration every listener hears the transition. -/
theorem Iterated.heardIn_eq {c : ComputeCall} {b : Batch α}
    (h : Iterated o s s' c b)
    {i : Nat} (hi : i < o.nVadListeners) : heardIn i b = transition b := by
  have hlast := h.last
  have hvad := h.vad
  rcases h.outcome (Nat.zero_lt_of_lt hi) with
    ⟨hold, -, hnew, -, hev⟩ | ⟨hold, -, hnew, -, hev⟩ | ⟨hold, -, hnew, -, hev⟩ |
    ⟨hold, -, hnew, -, -, hev⟩ | ⟨hold, -, hnew, -, hev⟩ <;>
    rw [hold] at hlast <;> rw [hnew] at hvad
  · simp [heardIn, transition, hlast, hvad, hev]
  · rw [heardIn, hev, filterMap_range, if_pos hi, transition_start.mpr ⟨hlast, hvad⟩]
  · simp [heardIn, transition, hlast, hvad, hev]
  · simp [heardIn, transition, hlast, hvad, hev]
  · rw [heardIn, hev, filterMap_range, if_pos hi, transition_end.mpr ⟨hlast, hvad⟩]

theorem Told.step {l : VadLabel α}
    (h : Told o s)
    (hs : (system o α).step s l = some s') : Told o s' := by
  cases l with
  | call c first =>
      obtain ⟨-, ⟨-, rfl⟩ | ⟨-, -, -, hfe, -, hlog, -⟩⟩ := enter_cases hs
      · exact h
      · have hvad : s'.feInput.batchVad = s.feInput.batchVad := by
          rw [hfe, initBuffer]
          split <;> rfl
        exact ⟨hlog ▸ h.heard, hlog ▸ h.features, by rw [hlog, hvad]; exact h.chained⟩
  | batch speech block =>
      obtain ⟨c, b, hit, -, -⟩ := batch_iterated hs
      have hnew : b.features.isSome = (b.lastBatchVad || b.batchVad) := by
        rw [hit.features]
        cases b.lastBatchVad || b.batchVad <;> rfl
      refine ⟨?_, ?_, ?_⟩
      · rw [hit.log]
        exact List.forall_mem_cons.mpr ⟨fun i hi => hit.heardIn_eq hi, h.heard⟩
      · rw [hit.log]
        exact List.forall_mem_cons.mpr ⟨hnew, h.features⟩
      · rw [hit.log]
        exact ⟨hit.vad, hit.last ▸ h.chained⟩

theorem told_of_reachable (hs : (system o α).Reachable s) : Told o s :=
  hs.invariant (Told o) (told_create o) fun _ _ _ hi he => hi.step he

/-- Each listener has heard the transitions. -/
theorem Told.heard_eq (h : Told o s) {i : Nat} (hi : i < o.nVadListeners) :
    VadSession.heard i s.log = s.log.reverse.flatMap transition := by
  unfold VadSession.heard
  rw [List.flatMap_def, List.flatMap_def]
  congr 1
  refine List.map_congr_left fun b hb => ?_
  exact h.heard b (List.mem_reverse.mp hb) i hi

/-- The extractor is given something exactly from a start that the listener
hears through the matching end. -/
theorem Told.extracts_iff
    (h : Told o s)
    {i : Nat} (hi : i < o.nVadListeners)
    {newer older : List (Batch α)} {b : Batch α}
    (hlog : s.log = newer ++ b :: older) :
    b.features.isSome ↔ ∃ mid start rest, b :: older = mid ++ start :: rest ∧
      heardIn i start = [.speechStart] ∧ ∀ c ∈ mid.tail, heardIn i c ≠ [.speechEnd] := by
  have hmem : ∀ c ∈ b :: older, c ∈ s.log := by
    intro c hc
    rw [hlog]
    exact List.mem_append_right newer hc
  obtain ⟨vad, hchain⟩ := (hlog ▸ h.chained).older
  rw [h.features b (hmem b List.mem_cons_self), hchain.active_iff]
  refine exists_congr fun mid => exists_congr fun start => exists_congr fun rest =>
    and_congr_right fun hsplit => and_congr ?_ ?_
  · have hstart : start ∈ s.log := hmem start (by simp [hsplit])
    rw [h.heard start hstart i hi]
  · refine forall_congr' fun c => imp_congr_right fun hc => ?_
    have hin : c ∈ s.log := hmem c (by simp [hsplit, List.mem_of_mem_tail hc])
    rw [h.heard c hin i hi]

/-! ## The number of listeners does not matter -/

/-- An iteration without the traces of the number of listeners. -/
def outline (b : Batch α) : Batch α := { b with hangoverCount := 0, events := [] }

/-- Two states that differ in the number of listeners only. -/
structure Twin (s t : VadSession α) : Prop where
  bufferLength : t.feInput.bufferLength = s.feInput.bufferLength
  bufferInit : t.feInput.bufferInit = s.feInput.bufferInit
  buffer : t.feInput.buffer = s.feInput.buffer
  batchVad : t.feInput.batchVad = s.feInput.batchVad
  hangover : s.feInput.batchVad = true → t.feInput.hangoverCount = s.feInput.hangoverCount
  call : t.call = s.call
  first : t.first = s.first
  log : t.log.map outline = s.log.map outline

theorem shifted_outline (o : VadOptions) (log : List (Batch α)) :
    shifted o (log.map outline) = shifted o log := by
  simp [shifted, outline, Function.comp_def]

/-- With other listeners a notification leaves the same `batchVad_`, and the
same counter unless speech has ended. -/
theorem notify_twin {o o' : VadOptions}
    (ho : 0 < o.nVadListeners)
    (ho' : 0 < o'.nVadListeners)
    (samplesReq bufferLength : Nat) (last vad : Bool) {count count' : Nat}
    (hcount : last = true → count' = count) :
    (notify o' samplesReq bufferLength last vad count').batchVad =
        (notify o samplesReq bufferLength last vad count).batchVad ∧
      ((notify o samplesReq bufferLength last vad count).batchVad = true →
        (notify o' samplesReq bufferLength last vad count').hangoverCount =
          (notify o samplesReq bufferLength last vad count).hangoverCount) := by
  have h := notify_outcome ho samplesReq bufferLength last vad count
  have h' := notify_outcome ho' samplesReq bufferLength last vad count'
  generalize notify o samplesReq bufferLength last vad count = n at h ⊢
  generalize notify o' samplesReq bufferLength last vad count' = n' at h' ⊢
  cases last with
  | false =>
      cases vad with
      | false =>
          cases h
          cases h'
          exact ⟨rfl, fun hvad => by cases hvad⟩
      | true =>
          cases h
          cases h'
          exact ⟨rfl, fun _ => rfl⟩
  | true =>
      obtain rfl := hcount rfl
      cases vad with
      | true =>
          cases h
          cases h'
          exact ⟨rfl, fun _ => rfl⟩
      | false =>
          cases h with
          | hold hle =>
              cases h' with
              | hold => exact ⟨rfl, fun _ => rfl⟩
              | stop hlt => omega
          | stop hlt =>
              cases h' with
              | hold hle => omega
              | stop => exact ⟨rfl, fun hvad => by cases hvad⟩

section Twins

variable {n : Nat}

/-- The same input with `n` listeners. -/
def withListeners (o : VadOptions) (n : Nat) : VadOptions := { o with nVadListeners := n }

theorem twin_create (o : VadOptions) (n : Nat) :
    Twin (create o : VadSession α) (create (withListeners o n)) :=
  ⟨rfl, rfl, rfl, rfl, fun _ => rfl, rfl, rfl, rfl⟩

theorem Twin.batch
    (ho : 0 < o.nVadListeners)
    (hn : 0 < n)
    (h : Twin s t)
    {speech : Bool} {block : List α}
    (hs : s.batch o speech block = some s') :
    ∃ t', t.batch (withListeners o n) speech block = some t' ∧ Twin s' t' := by
  obtain ⟨⟨bufferLength₀, bufferInit₀, buffer₀, batchVad₀, count⟩, call₀, first₀, log⟩ := s
  obtain ⟨⟨bufferLength, bufferInit, buffer, batchVad, count'⟩, call, first, log'⟩ := t
  obtain ⟨hlen, hinit, hbuf, hvad, hcount, hcall, hfirst, hlog⟩ := h
  simp only at hlen hinit hbuf hvad hcount hcall hfirst hlog
  subst hlen hinit hbuf hvad hcall hfirst
  unfold VadSession.batch at hs ⊢
  cases call with
  | none => cases hs
  | some c =>
      obtain ⟨hblock, hs⟩ := Option.ite_none_right_eq_some.mp hs
      obtain rfl := Option.some.inj hs
      have hn' : 0 < (withListeners o n).nVadListeners := hn
      obtain ⟨hsame, hhang⟩ := notify_twin ho hn' (o.samplesReq c.nvec) bufferLength batchVad
        speech hcount
      have hstart : shifted (withListeners o n) log' = shifted o log := by
        have hshift := congrArg (shifted o) hlog
        rwa [shifted_outline, shifted_outline] at hshift
      have hreq : (withListeners o n).samplesReq c.nvec = o.samplesReq c.nvec := rfl
      refine ⟨_, if_pos hblock, ?_⟩
      refine ⟨rfl, rfl, rfl, hsame, hhang, ?_, rfl, ?_⟩
      · simp only [hreq, hsame]
      · rw [List.map_cons, List.map_cons, hlog]
        congr 1
        simp only [outline, hreq, hsame, hstart]
        rfl

theorem Twin.enter
    (h : Twin s t)
    {c : ComputeCall} {block : List α}
    (hs : s.enter o c block = some s') :
    ∃ t', t.enter (withListeners o n) c block = some t' ∧ Twin s' t' := by
  obtain ⟨⟨bufferLength₀, bufferInit₀, buffer₀, batchVad₀, count⟩, call₀, first₀, log⟩ := s
  obtain ⟨⟨bufferLength, bufferInit, buffer, batchVad, count'⟩, call, first, log'⟩ := t
  obtain ⟨hlen, hinit, hbuf, hvad, hcount, hcall, hfirst, hlog⟩ := h
  simp only at hlen hinit hbuf hvad hcount hcall hfirst hlog
  subst hlen hinit hbuf hvad hcall hfirst
  unfold VadSession.enter at hs ⊢
  cases call with
  | some c' => cases hs
  | none =>
      simp only at hs ⊢
      by_cases hzero : c.nvec = 0
      · rw [if_pos hzero] at hs ⊢
        obtain rfl := Option.some.inj hs
        exact ⟨_, rfl, rfl, rfl, rfl, rfl, hcount, rfl, rfl, hlog⟩
      · rw [if_neg hzero] at hs ⊢
        obtain ⟨hfits, hs⟩ := Option.ite_none_right_eq_some.mp hs
        obtain rfl := Option.some.inj hs
        cases bufferInit with
        | false => exact ⟨_, if_pos hfits, rfl, rfl, rfl, rfl, hcount, rfl, rfl, hlog⟩
        | true => exact ⟨_, if_pos hfits, rfl, rfl, rfl, rfl, hcount, rfl, rfl, hlog⟩

/-- A run with one set of listeners is a run with the other. -/
theorem Twin.run
    (ho : 0 < o.nVadListeners)
    (hn : 0 < n)
    (h : Twin s t)
    {labels : List (VadLabel α)}
    (hs : (system o α).runFrom s labels = some s') :
    ∃ t', (system (withListeners o n) α).runFrom t labels = some t' ∧ Twin s' t' := by
  induction labels generalizing s t with
  | nil =>
      obtain rfl : s = s' := Option.some.inj hs
      exact ⟨t, rfl, h⟩
  | cons l labels ih =>
      obtain ⟨u, hu, hrest⟩ := Option.bind_eq_some_iff.mp hs
      obtain ⟨v, hv, htwin⟩ : ∃ v, (system (withListeners o n) α).step t l = some v ∧
          Twin u v := by
        cases l with
        | call c block => exact h.enter hu
        | batch speech block => exact h.batch ho hn hu
      obtain ⟨t', ht', htwin'⟩ := ih htwin hrest
      refine ⟨t', ?_, htwin'⟩
      rw [Transition.System.runFrom, hv, Option.bind_some, ht']

end Twins

/-- What is to hold of a run for its listeners: all of them hear the same, the start and the
end of speech in turn; the extractor is given the front of the buffer exactly in the
iterations from a start through the matching end; and with other listeners, as many as there
is room for, the same answers of the detector and the source lead to the same events and the
same windows. -/
structure ListenersAgree (o : VadOptions) (labels : List (VadLabel α)) (s : VadSession α) :
    Prop where
  same : ∀ i j, i < o.nVadListeners → j < o.nVadListeners → heard i s.log = heard j s.log
  alternate : ∀ i, i < o.nVadListeners → Alternates .speechStart (heard i s.log)
  extracts : ∀ i, i < o.nVadListeners → ∀ newer b older, s.log = newer ++ b :: older →
    (b.features.isSome ↔ ∃ mid start rest, b :: older = mid ++ start :: rest ∧
      heardIn i start = [.speechStart] ∧ ∀ c ∈ mid.tail, heardIn i c ≠ [.speechEnd])
  others : ∀ n, 0 < n → ∃ t,
    (system (withListeners o n) α).runFrom (create (withListeners o n)) labels = some t ∧
    (∀ i j, i < o.nVadListeners → j < n → heard j t.log = heard i s.log) ∧
    t.log.map Batch.features = s.log.map Batch.features

/-- In every run with at least one listener. -/
theorem listeners_agree (o : VadOptions)
    (ho : 0 < o.nVadListeners)
    {labels : List (VadLabel α)}
    (hs : (system o α).runFrom (create o) labels = some s) : ListenersAgree o labels s := by
  have htold := told_of_reachable (Transition.System.reachable_of_run hs)
  refine ⟨fun i j hi hj => ?_, fun i hi => ?_, fun i hi newer b older hlog => ?_, fun n hn => ?_⟩
  · rw [htold.heard_eq hi, htold.heard_eq hj]
  · rw [htold.heard_eq hi]
    exact htold.chained.alternates.1
  · exact htold.extracts_iff hi hlog
  · obtain ⟨t, ht, htwin⟩ := (twin_create o n).run ho hn hs
    have htold' := told_of_reachable (Transition.System.reachable_of_run ht)
    refine ⟨t, ht, fun i j hi hj => ?_, ?_⟩
    · rw [htold.heard_eq hi, htold'.heard_eq hj]
      have hmap := congrArg (List.map transition) htwin.log
      rw [List.map_map, List.map_map] at hmap
      rw [List.flatMap_def, List.flatMap_def, List.map_reverse, List.map_reverse]
      exact congrArg (fun l => l.reverse.flatten) hmap
    · have hmap := congrArg (List.map Batch.features) htwin.log
      rwa [List.map_map, List.map_map] at hmap

/-- **All listeners hear the same, if there is room for them.**  `AddVadListener` is called
for each of any number of listeners before the first `Compute`.  If there are at most 128,
all runs are as they should be; the next one is written behind the array. -/
theorem listeners_agree_iff (α : Type*) (o : VadOptions) (ho : o.nVadListeners = 0) {k : Nat}
    (hk : 0 < k) :
    (∃ o', o.addVadListeners k = some o' ∧ o'.nVadListeners = k ∧
      ∀ (labels : List (VadLabel α)) (s : VadSession α),
        (system o' α).runFrom (create o') labels = some s → ListenersAgree o' labels s) ↔
      k ≤ VadOptions.maxVadListeners := by
  rw [VadOptions.addVadListeners_eq, ho, Nat.zero_add]
  constructor
  · rintro ⟨o', hadd, -⟩
    obtain ⟨hroom, -⟩ := Option.ite_none_right_eq_some.mp hadd
    omega
  · intro hroom
    refine ⟨_, if_pos (Or.inr hroom), rfl, ?_⟩
    intro labels s hs
    exact listeners_agree _ hk hs

/-- Frames of two samples, and no listener yet. -/
def noListener : VadOptions where
  frameSize := 2
  frameShift := 1
  bufferLength := 1
  nVadListeners := 0

/-- The listener behind the last one. -/
theorem listener_behind_array : noListener.addVadListeners 129 = none := by
  rw [VadOptions.addVadListeners_eq]
  rfl

/-- A call of `Compute` with speech, and four with silence. -/
def speechAndSilence : List (VadLabel Nat) :=
  [.call ⟨1, none⟩ [10, 11, 12], .batch true [13], .call ⟨1, none⟩ [], .batch false [14],
    .call ⟨1, none⟩ [], .batch false [15], .call ⟨1, none⟩ [], .batch false [16],
    .call ⟨1, none⟩ [], .batch false [17]]

/-- Two listeners hear the same start and the same end of speech. -/
theorem listeners_agree_iff_two : ∃ (o : VadOptions) (s : VadSession Nat),
    noListener.addVadListeners 2 = some o ∧
      (system o Nat).runFrom (create o) speechAndSilence = some s ∧
      heard 1 s.log = [.speechStart, .speechEnd] ∧ ListenersAgree o speechAndSilence s := by
  obtain ⟨o, ho, -, hagree⟩ :=
    (listeners_agree_iff Nat noListener rfl (show 0 < 2 by decide)).mpr (by decide)
  obtain rfl : withListeners noListener 2 = o := Option.some.inj ho
  obtain ⟨s, hs, hheard⟩ : ∃ s, (system (withListeners noListener 2) Nat).runFrom
      (create (withListeners noListener 2)) speechAndSilence = some s ∧
        heard 1 s.log = [.speechStart, .speechEnd] := ⟨_, rfl, by decide⟩
  exact ⟨_, s, ho, hs, hheard, hagree _ _ hs⟩

end VadSession

end ThreadedServer
