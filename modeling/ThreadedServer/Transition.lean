import Mathlib.Data.List.Forall2
import Mathlib.Data.Option.Basic

/-!
# Runs of a transition system

The threads and parties of this development take atomic steps.  A system is
an executable step function: `step s e` is `some t` when the step named `e` is
enabled in `s` and leads to `t`.  What is claimed of "every interleaving" is
claimed of the states that runs arrive at, so this file packages the induction
behind all of those results once, for arbitrary runs and for the runs whose
steps all start in a state that meets a given condition.
-/

namespace Transition

/-- A transition system with its initial state and its enabled steps. -/
structure System (σ ι : Type*) where
  init : σ
  step : σ → ι → Option σ

namespace System

variable {σ ι : Type*} (sys : System σ ι)

/-- Replay a sequence of steps; `none` if one of them is not enabled. -/
def runFrom : σ → List ι → Option σ
  | s, [] => some s
  | s, e :: es => (sys.step s e).bind fun t => runFrom t es

/-- Replay a sequence of steps, each of which has to meet the condition. -/
def runVia (ok : σ → ι → Prop) [∀ s e, Decidable (ok s e)] : σ → List ι → Option σ
  | s, [] => some s
  | s, e :: es =>
      if ok s e then (sys.step s e).bind fun t => runVia ok t es else none

/-- The states reached by runs that take a step `e` in a state `s` only when
`ok s e`. -/
inductive ReachableVia (ok : σ → ι → Prop) : σ → Prop
  | init : ReachableVia ok sys.init
  | step {s t : σ} {e : ι} (hs : ReachableVia ok s) (hok : ok s e)
      (he : sys.step s e = some t) : ReachableVia ok t

/-- The states reached by arbitrary runs. -/
def Reachable : σ → Prop := sys.ReachableVia fun _ _ => True

/-- From `s` some run, possibly empty, leads to `t`. -/
def Leads (s t : σ) : Prop := ∃ es, sys.runFrom s es = some t

/-- From `s` the step `e`, taken again and again and nothing else, leads to `t`. -/
def LeadsBy (e : ι) (s t : σ) : Prop := ∃ n, sys.runFrom s (List.replicate n e) = some t

variable {sys}

/-- A run under a condition is a run. -/
theorem ReachableVia.reachable {ok : σ → ι → Prop} {s : σ}
    (h : sys.ReachableVia ok s) : sys.Reachable s := by
  induction h with
  | init => exact ReachableVia.init
  | step _ _ he ih => exact ReachableVia.step ih trivial he

/-- **The invariant rule.**  What holds initially and is kept by every step
that meets the condition holds in every state reached; facts about all
reachable states may be used on the way. -/
theorem ReachableVia.invariant {ok : σ → ι → Prop} (inv : σ → Prop)
    (hinit : inv sys.init)
    (hstep : ∀ s e t, sys.Reachable s → ok s e → inv s →
      sys.step s e = some t → inv t)
    {s : σ} (h : sys.ReachableVia ok s) : inv s := by
  induction h with
  | init => exact hinit
  | step hs hok he ih => exact hstep _ _ _ hs.reachable hok ih he

/-- The invariant rule for arbitrary runs. -/
theorem Reachable.invariant (inv : σ → Prop) (hinit : inv sys.init)
    (hstep : ∀ s e t, inv s → sys.step s e = some t → inv t)
    {s : σ} (h : sys.Reachable s) : inv s :=
  ReachableVia.invariant inv hinit (fun s e t _ _ hi he => hstep s e t hi he) h

theorem Leads.refl (s : σ) : sys.Leads s s := ⟨[], rfl⟩

theorem Leads.head {s t u : σ} {e : ι} (he : sys.step s e = some t)
    (h : sys.Leads t u) : sys.Leads s u := by
  obtain ⟨es, hes⟩ := h
  exact ⟨e :: es, by simp [runFrom, he, hes]⟩

theorem LeadsBy.refl (e : ι) (s : σ) : sys.LeadsBy e s s := ⟨0, rfl⟩

theorem LeadsBy.head {s t u : σ} {e : ι} (he : sys.step s e = some t)
    (h : sys.LeadsBy e t u) : sys.LeadsBy e s u := by
  obtain ⟨n, hn⟩ := h
  exact ⟨n + 1, by simp [List.replicate_succ, runFrom, he, hn]⟩

theorem runFrom_cons {s t : σ} {e : ι} (he : sys.step s e = some t) (es : List ι) :
    sys.runFrom s (e :: es) = sys.runFrom t es := by
  rw [runFrom, he, Option.bind_some]

theorem runFrom_append (s : σ) (es fs : List ι) :
    sys.runFrom s (es ++ fs) = (sys.runFrom s es).bind fun t => sys.runFrom t fs := by
  induction es generalizing s with
  | nil => rfl
  | cons e es ih =>
      cases he : sys.step s e with
      | none => simp [runFrom, he]
      | some t => simp [runFrom, he, ih]

theorem Leads.trans {s t u : σ} (h : sys.Leads s t) (h' : sys.Leads t u) :
    sys.Leads s u := by
  obtain ⟨es, hes⟩ := h
  obtain ⟨fs, hfs⟩ := h'
  exact ⟨es ++ fs, by simp [runFrom_append, hes, hfs]⟩

/-- **The loop rule.**  A loop that goes from each of its rounds to the next one
leads from the first round to the last. -/
theorem Leads.count {e : ι} (round : Nat → σ) (n : Nat)
    (hstep : ∀ k < n, sys.step (round k) e = some (round (k + 1))) :
    sys.Leads (round 0) (round n) := by
  induction n with
  | zero => exact Leads.refl _
  | succ n ih =>
      have hbefore : sys.Leads (round 0) (round n) := by
        apply ih
        intro k hk
        exact hstep k (by omega)
      have hlast : sys.step (round n) e = some (round (n + 1)) := hstep n (by omega)
      exact hbefore.trans (Leads.head hlast (Leads.refl _))

theorem LeadsBy.trans {s t u : σ} {e : ι} (h : sys.LeadsBy e s t)
    (h' : sys.LeadsBy e t u) : sys.LeadsBy e s u := by
  obtain ⟨n, hn⟩ := h
  obtain ⟨m, hm⟩ := h'
  exact ⟨n + m, by simp [← List.replicate_append_replicate, runFrom_append, hn, hm]⟩

/-- What a reachable state leads to is reachable. -/
theorem Reachable.leads {s t : σ} (h : sys.Reachable s) (hst : sys.Leads s t) :
    sys.Reachable t := by
  obtain ⟨es, hes⟩ := hst
  induction es generalizing s with
  | nil =>
      obtain rfl : s = t := Option.some.inj hes
      exact h
  | cons e es ih =>
      obtain ⟨u, hu, hrest⟩ := Option.bind_eq_some_iff.mp hes
      exact ih (ReachableVia.step h trivial hu) hrest

/-- Replaying steps from the initial state shows what is reachable. -/
theorem reachable_of_run {s : σ} {es : List ι}
    (h : sys.runFrom sys.init es = some s) : sys.Reachable s :=
  Reachable.leads ReachableVia.init ⟨es, h⟩

theorem ReachableVia.run {ok : σ → ι → Prop} [∀ s e, Decidable (ok s e)] {s t : σ}
    {es : List ι} (h : sys.ReachableVia ok s) (hrun : sys.runVia ok s es = some t) :
    sys.ReachableVia ok t := by
  induction es generalizing s with
  | nil =>
      obtain rfl : s = t := Option.some.inj hrun
      exact h
  | cons e es ih =>
      obtain ⟨hok, hrun⟩ := Option.ite_none_right_eq_some.mp hrun
      obtain ⟨u, hu, hrest⟩ := Option.bind_eq_some_iff.mp hrun
      exact ih (.step h hok hu) hrest

theorem runFrom_of_runVia {ok : σ → ι → Prop} [∀ s e, Decidable (ok s e)] {s t : σ}
    {es : List ι} (h : sys.runVia ok s es = some t) : sys.runFrom s es = some t := by
  induction es generalizing s with
  | nil => exact h
  | cons e es ih =>
      obtain ⟨-, h⟩ := Option.ite_none_right_eq_some.mp h
      obtain ⟨u, hu, hrest⟩ := Option.bind_eq_some_iff.mp h
      exact Option.bind_eq_some_iff.mpr ⟨u, hu, ih hrest⟩

/-- **Projection.**  Where each step either takes a component along by a step of its
own or leaves it alone, a run takes the component where its own steps lead. -/
theorem runFrom_project {τ κ : Type*} {comp : System τ κ} (view : σ → τ)
    {label : ι → Option κ}
    (hown : ∀ s e t l, sys.step s e = some t → label e = some l →
      comp.step (view s) l = some (view t))
    (hother : ∀ s e t, sys.step s e = some t → label e = none → view t = view s)
    {s t : σ} {es : List ι} (h : sys.runFrom s es = some t) :
    comp.runFrom (view s) (es.filterMap label) = some (view t) := by
  induction es generalizing s with
  | nil =>
      obtain rfl : s = t := Option.some.inj h
      rfl
  | cons e es ih =>
      obtain ⟨u, hu, hrest⟩ := Option.bind_eq_some_iff.mp h
      cases hl : label e with
      | none =>
          rw [List.filterMap_cons_none hl, ← hother s e u hu hl]
          exact ih hrest
      | some l =>
          rw [List.filterMap_cons_some hl]
          exact Option.bind_eq_some_iff.mpr ⟨view u, hown s e u l hu hl, ih hrest⟩

/-- The runs of a component, under the condition that the component's labels meet. -/
theorem ReachableVia.project {τ κ : Type*} {comp : System τ κ} (view : σ → τ)
    (label : σ → ι → κ) {ok : τ → κ → Prop} (hinit : view sys.init = comp.init)
    (hstep : ∀ s e t, sys.step s e = some t → comp.step (view s) (label s e) = some (view t))
    {s : σ} (h : sys.ReachableVia (fun s e => ok (view s) (label s e)) s) :
    comp.ReachableVia ok (view s) := by
  induction h with
  | init =>
      rw [hinit]
      exact ReachableVia.init
  | step _ hok he ih => exact ReachableVia.step ih hok (hstep _ _ _ he)

/-- **The measure rule.**  Where every step that meets the condition lowers a measure,
runs that meet it are no longer than the measure at their beginning. -/
theorem runVia_length_le {ok : σ → ι → Prop} [∀ s e, Decidable (ok s e)] (inv : σ → Prop)
    (measure : σ → Nat)
    (hstep : ∀ s e t, inv s → ok s e → sys.step s e = some t → inv t ∧ measure t < measure s)
    {s t : σ} {es : List ι} (hs : inv s) (h : sys.runVia ok s es = some t) :
    es.length ≤ measure s := by
  induction es generalizing s with
  | nil => exact Nat.zero_le _
  | cons e es ih =>
      obtain ⟨hok, h⟩ := Option.ite_none_right_eq_some.mp h
      obtain ⟨u, hu, hrest⟩ := Option.bind_eq_some_iff.mp h
      obtain ⟨hinv, hlt⟩ := hstep s e u hs hok hu
      have hle := ih hinv hrest
      rw [List.length_cons]
      omega

/-- **The measure rule with noise.**  Where a step lowers a measure, unless it is noise, which
raises it by `c` at most, a run is no longer than the measure at its beginning and `c + 1`
for each noise in it. -/
theorem runFrom_length_le (inv : σ → Prop) (measure : σ → Nat) (noise : ι → Bool) (c : Nat)
    (hstep : ∀ s e t, inv s → sys.step s e = some t →
      inv t ∧ (noise e = false → measure t < measure s) ∧ measure t ≤ measure s + c)
    {s t : σ} {es : List ι} (hs : inv s) (h : sys.runFrom s es = some t) :
    es.length ≤ measure s + (c + 1) * es.countP noise := by
  induction es generalizing s with
  | nil => exact Nat.zero_le _
  | cons e es ih =>
      obtain ⟨u, hu, hrest⟩ := Option.bind_eq_some_iff.mp h
      obtain ⟨hinv, hlower, hraise⟩ := hstep s e u hs hu
      have hle := ih hinv hrest
      rw [List.length_cons, List.countP_cons]
      cases he : noise e with
      | false =>
          have := hlower he
          simp only [Bool.false_eq_true, if_false, Nat.add_zero]
          omega
      | true =>
          simp only [if_true, Nat.mul_add, Nat.mul_one]
          omega

/-- What every step keeps is kept by runs. -/
theorem runFrom_invariant (inv : σ → Prop)
    (hstep : ∀ s e t, inv s → sys.step s e = some t → inv t) {s t : σ} {es : List ι}
    (hs : inv s) (h : sys.runFrom s es = some t) : inv t := by
  induction es generalizing s with
  | nil =>
      obtain rfl : s = t := Option.some.inj h
      exact hs
  | cons e es ih =>
      obtain ⟨u, hu, hrest⟩ := Option.bind_eq_some_iff.mp h
      exact ih (hstep s e u hs hu) hrest

/-- **The simulation rule.**  Where each step of one system has its counterpart, with a
related label, in another one, runs with related labels keep the relation. -/
theorem runFrom_simulates {τ κ : Type*} {other : System τ κ} (rel : σ → τ → Prop)
    (label : ι → κ → Prop)
    (hstep : ∀ s e s' t l, rel s t → label e l → sys.step s e = some s' →
      ∃ t', other.step t l = some t' ∧ rel s' t')
    {s s' : σ} {t : τ} {es : List ι} {ls : List κ} (hst : rel s t)
    (hlabels : List.Forall₂ label es ls) (h : sys.runFrom s es = some s') :
    ∃ t', other.runFrom t ls = some t' ∧ rel s' t' := by
  induction hlabels generalizing s t with
  | nil =>
      obtain rfl : s = s' := Option.some.inj h
      exact ⟨t, rfl, hst⟩
  | cons hlabel _ ih =>
      obtain ⟨u, hu, hrest⟩ := Option.bind_eq_some_iff.mp h
      obtain ⟨v, hv, huv⟩ := hstep s _ u t _ hst hlabel hu
      obtain ⟨t', ht', hrel⟩ := ih huv hrest
      exact ⟨t', Option.bind_eq_some_iff.mpr ⟨v, hv, ht'⟩, hrel⟩

/-- Two steps that are enabled in one state lead to the same state, or each can still be
taken after the other, with the same result. -/
def Diamond (sys : System σ ι) : Prop :=
  ∀ s d e t u, sys.step s d = some t → sys.step s e = some u →
    t = u ∨ ∃ v, sys.step t e = some v ∧ sys.step u d = some v

/-- A step brings the end of a run nearer, whether the run takes it or not. -/
theorem Diamond.nearer (hdiamond : sys.Diamond) {s t f : σ} {d : ι} {es : List ι}
    (hend : ∀ e, sys.step f e = none) (hrun : sys.runFrom s es = some f)
    (hstep : sys.step s d = some t) :
    ∃ fs, sys.runFrom t fs = some f ∧ fs.length + 1 = es.length := by
  induction es generalizing s t with
  | nil =>
      obtain rfl : s = f := Option.some.inj hrun
      rw [hend] at hstep
      cases hstep
  | cons e es ih =>
      obtain ⟨u, hu, hrest⟩ := Option.bind_eq_some_iff.mp hrun
      rcases hdiamond s d e t u hstep hu with rfl | ⟨v, htv, huv⟩
      · exact ⟨es, hrest, rfl⟩
      · obtain ⟨fs, hfs, hlength⟩ := ih hrest huv
        refine ⟨e :: fs, Option.bind_eq_some_iff.mpr ⟨v, htv, hfs⟩, ?_⟩
        rw [List.length_cons, List.length_cons, hlength]

/-- **The diamond rule.**  Where steps commute, all runs are on their way to the end of any
of them, and have the same length when they arrive. -/
theorem Diamond.run (hdiamond : sys.Diamond) {s t f : σ} {ds es : List ι}
    (hend : ∀ e, sys.step f e = none) (hrun : sys.runFrom s es = some f)
    (h : sys.runFrom s ds = some t) :
    ∃ fs, sys.runFrom t fs = some f ∧ ds.length + fs.length = es.length := by
  induction ds generalizing s es with
  | nil =>
      obtain rfl : s = t := Option.some.inj h
      exact ⟨es, hrun, Nat.zero_add _⟩
  | cons d ds ih =>
      obtain ⟨u, hu, hrest⟩ := Option.bind_eq_some_iff.mp h
      obtain ⟨fs, hfs, hlength⟩ := hdiamond.nearer hend hrun hu
      obtain ⟨gs, hgs, hsum⟩ := ih hfs hrest
      refine ⟨gs, hgs, ?_⟩
      rw [List.length_cons]
      omega

end System

/-- **The log rule.**  What is claimed of every entry of a log, with the entries on
either side of it, is claimed of the entry at the head and of the rest. -/
theorem forall_split_cons {α : Type*} {claim : List α → α → List α → Prop} {x : α}
    {log : List α} :
    (∀ newer y older, x :: log = newer ++ y :: older → claim newer y older) ↔
      claim [] x log ∧
        ∀ newer y older, log = newer ++ y :: older → claim (x :: newer) y older := by
  constructor
  · intro h
    refine ⟨h [] x log rfl, ?_⟩
    intro newer y older hsplit
    apply h (x :: newer) y older
    rw [hsplit, List.cons_append]
  · rintro ⟨hhead, hrest⟩ newer y older hsplit
    cases newer with
    | nil =>
        obtain ⟨rfl, rfl⟩ := List.cons.inj hsplit
        exact hhead
    | cons z newer =>
        obtain ⟨rfl, htail⟩ := List.cons.inj hsplit
        exact hrest newer y older htail

end Transition
