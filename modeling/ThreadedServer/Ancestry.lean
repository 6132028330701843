import Mathlib.Data.List.Infix

/-!
# Common ancestors of back-pointer chains

A search that keeps back pointers represents a path by its last node.  Here a
node is the list of nodes from it back to the root, so that the ancestors of a
node are the suffixes of its chain.  Some of the nodes are marked, for example
those that consume input, and paths that have consumed the same amount of input
have the same number of marked nodes.

The latest marked node that several paths share is found by going back from all
of them at once, one marked node at a time: as long as two of the nodes reached
are different, what they share is what the marked nodes before them share.
-/

namespace Ancestry

variable {α : Type*} (p : α → Bool)

/-- A chain whose last node is marked. -/
def Marked (chain : List α) : Prop := ∃ a rest, chain = a :: rest ∧ p a = true

/-- The number of marked nodes. -/
def level (chain : List α) : Nat := chain.countP p

/-- The latest marked ancestor, the node itself included. -/
def skip (chain : List α) : List α := chain.dropWhile fun a => !p a

/-- The marked node before the last one. -/
def previous (chain : List α) : List α := skip p chain.tail

/-- An ancestor of all of these chains. -/
def Common (chains : List (List α)) (u : List α) : Prop := ∀ c ∈ chains, u <:+ c

/-- The latest marked ancestor of all of these chains. -/
structure LatestCommon (chains : List (List α)) (u : List α) : Prop where
  marked : Marked p u
  common : Common chains u
  latest : ∀ v, Marked p v → Common chains v → v <:+ u

variable {p}

theorem skip_suffix (c : List α) : skip p c <:+ c := List.dropWhile_suffix _

theorem previous_suffix (c : List α) : previous p c <:+ c :=
  (skip_suffix _).trans (List.tail_suffix c)

theorem level_mono {u c : List α} (h : u <:+ c) : level p u ≤ level p c :=
  h.sublist.countP_le

theorem level_skip (c : List α) : level p (skip p c) = level p c := by
  induction c with
  | nil => rfl
  | cons a rest ih =>
      cases ha : p a with
      | true => simp [skip, ha]
      | false =>
          have hskip : skip p (a :: rest) = skip p rest := by simp [skip, ha]
          rw [hskip, ih]
          simp [level, ha]

/-- Skipping either finds a marked node or arrives behind the root. -/
theorem skip_eq_nil_or_marked (c : List α) : skip p c = [] ∨ Marked p (skip p c) := by
  induction c with
  | nil => exact Or.inl rfl
  | cons a rest ih =>
      cases ha : p a with
      | true => exact Or.inr ⟨a, rest, by simp [skip, ha], ha⟩
      | false =>
          have hskip : skip p (a :: rest) = skip p rest := by simp [skip, ha]
          rw [hskip]
          exact ih

theorem Marked.level_pos {c : List α} (h : Marked p c) : 0 < level p c := by
  obtain ⟨a, rest, rfl, ha⟩ := h
  simp [level, ha]

theorem Marked.ne_nil {c : List α} (h : Marked p c) : c ≠ [] := by
  obtain ⟨a, rest, rfl, -⟩ := h
  exact List.cons_ne_nil a rest

theorem marked_skip_iff {c : List α} : Marked p (skip p c) ↔ 0 < level p c := by
  constructor
  · intro h
    rw [← level_skip]
    exact h.level_pos
  · intro hpos
    rcases skip_eq_nil_or_marked (p := p) c with hnil | h
    · rw [← level_skip, hnil] at hpos
      exact absurd hpos (Nat.lt_irrefl 0)
    · exact h

theorem skip_of_level_zero {c : List α} (h : level p c = 0) : skip p c = [] := by
  rcases skip_eq_nil_or_marked (p := p) c with hnil | hmarked
  · exact hnil
  · have := marked_skip_iff.mp hmarked
    omega

/-- A marked ancestor is not skipped. -/
theorem Marked.suffix_skip_iff {u c : List α} (h : Marked p u) :
    u <:+ skip p c ↔ u <:+ c := by
  refine ⟨fun hu => hu.trans (skip_suffix c), fun hu => ?_⟩
  induction c with
  | nil => exact hu
  | cons a rest ih =>
      cases ha : p a with
      | true => simpa [skip, ha] using hu
      | false =>
          have hskip : skip p (a :: rest) = skip p rest := by simp [skip, ha]
          rw [hskip]
          rcases List.suffix_cons_iff.mp hu with rfl | hrest
          · obtain ⟨b, tail, heq, hb⟩ := h
            injection heq with hab
            rw [hab, hb] at ha
            cases ha
          · exact ih hrest

/-- On a marked chain the marked ancestors before it are at lower levels. -/
theorem Marked.level_previous {c : List α} (h : Marked p c) :
    level p (previous p c) + 1 = level p c := by
  obtain ⟨a, rest, rfl, ha⟩ := h
  rw [previous, List.tail_cons, level_skip]
  simp [level, ha]

/-- A marked ancestor is the chain itself, or comes before. -/
theorem Marked.eq_or_suffix_previous {u c : List α} (hu : Marked p u) (h : u <:+ c) :
    u = c ∨ u <:+ previous p c := by
  cases c with
  | nil => exact Or.inl (List.suffix_nil.mp h)
  | cons a rest => exact (List.suffix_cons_iff.mp h).imp_right hu.suffix_skip_iff.mpr

/-- At one level there is only one ancestor. -/
theorem Marked.eq_of_level {u c : List α} (hu : Marked p u) (hc : Marked p c) (h : u <:+ c)
    (hlevel : level p u = level p c) : u = c := by
  rcases hu.eq_or_suffix_previous h with heq | hprev
  · exact heq
  · have hle := level_mono (p := p) hprev
    have := hc.level_previous
    omega

/-! ## The latest common ancestor -/

theorem LatestCommon.unique {chains : List (List α)} {u v : List α}
    (hu : LatestCommon p chains u) (hv : LatestCommon p chains v) : u = v :=
  List.IsSuffix.eq_of_length_le (hv.latest u hu.marked hu.common)
    (hu.latest v hv.marked hv.common).length_le

/-- Where something marked is shared, there is a latest one. -/
theorem exists_latestCommon {chains : List (List α)} {u : List α} (hne : chains ≠ [])
    (hu : Marked p u) (hcommon : Common chains u) : ∃ v, LatestCommon p chains v := by
  obtain ⟨c, hc⟩ := List.exists_mem_of_ne_nil _ hne
  induction hlength : c.length - u.length using Nat.strong_induction_on generalizing u with
  | _ k ih =>
      by_cases hlatest : ∀ v, Marked p v → Common chains v → v <:+ u
      · exact ⟨u, hu, hcommon, hlatest⟩
      · push Not at hlatest
        obtain ⟨v, hv, hvc, hnot⟩ := hlatest
        have hlt : u.length < v.length := by
          by_contra hle
          exact hnot (List.suffix_of_suffix_length_le (hvc c hc) (hcommon c hc) (by omega))
        have hle := (hvc c hc).length_le
        exact ih (c.length - v.length) (by omega) hv hvc rfl

/-- It depends only on what is shared. -/
theorem latestCommon_congr {chains chains' : List (List α)}
    (h : ∀ v, Marked p v → (Common chains v ↔ Common chains' v)) {u : List α} :
    LatestCommon p chains u ↔ LatestCommon p chains' u := by
  constructor
  · intro hu
    exact ⟨hu.marked, (h u hu.marked).mp hu.common,
      fun v hv hc => hu.latest v hv ((h v hv).mpr hc)⟩
  · intro hu
    exact ⟨hu.marked, (h u hu.marked).mpr hu.common,
      fun v hv hc => hu.latest v hv ((h v hv).mp hc)⟩

theorem latestCommon_singleton {c u : List α} (hc : Marked p c) :
    LatestCommon p [c] u ↔ u = c := by
  constructor
  · intro hu
    have hsuffix := hu.common c (List.mem_singleton.mpr rfl)
    refine List.IsSuffix.eq_of_length_le hsuffix ?_
    refine (hu.latest c hc fun d hd => ?_).length_le
    rw [List.mem_singleton.mp hd]
  · rintro rfl
    refine ⟨hc, fun d hd => ?_, fun v _ hv => hv _ (List.mem_singleton.mpr rfl)⟩
    rw [List.mem_singleton.mp hd]

/-- The marked nodes that are shared are those that the latest marked nodes share. -/
theorem common_skip_iff {chains : List (List α)} {u : List α} (hu : Marked p u) :
    Common (chains.map (skip p)) u ↔ Common chains u := by
  simp only [Common, List.forall_mem_map]
  exact forall₂_congr fun c _ => hu.suffix_skip_iff

/-- **One level back.**  Two different marked nodes of one level share what the
marked nodes before them share. -/
theorem common_previous_iff {chains : List (List α)} {k : Nat}
    (hmarked : ∀ c ∈ chains, Marked p c) (hlevel : ∀ c ∈ chains, level p c = k)
    {a b : List α} (ha : a ∈ chains) (hb : b ∈ chains) (hne : a ≠ b)
    {u : List α} (hu : Marked p u) :
    Common (chains.map (previous p)) u ↔ Common chains u := by
  simp only [Common, List.forall_mem_map]
  constructor
  · intro h c hc
    exact (h c hc).trans (previous_suffix c)
  · intro h
    have hbelow : level p u < k := by
      by_contra hge
      have heq : ∀ c ∈ chains, u = c := by
        intro c hc
        have hle := level_mono (p := p) (h c hc)
        have hk := hlevel c hc
        exact hu.eq_of_level (hmarked c hc) (h c hc) (by omega)
      exact hne ((heq a ha).symm.trans (heq b hb))
    intro c hc
    rcases hu.eq_or_suffix_previous (h c hc) with rfl | hprev
    · have hk := hlevel u hc
      omega
    · exact hprev

/-- At the first level, two different nodes share nothing marked. -/
theorem not_common_of_level_one {chains : List (List α)}
    (hmarked : ∀ c ∈ chains, Marked p c) (hlevel : ∀ c ∈ chains, level p c = 1)
    {a b : List α} (ha : a ∈ chains) (hb : b ∈ chains) (hne : a ≠ b)
    {u : List α} (hu : Marked p u) : ¬ Common chains u := by
  intro h
  have hprev := (common_previous_iff hmarked hlevel ha hb hne hu).mpr h _
    (List.mem_map_of_mem ha)
  have hle := level_mono (p := p) hprev
  have hstep := (hmarked a ha).level_previous
  have hone := hlevel a ha
  have hpos := hu.level_pos
  omega

end Ancestry
