import Mathlib.Algebra.Order.Ring.Nat
import ThreadedServer.DelayLine

/-!
# Features from a stream of samples

`OnlineFeInput` reads as many samples as the feature vectors that are asked for need, puts
them behind those that the last extraction has left over, and extracts.  The source may
deliver less: when the time is up, or at the end of its data.  However the vectors are
asked for and the samples delivered, the vectors are those that one extraction from the
whole stream would yield; a frame is neither lost at the border of two calls nor computed
twice.

The extractor is not a part of this program.  Of it is assumed what its interface
promises: it computes a vector for each whole frame, and leaves over the samples from
where the next frame begins.
-/

namespace ThreadedServer

open DelayLine

/-- The frames that the extractor is set to. -/
structure FrameOptions where
  frameSize : Nat
  frameShift : Nat
  shift_pos : 0 < frameShift
  shift_le : frameShift ≤ frameSize

namespace FrameOptions

/-- The samples under `nvec` frames. -/
def samples (o : FrameOptions) (nvec : Nat) : Nat := o.frameSize + (nvec - 1) * o.frameShift

/-- The whole frames of a stream and what they leave over. -/
abbrev cut {α : Type*} (o : FrameOptions) (stream : List α) : List (List α) × List α :=
  DelayLine.cut o.frameSize o.frameShift stream

/-- The number of whole frames. -/
abbrev frameCount (o : FrameOptions) (n : Nat) : Nat :=
  DelayLine.frameCount o.frameSize o.frameShift n

theorem frameCount_samples (o : FrameOptions) {nvec : Nat} (h : 0 < nvec) :
    o.frameCount (o.samples nvec) = nvec := by
  obtain ⟨k, rfl⟩ : ∃ k, nvec = k + 1 := ⟨nvec - 1, by omega⟩
  have hshift := o.shift_pos
  refine frameCount_unique hshift ?_ ?_
  · intro j hj
    have hle : j * o.frameShift ≤ k * o.frameShift := Nat.mul_le_mul_right _ (by omega)
    simp only [samples, Nat.add_sub_cancel]
    omega
  · simp only [samples, Nat.add_sub_cancel, Nat.succ_mul]
    omega

end FrameOptions

/-- What `FeatureExtractor::Compute` makes of some samples: the feature vectors and the
remainder; `none` is an exception. -/
abbrev FeatureExtractor (α Row : Type*) := List α → Option (List Row × List α)

/-- What the extractor promises.  Where there is no whole frame, it may throw, or yield no
vector and leave all samples over. -/
structure FeatureExtractor.Documented {α Row : Type*} (extract : FeatureExtractor α Row)
    (o : FrameOptions) (feature : List α → Row) : Prop where
  frames : ∀ wave, o.frameCount wave.length ≠ 0 →
    extract wave = some ((o.cut wave).1.map feature, (o.cut wave).2)
  short : ∀ wave r, o.frameCount wave.length = 0 → extract wave = some r → r = ([], wave)

/-- The member of `OnlineFeInput` that lasts from call to call. -/
structure OnlineFeInput (α : Type*) where
  waveRemainder : List α
  deriving DecidableEq, Repr

/-- A call: the vectors asked for, what `Read` delivers, and whether the time was up. -/
structure FeCall (α : Type*) where
  nvec : Nat
  block : List α
  timedOut : Bool

namespace OnlineFeInput

variable {α Row : Type*}

/-- The constructor. -/
def create : OnlineFeInput α where
  waveRemainder := []

/-- `samples_req`, the samples to read. -/
def samplesReq (o : FrameOptions) (fe : OnlineFeInput α) (nvec : Nat) : Nat :=
  o.samples nvec - fe.waveRemainder.length

/-- `Compute`: the feature vectors, and whether there may be more.  `none` if the remainder
and the block do not fit into `wave_`, or the extractor throws. -/
def compute (o : FrameOptions) (extract : FeatureExtractor α Row) (fe : OnlineFeInput α)
    (c : FeCall α) : Option (OnlineFeInput α × List Row × Bool) :=
  if c.nvec = 0 then some (fe, [], true)
  else if o.samples c.nvec < fe.waveRemainder.length + c.block.length then none
  else
    (extract (fe.waveRemainder ++ c.block)).map fun (output, waveRemainder) =>
      ({ waveRemainder }, output, c.block.length == fe.samplesReq o c.nvec || c.timedOut)

/-- One call after another; what they return. -/
def computeAll (o : FrameOptions) (extract : FeatureExtractor α Row) (fe : OnlineFeInput α) :
    List (FeCall α) → Option (OnlineFeInput α × List (List Row × Bool))
  | [] => some (fe, [])
  | c :: calls =>
      (fe.compute o extract c).bind fun r =>
        (r.1.computeAll o extract calls).map fun r' => (r'.1, r.2 :: r'.2)

/-- The samples that a call takes from the source. -/
def taken (c : FeCall α) : List α := if c.nvec = 0 then [] else c.block

/-- The vectors that calls have returned. -/
def rows (outs : List (List Row × Bool)) : List Row := (outs.map Prod.fst).flatten

/-! ## Any source -/

section AnySource

variable {o : FrameOptions} {extract : FeatureExtractor α Row} {feature : List α → Row}
  {fe : OnlineFeInput α} {c : FeCall α} {seen : List α}

/-- The extractor, whether there is a whole frame or not. -/
theorem extract_eq (hx : extract.Documented o feature) {wave : List α}
    {r : List Row × List α} (h : extract wave = some r) :
    r = ((o.cut wave).1.map feature, (o.cut wave).2) := by
  by_cases hcount : o.frameCount wave.length = 0
  · rw [hx.short wave r hcount h]
    simp only [FrameOptions.cut, DelayLine.cut, hcount]
    simp [frames]
  · exact Option.some.inj (h.symm.trans (hx.frames wave hcount))

/-- What a call makes of the samples that are left over and those that it reads. -/
theorem compute_cut (hx : extract.Documented o feature)
    {r : OnlineFeInput α × List Row × Bool} (h : fe.compute o extract c = some r)
    (hseen : fe.waveRemainder = (o.cut seen).2) :
    r.1.waveRemainder = (o.cut (seen ++ taken c)).2 ∧
      (o.cut (seen ++ taken c)).1.map feature = (o.cut seen).1.map feature ++ r.2.1 := by
  unfold compute at h
  unfold taken
  split at h
  next hnone =>
    obtain rfl := Option.some.inj h
    simp [hnone, hseen]
  next hsome =>
    obtain ⟨-, h⟩ := Option.ite_none_left_eq_some.mp h
    obtain ⟨extracted, hextract, rfl⟩ := Option.map_eq_some_iff.mp h
    obtain rfl := extract_eq hx hextract
    have happend := cut_append o.shift_le o.shift_pos seen c.block
    rw [if_neg hsome]
    simp only [FrameOptions.cut] at hseen ⊢
    rw [happend, hseen, List.map_append]
    exact ⟨rfl, rfl⟩

/-- A call that has read all it asked for yields all vectors that it was asked for. -/
theorem compute_full (hx : extract.Documented o feature)
    {r : OnlineFeInput α × List Row × Bool} (h : fe.compute o extract c = some r)
    (hfull : c.block.length = fe.samplesReq o c.nvec) : r.2.1.length = c.nvec := by
  unfold compute at h
  split at h
  next hnone =>
    obtain rfl := Option.some.inj h
    exact hnone.symm
  next hsome =>
    obtain ⟨hfits, h⟩ := Option.ite_none_left_eq_some.mp h
    obtain ⟨extracted, hextract, rfl⟩ := Option.map_eq_some_iff.mp h
    obtain rfl := extract_eq hx hextract
    have hlength : (fe.waveRemainder ++ c.block).length = o.samples c.nvec := by
      rw [List.length_append]
      rw [samplesReq] at hfull
      omega
    have hcount := o.frameCount_samples (Nat.pos_of_ne_zero hsome)
    show ((o.cut (fe.waveRemainder ++ c.block)).1.map feature).length = c.nvec
    rw [List.length_map, FrameOptions.cut, length_cut, hlength]
    exact hcount

/-- What a call says about there being more. -/
theorem compute_more {r : OnlineFeInput α × List Row × Bool}
    (h : fe.compute o extract c = some r) (hsome : c.nvec ≠ 0) :
    r.2.2 = (c.block.length == fe.samplesReq o c.nvec || c.timedOut) := by
  rw [compute, if_neg hsome] at h
  obtain ⟨-, h⟩ := Option.ite_none_left_eq_some.mp h
  obtain ⟨extracted, -, rfl⟩ := Option.map_eq_some_iff.mp h
  rfl

/-- The calls go on where the samples seen before have left off. -/
theorem computeAll_cut (hx : extract.Documented o feature) {calls : List (FeCall α)}
    {r : OnlineFeInput α × List (List Row × Bool)} (h : fe.computeAll o extract calls = some r)
    (hseen : fe.waveRemainder = (o.cut seen).2) :
    r.1.waveRemainder = (o.cut (seen ++ calls.flatMap taken)).2 ∧
      (o.cut (seen ++ calls.flatMap taken)).1.map feature =
        (o.cut seen).1.map feature ++ rows r.2 := by
  induction calls generalizing fe seen r with
  | nil =>
      obtain rfl := Option.some.inj h
      simp [hseen, rows]
  | cons c calls ih =>
      obtain ⟨first, hfirst, h⟩ := Option.bind_eq_some_iff.mp h
      obtain ⟨later, hlater, rfl⟩ := Option.map_eq_some_iff.mp h
      obtain ⟨hrest, hrows⟩ := compute_cut hx hfirst hseen
      obtain ⟨hrest', hrows'⟩ := ih hlater hrest
      rw [List.flatMap_cons, ← List.append_assoc]
      refine ⟨hrest', ?_⟩
      rw [hrows', hrows, List.append_assoc]
      rfl

/-- The frames of nothing are none, and leave nothing over. -/
theorem cut_nil (o : FrameOptions) : o.cut ([] : List α) = ([], []) := by
  have hpos : 0 < o.frameSize := Nat.lt_of_lt_of_le o.shift_pos o.shift_le
  have hcount : o.frameCount 0 = 0 := if_pos hpos
  simp only [FrameOptions.cut, DelayLine.cut, List.length_nil, hcount]
  simp [frames]

/-- **Online extraction is extraction from the stream.**  Whatever numbers of vectors are asked
for and however many samples each call is delivered, the vectors of all calls are those of
the whole frames of all samples, in order, and what is kept is what these leave over. -/
theorem computeAll_stream (hx : extract.Documented o feature) {calls : List (FeCall α)}
    {r : OnlineFeInput α × List (List Row × Bool)}
    (h : (create : OnlineFeInput α).computeAll o extract calls = some r) :
    rows r.2 = (o.cut (calls.flatMap taken)).1.map feature ∧
      r.1.waveRemainder = (o.cut (calls.flatMap taken)).2 := by
  have hcreate : (create : OnlineFeInput α).waveRemainder = (o.cut ([] : List α)).2 := by
    rw [cut_nil]
    rfl
  obtain ⟨hrest, hrows⟩ := computeAll_cut hx h hcreate
  rw [cut_nil, List.map_nil, List.nil_append] at hrows
  exact ⟨hrows.symm, hrest⟩

end AnySource

end OnlineFeInput

/-! ## A source that holds a wave -/

/-- The members of `OnlineVectorSource`. -/
structure OnlineVectorSource (α : Type*) where
  src : List α
  pos : Nat
  deriving DecidableEq, Repr

namespace OnlineVectorSource

variable {α : Type*}

/-- The constructor. -/
def create (input : List α) : OnlineVectorSource α where
  src := input
  pos := 0

/-- `Read`, into a vector of this dimension: the samples that are copied. -/
def read (s : OnlineVectorSource α) (dim : Nat) : OnlineVectorSource α × List α :=
  let nElem := min (s.src.length - s.pos) dim
  ({ s with pos := s.pos + nElem }, (s.src.drop s.pos).take nElem)

/-- What has been read and what is read now is the beginning of the wave. -/
theorem read_spec {s : OnlineVectorSource α} (h : s.pos ≤ s.src.length) (dim : Nat) :
    (s.read dim).1.src = s.src ∧ (s.read dim).1.pos ≤ s.src.length ∧
      s.src.take (s.read dim).1.pos = s.src.take s.pos ++ (s.read dim).2 ∧
      (s.read dim).2.length ≤ dim ∧
      ((s.read dim).2.length ≠ dim → (s.read dim).1.pos = s.src.length) := by
  have hlength : (s.read dim).2.length = min (s.src.length - s.pos) dim := by
    show ((s.src.drop s.pos).take (min (s.src.length - s.pos) dim)).length = _
    rw [List.length_take, List.length_drop]
    omega
  rw [hlength]
  refine ⟨rfl, ?_, ?_, by omega, ?_⟩
  · show s.pos + min (s.src.length - s.pos) dim ≤ s.src.length
    omega
  · exact List.take_add
  · intro hshort
    show s.pos + min (s.src.length - s.pos) dim = s.src.length
    omega

end OnlineVectorSource

namespace OnlineFeInput

variable {α Row : Type*}

/-- `Compute` with this source. -/
def computeFrom (o : FrameOptions) (extract : FeatureExtractor α Row) (fe : OnlineFeInput α)
    (source : OnlineVectorSource α) (nvec : Nat) :
    Option ((OnlineFeInput α × OnlineVectorSource α) × List Row × Bool) :=
  if nvec = 0 then some ((fe, source), [], true)
  else
    let (source, block) := source.read (fe.samplesReq o nvec)
    (fe.compute o extract ⟨nvec, block, false⟩).map fun (fe, out) => ((fe, source), out)

/-- A call for each of these numbers of vectors. -/
def computeAllFrom (o : FrameOptions) (extract : FeatureExtractor α Row) (fe : OnlineFeInput α)
    (source : OnlineVectorSource α) :
    List Nat → Option ((OnlineFeInput α × OnlineVectorSource α) × List (List Row × Bool))
  | [] => some ((fe, source), [])
  | nvec :: requests =>
      (fe.computeFrom o extract source nvec).bind fun r =>
        (r.1.1.computeAllFrom o extract r.1.2 requests).map fun r' => (r'.1, r.2 :: r'.2)

section Vector

variable {o : FrameOptions} {extract : FeatureExtractor α Row} {feature : List α → Row}
  {fe : OnlineFeInput α} {source : OnlineVectorSource α}

/-- A call that is asked for vectors is `Compute` of what the source delivers. -/
theorem computeFrom_cases {nvec : Nat}
    {r : (OnlineFeInput α × OnlineVectorSource α) × List Row × Bool}
    (hr : fe.computeFrom o extract source nvec = some r) :
    nvec = 0 ∧ r = ((fe, source), [], true) ∨
      nvec ≠ 0 ∧ r.1.2 = (source.read (fe.samplesReq o nvec)).1 ∧
        fe.compute o extract ⟨nvec, (source.read (fe.samplesReq o nvec)).2, false⟩ =
          some (r.1.1, r.2) := by
  unfold computeFrom at hr
  split at hr
  next hnone => exact .inl ⟨hnone, (Option.some.inj hr).symm⟩
  next hsome =>
    obtain ⟨⟨fe', out⟩, hcompute, rfl⟩ := Option.map_eq_some_iff.mp hr
    exact .inr ⟨hsome, rfl, hcompute⟩

/-- What has been read is what the vectors so far and the remainder come from. -/
structure Follows (o : FrameOptions) (fe : OnlineFeInput α) (source : OnlineVectorSource α) :
    Prop where
  pos : source.pos ≤ source.src.length
  remainder : fe.waveRemainder = (o.cut (source.src.take source.pos)).2

section OneCall

variable {nvec : Nat} {r : (OnlineFeInput α × OnlineVectorSource α) × List Row × Bool}

/-- One call. -/
theorem Follows.computeFrom (hx : extract.Documented o feature) (h : Follows o fe source)
    (hr : fe.computeFrom o extract source nvec = some r) :
    Follows o r.1.1 r.1.2 ∧ r.1.2.src = source.src ∧
      (o.cut (r.1.2.src.take r.1.2.pos)).1.map feature =
        (o.cut (source.src.take source.pos)).1.map feature ++ r.2.1 := by
  rcases computeFrom_cases hr with ⟨-, rfl⟩ | ⟨hsome, hsource, hcompute⟩
  · exact ⟨h, rfl, (List.append_nil _).symm⟩
  · obtain ⟨hsrc, hpos, htake, -, -⟩ :=
      OnlineVectorSource.read_spec h.pos (fe.samplesReq o nvec)
    obtain ⟨hrest, hrows⟩ := compute_cut hx hcompute h.remainder
    have htaken : taken ⟨nvec, (source.read (fe.samplesReq o nvec)).2, false⟩ =
        (source.read (fe.samplesReq o nvec)).2 := if_neg hsome
    rw [htaken, ← htake] at hrest hrows
    rw [hsource]
    exact ⟨⟨hpos, hrest⟩, hsrc, hrows⟩

/-- A call that says that there is more yields all vectors that it was asked for. -/
theorem computeFrom_full (hx : extract.Documented o feature)
    (hr : fe.computeFrom o extract source nvec = some r) (hmore : r.2.2 = true) :
    r.2.1.length = nvec := by
  rcases computeFrom_cases hr with ⟨hnone, rfl⟩ | ⟨hsome, -, hcompute⟩
  · exact hnone.symm
  · rw [compute_more hcompute hsome, Bool.or_false, beq_iff_eq] at hmore
    exact compute_full hx hcompute hmore

/-- A call that says that there is no more has come to the end of the wave. -/
theorem Follows.computeFrom_end (h : Follows o fe source)
    (hr : fe.computeFrom o extract source nvec = some r) (hmore : r.2.2 = false) :
    r.1.2.pos = source.src.length := by
  rcases computeFrom_cases hr with ⟨-, rfl⟩ | ⟨hsome, hsource, hcompute⟩
  · cases hmore
  · rw [compute_more hcompute hsome, Bool.or_false, beq_eq_false_iff_ne] at hmore
    obtain ⟨-, -, -, -, hshort⟩ := OnlineVectorSource.read_spec h.pos (fe.samplesReq o nvec)
    rw [hsource]
    exact hshort hmore

/-- The source never goes back. -/
theorem computeFrom_pos (hr : fe.computeFrom o extract source nvec = some r) :
    source.pos ≤ r.1.2.pos := by
  rcases computeFrom_cases hr with ⟨-, rfl⟩ | ⟨-, hsource, -⟩
  · exact Nat.le_refl _
  · rw [hsource]
    exact Nat.le_add_right _ _

end OneCall

section AllCalls

variable {requests : List Nat}
  {r : (OnlineFeInput α × OnlineVectorSource α) × List (List Row × Bool)}

/-- One call after another. -/
theorem Follows.computeAllFrom (hx : extract.Documented o feature) (h : Follows o fe source)
    (hr : fe.computeAllFrom o extract source requests = some r) :
    Follows o r.1.1 r.1.2 ∧ r.1.2.src = source.src ∧ source.pos ≤ r.1.2.pos ∧
      (o.cut (r.1.2.src.take r.1.2.pos)).1.map feature =
        (o.cut (source.src.take source.pos)).1.map feature ++ rows r.2 := by
  induction requests generalizing fe source r with
  | nil =>
      obtain rfl := Option.some.inj hr
      exact ⟨h, rfl, Nat.le_refl _, (List.append_nil _).symm⟩
  | cons nvec requests ih =>
      obtain ⟨first, hfirst, hr⟩ := Option.bind_eq_some_iff.mp hr
      obtain ⟨later, hlater, rfl⟩ := Option.map_eq_some_iff.mp hr
      obtain ⟨hfollows, hsrc, hrows⟩ := h.computeFrom hx hfirst
      obtain ⟨hfollows', hsrc', hle, hrows'⟩ := ih hfollows hlater
      refine ⟨hfollows', hsrc'.trans hsrc, Nat.le_trans (computeFrom_pos hfirst) hle, ?_⟩
      rw [hrows', hrows, List.append_assoc]
      rfl

theorem computeAllFrom_full (hx : extract.Documented o feature)
    (hr : fe.computeAllFrom o extract source requests = some r) :
    List.Forall₂ (fun nvec out => out.2 = true → out.1.length = nvec) requests r.2 := by
  induction requests generalizing fe source r with
  | nil =>
      obtain rfl := Option.some.inj hr
      exact .nil
  | cons nvec requests ih =>
      obtain ⟨first, hfirst, hr⟩ := Option.bind_eq_some_iff.mp hr
      obtain ⟨later, hlater, rfl⟩ := Option.map_eq_some_iff.mp hr
      exact .cons (computeFrom_full hx hfirst) (ih hlater)

/-- The end of the wave stays reached. -/
theorem Follows.computeAllFrom_end (hx : extract.Documented o feature)
    (h : Follows o fe source) (hr : fe.computeAllFrom o extract source requests = some r)
    (hend : ∃ out ∈ r.2, out.2 = false) : r.1.2.pos = source.src.length := by
  induction requests generalizing fe source r with
  | nil =>
      obtain rfl := Option.some.inj hr
      simp at hend
  | cons nvec requests ih =>
      obtain ⟨first, hfirst, hr⟩ := Option.bind_eq_some_iff.mp hr
      obtain ⟨later, hlater, rfl⟩ := Option.map_eq_some_iff.mp hr
      obtain ⟨hfollows, hsrc, -⟩ := h.computeFrom hx hfirst
      obtain ⟨out, hout, hno⟩ := hend
      rcases List.mem_cons.mp hout with rfl | hout
      · have hreached := h.computeFrom_end hfirst hno
        obtain ⟨hfollows', hsrc', hle, -⟩ := hfollows.computeAllFrom hx hlater
        have hbound := hfollows'.pos
        rw [hsrc', hsrc] at hbound
        exact Nat.le_antisymm hbound (hreached ▸ hle)
      · have hreached : later.1.2.pos = first.1.2.src.length :=
          ih hfollows hlater ⟨out, hout, hno⟩
        exact hreached.trans (congrArg List.length hsrc)

end AllCalls

/-- **Online extraction is extraction from the wave.**  Each call that says that there is more
returns as many vectors as were asked for, and once a call has said that there is no more,
the vectors of all calls are those of the whole frames of the wave. -/
theorem online_eq_offline (hx : extract.Documented o feature) {wave : List α}
    {requests : List Nat}
    {r : (OnlineFeInput α × OnlineVectorSource α) × List (List Row × Bool)}
    (h : (create : OnlineFeInput α).computeAllFrom o extract (.create wave) requests = some r) :
    List.Forall₂ (fun nvec out => out.2 = true → out.1.length = nvec) requests r.2 ∧
      ((∃ out ∈ r.2, out.2 = false) → rows r.2 = (o.cut wave).1.map feature) := by
  have hfollows : Follows o (create : OnlineFeInput α) (.create wave) := by
    refine ⟨Nat.zero_le _, ?_⟩
    show ([] : List α) = (o.cut (wave.take 0)).2
    rw [List.take_zero, cut_nil]
  refine ⟨computeAllFrom_full hx h, ?_⟩
  intro hno
  obtain ⟨-, hsrc, -, hrows⟩ := hfollows.computeAllFrom hx h
  have hsrc' : r.1.2.src = wave := hsrc
  have hpos : r.1.2.pos = wave.length := hfollows.computeAllFrom_end hx h hno
  have hbegin : (OnlineVectorSource.create wave).src.take (OnlineVectorSource.create wave).pos =
      [] := List.take_zero
  rw [hsrc', hpos, List.take_length, hbegin, cut_nil, List.map_nil, List.nil_append] at hrows
  exact hrows.symm

end Vector

/-! ## Seven samples -/

/-- Frames of three samples, one every two samples. -/
def overlapping : FrameOptions where
  frameSize := 3
  frameShift := 2
  shift_pos := by decide
  shift_le := by decide

/-- An extractor that adds the samples of a frame. -/
def sums : FeatureExtractor Nat Nat := fun wave =>
  some ((overlapping.cut wave).1.map List.sum, (overlapping.cut wave).2)

theorem sums_documented : sums.Documented overlapping List.sum where
  frames _ _ := rfl
  short wave r hcount h := by
    obtain rfl := Option.some.inj h
    simp only [FrameOptions.cut, DelayLine.cut, hcount]
    simp [frames]

/-- Two vectors are asked for twice, and the second time only one is left. -/
theorem online_eq_offline_seven :
    List.Forall₂ (fun nvec (out : List Nat × Bool) => out.2 = true → out.1.length = nvec) [2, 2]
        [([6, 12], true), ([18], false)] ∧
      ((∃ out ∈ [([6, 12], true), ([18], false)], out.2 = false) →
        rows [([6, 12], true), ([18], false)] =
          (overlapping.cut [1, 2, 3, 4, 5, 6, 7]).1.map List.sum) := by
  have hrun : (create : OnlineFeInput Nat).computeAllFrom overlapping sums
      (.create [1, 2, 3, 4, 5, 6, 7]) [2, 2] =
        some ((⟨[7]⟩, ⟨[1, 2, 3, 4, 5, 6, 7], 7⟩), [([6, 12], true), ([18], false)]) := by
    decide
  exact online_eq_offline sums_documented hrun

/-- The time is up after one sample, and then after four. -/
theorem computeAll_stream_late :
    rows [([], true), ([6], true)] =
        (overlapping.cut ([⟨2, [1], true⟩, ⟨2, [2, 3, 4], true⟩].flatMap taken)).1.map List.sum ∧
      [3, 4] =
        (overlapping.cut ([⟨2, [1], true⟩, ⟨2, [2, 3, 4], true⟩].flatMap taken)).2 := by
  have hrun : (create : OnlineFeInput Nat).computeAll overlapping sums
      [⟨2, [1], true⟩, ⟨2, [2, 3, 4], true⟩] =
        some (⟨[3, 4]⟩, [([], true), ([6], true)]) := by
    decide
  exact computeAll_stream sums_documented hrun

end OnlineFeInput

end ThreadedServer
