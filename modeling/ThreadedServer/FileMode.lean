import ThreadedServer.BatchNormalisation

/-!
# File mode

A `DecodeWorker` serves one request after another.  In file mode it computes the
features of the whole wave and normalises them with `cmvn_`, which is a member of
the worker and keeps the rows of earlier requests.  Feature extraction is a pure
function of the wave; the transform and the decoder that follow are pure
functions of the normalised features.

A wave with fewer than 600 rows is normalised by rows of earlier requests too.  A
longer one is normalised by its own rows only, but they lie in the ring where the
earlier ones have ended, and they are summed up from the first cell on: rounded sums
depend on that.
-/

namespace ThreadedServer

open Numerics

/-- The member of `DecodeWorker` that outlives a request. -/
structure DecodeWorker (K : Type*) (dim : Nat) where
  cmvn : OnlineCmn K dim

namespace DecodeWorker

variable {K V : Type*} {dim : Nat}

/-- `cmvn_window` in the constructor. -/
def cmvnWindow : Nat := 600

/-- The constructor. -/
def create [Zero K] (dim : Nat) : DecodeWorker K dim where
  cmvn := .create dim cmvnWindow

section Work

variable (A : Arithmetic K V) {Wave : Type*} (mfcc : Wave → List (FeatureRow K dim))

/-- The file-mode part of `Work`: the worker afterwards, and `cmvn_output`; or the failed
assertion of `ApplyCmvn2`. -/
def work (w : DecodeWorker K dim) (wave : Wave) :
    Option (DecodeWorker K dim × List (FeatureRow V dim)) :=
  (w.cmvn.applyCmvn2 A (mfcc wave)).map fun (cmvn, cmvnOutput) => ({ cmvn }, cmvnOutput)

/-- The worker after a sequence of requests. -/
def serve (w : DecodeWorker K dim) (waves : List Wave) : Option (DecodeWorker K dim) :=
  waves.foldlM (fun w wave => (w.work A mfcc wave).map Prod.fst) w

/-- The normalised features of a wave. -/
def cmvnOutput (w : DecodeWorker K dim) (wave : Wave) : Option (List (FeatureRow V dim)) :=
  (w.work A mfcc wave).map Prod.snd

variable {A mfcc}

theorem work_eq {w : DecodeWorker K dim} {wave : Wave} (h : mfcc wave ≠ []) :
    w.work A mfcc wave =
      some (⟨w.cmvn.cache (mfcc wave)⟩, (w.cmvn.cache (mfcc wave)).compute A (mfcc wave)) := by
  rw [work, OnlineCmn.applyCmvn2_eq A w.cmvn h, Option.map_some]

/-- A wave without features stops the program. -/
theorem work_nil (hdim : 0 < dim) {w : DecodeWorker K dim} {wave : Wave} (h : mfcc wave = []) :
    w.work A mfcc wave = none := by
  rw [work, h, OnlineCmn.applyCmvn2, if_neg ((OnlineCmn.numCols_eq_iff hdim _).not.mpr (by simp)),
    Option.map_none]

theorem serve_cons {w : DecodeWorker K dim} {wave : Wave} (h : mfcc wave ≠ [])
    (waves : List Wave) :
    w.serve A mfcc (wave :: waves) = serve A mfcc ⟨w.cmvn.cache (mfcc wave)⟩ waves := by
  rw [serve, List.foldlM_cons, work_eq h]
  rfl

/-- One request more. -/
theorem serve_concat {w worker : DecodeWorker K dim} {waves : List Wave}
    (h : w.serve A mfcc waves = some worker) (wave : Wave) :
    w.serve A mfcc (waves ++ [wave]) = (worker.work A mfcc wave).map Prod.fst := by
  rw [serve, List.foldlM_append]
  show (w.serve A mfcc waves).bind (fun worker => worker.serve A mfcc [wave]) = _
  rw [h, Option.bind_some, serve, List.foldlM_cons]
  exact bind_pure _

/-- **What a worker keeps.**  It serves requests as long as each wave has features, and
holds what they leave in the history. -/
theorem serve_eq_some_iff (hdim : 0 < dim) {w worker : DecodeWorker K dim} {waves : List Wave} :
    w.serve A mfcc waves = some worker ↔
      (∀ wave ∈ waves, mfcc wave ≠ []) ∧ worker = ⟨w.cmvn.cache (waves.flatMap mfcc)⟩ := by
  induction waves generalizing w with
  | nil => simp [serve, OnlineCmn.cache, OnlineCmn.fill, eq_comm]
  | cons wave waves ih =>
      rw [List.forall_mem_cons, List.flatMap_cons, ← OnlineCmn.cache_append]
      by_cases hfeats : mfcc wave = []
      · rw [serve, List.foldlM_cons, work_nil hdim hfeats]
        exact iff_of_false (by rintro ⟨⟩) fun hall => hall.1.1 hfeats
      · rw [serve_cons hfeats, ih, and_iff_right hfeats]

/-- What is sent on for a wave, after these rows. -/
theorem cmvnOutput_eq [Zero K] {seen : List (FeatureRow K dim)} {wave : Wave}
    (h : mfcc wave ≠ []) :
    cmvnOutput A mfcc ⟨(create dim : DecodeWorker K dim).cmvn.cache seen⟩ wave =
      some ((mfcc wave).map (OnlineCmn.normalise A
        ((OnlineCmn.create dim cmvnWindow).cache (seen ++ mfcc wave)).held)) := by
  rw [cmvnOutput, work_eq h, OnlineCmn.cache_append]
  rfl

/-- **What a client receives**: its own rows, normalised by the last rows that the worker
has seen from anybody. -/
theorem cmvnOutput_served [Zero K] (hdim : 0 < dim) {earlier : List Wave}
    {worker : DecodeWorker K dim} (hserve : (create dim).serve A mfcc earlier = some worker)
    {wave : Wave} (h : mfcc wave ≠ []) :
    worker.cmvnOutput A mfcc wave =
      some ((mfcc wave).map (OnlineCmn.normalise A
        ((OnlineCmn.create dim cmvnWindow).cache (earlier.flatMap mfcc ++ mfcc wave)).held)) := by
  obtain ⟨-, rfl⟩ := (serve_eq_some_iff hdim).mp hserve
  exact cmvnOutput_eq h

end Work

/-! ## A history that begins in the first cell again -/

section Aligned

variable [Zero K] {seen feats : List (FeatureRow K dim)}

/-- Rows that go round the ring whole times leave the cells as they would be without
them, once the history has been filled anew. -/
theorem held_aligned (hseen : cmvnWindow ∣ seen.length) (hfeats : cmvnWindow ≤ feats.length) :
    ((OnlineCmn.create dim cmvnWindow).cache (seen ++ feats)).held =
      ((OnlineCmn.create dim cmvnWindow).cache feats).held := by
  obtain ⟨rounds, hrounds⟩ := hseen
  have hall : cmvnWindow ≤ (seen ++ feats).length := by
    rw [List.length_append]
    omega
  have hpos : 0 < cmvnWindow := by decide
  rw [OnlineCmn.held_full hpos hall, OnlineCmn.held_full hpos hfeats,
    RingBuffer.rtake_append_of_le hfeats, List.length_append, hrounds, Nat.mul_add_mod]

end Aligned

/-! ## Rounded sums -/

section Rounded

variable {core : List Float32} {m j : Nat}

/-- Rows with one value in all columns. -/
def evenRows (column : List Float32) : List (FeatureRow Float32 dim) := column.map fun x _ => x

theorem evenRows_append (column column' : List Float32) :
    (evenRows (column ++ column') : List (FeatureRow Float32 dim)) =
      evenRows column ++ evenRows column' := List.map_append

theorem evenRows_column (column : List Float32) (d : Fin dim) :
    (evenRows column).map (fun row => row d) = column := by
  rw [evenRows, List.map_map]
  exact List.map_id _

theorem evenRows_rotate (column : List Float32) :
    (evenRows column : List (FeatureRow Float32 dim)).rotate j = evenRows (column.rotate j) :=
  (List.map_rotate _ _ _).symm

/-- An entry, by the sum of its column and that of the squares. -/
def standardised (sum sumSquares : Float32) (count : Nat) (x : Float32) : Float32 :=
  (x - sum * float32.share count) *
    Float32.sqrt (1 / (sumSquares * float32.share count -
      (sum * float32.share count) * (sum * float32.share count)))

theorem normalise_evenRows (column : List Float32) (x : Float32) (d : Fin dim) :
    OnlineCmn.normalise float32 (evenRows column) (fun _ => x) d =
      standardised (float32.sum column) (float32.sumSquares column) column.length x := by
  have hcolumn : (evenRows column).map (fun row : FeatureRow Float32 dim => row d) = column :=
    evenRows_column column d
  rw [OnlineCmn.normalise, hcolumn]
  rfl

/-- Zeros behind the end of these values do not change what has been summed up. -/
def Settled (core : List Float32) : Prop :=
  ∀ i ≤ core.length, float32.sum (core.drop i) + 0 = float32.sum (core.drop i) ∧
    float32.sumSquares (core.drop i) + 0 * 0 = float32.sumSquares (core.drop i)

instance (core : List Float32) : Decidable (Settled core) :=
  inferInstanceAs (Decidable (∀ i ≤ core.length, _ ∧ _))

/-- What the order of the ring makes of values with zeros between them. -/
theorem Settled.entry (h : Settled core) (hj : j < core.length + m) (x : Float32) (d : Fin dim) :
    OnlineCmn.normalise float32 (evenRows ((core ++ List.replicate m 0).rotate j)) (fun _ => x) d =
      standardised (float32.sum (core.rotate (if j ≤ core.length then j else 0)))
        (float32.sumSquares (core.rotate (if j ≤ core.length then j else 0)))
        (core.length + m) x := by
  rw [normalise_evenRows, List.length_rotate, List.length_append, List.length_replicate,
    Arithmetic.sum, Arithmetic.sumSquares, foldl_rotate hj fun i hi => (h i hi).1,
    foldl_rotate hj fun i hi => (h i hi).2]
  rfl

/-- Zeros on both sides are zeros behind, seen from another place of the ring. -/
theorem zeros_around (core : List Float32) (a b : Nat) :
    List.replicate a 0 ++ core ++ List.replicate b 0 =
      (core ++ List.replicate (b + a) 0).rotate (core.length + b) := by
  have hlen : core.length + b = (core ++ List.replicate b (0 : Float32)).length := by
    rw [List.length_append, List.length_replicate]
  rw [List.replicate_add, ← List.append_assoc, hlen, List.rotate_append_length_eq,
    List.append_assoc]

/-- Values that fit into the history with the zeros behind them, and any zeros before. -/
theorem held_zeros_around (dim a : Nat) {b : Nat} (hcore : 0 < core.length)
    (hfit : core.length + b ≤ cmvnWindow) :
    ∃ m j, j < core.length + m ∧ core.length + m ≤ cmvnWindow ∧
      ((OnlineCmn.create dim cmvnWindow).cache
          (evenRows (List.replicate a 0 ++ core ++ List.replicate b 0))).held =
        evenRows ((core ++ List.replicate m 0).rotate j) := by
  have hpos : 0 < cmvnWindow := by decide
  have hlength : ∀ a, (evenRows (List.replicate a 0 ++ core ++ List.replicate b 0) :
      List (FeatureRow Float32 dim)).length = a + core.length + b := by
    intro a
    simp [evenRows, Nat.add_assoc]
  suffices hturned : ∃ m j, core.length + m ≤ cmvnWindow ∧
      ((OnlineCmn.create dim cmvnWindow).cache
          (evenRows (List.replicate a 0 ++ core ++ List.replicate b 0))).held =
        evenRows ((core ++ List.replicate m 0).rotate j) by
    obtain ⟨m, j, hlen, hheld⟩ := hturned
    have hlen' : (core ++ List.replicate m (0 : Float32)).length = core.length + m := by
      rw [List.length_append, List.length_replicate]
    refine ⟨m, j % (core.length + m), Nat.mod_lt _ (by omega), hlen, ?_⟩
    rw [hheld, ← hlen', List.rotate_mod]
  by_cases hroom : a + core.length + b ≤ cmvnWindow
  · refine ⟨b + a, core.length + b, by omega, ?_⟩
    rw [OnlineCmn.held_filling hpos (by rw [hlength]; exact hroom), zeros_around]
  · -- the first zeros have been pushed out
    obtain ⟨lost, kept, rfl, hkept⟩ : ∃ lost kept, a = lost + kept ∧
        kept + core.length + b = cmvnWindow :=
      ⟨a - (cmvnWindow - core.length - b), cmvnWindow - core.length - b, by omega, by omega⟩
    have hlast : (evenRows (List.replicate (lost + kept) 0 ++ core ++ List.replicate b 0) :
        List (FeatureRow Float32 dim)).rtake cmvnWindow =
          evenRows (List.replicate kept 0 ++ core ++ List.replicate b 0) := by
      have hwindow : cmvnWindow ≤ (evenRows (List.replicate kept 0 ++ core ++
          List.replicate b 0) : List (FeatureRow Float32 dim)).length := by
        rw [hlength]
        exact hkept.ge
      rw [List.replicate_add, List.append_assoc, List.append_assoc, evenRows_append,
        ← List.append_assoc, RingBuffer.rtake_append_of_le hwindow,
        RingBuffer.rtake_of_length_le (by rw [hlength]; exact hkept.le)]
    refine ⟨b + kept, core.length + b + (cmvnWindow - (lost + kept + core.length + b) % cmvnWindow),
      by omega, ?_⟩
    rw [OnlineCmn.held_full hpos (by rw [hlength]; omega), hlast, hlength, zeros_around,
      evenRows_rotate, List.rotate_rotate]

/-! ## Waves that do not fill the history -/

/-- A number whose square is out of range. -/
def large : Float32 := (2 ^ 100 : Nat).toFloat32

set_option maxRecDepth 4000 in
/-- What one over a count does with zero, with the infinity and with a large number: its
square, where it is scaled, is the infinity still. -/
theorem share_float32 : ∀ count < 601, 0 < count →
    0 * float32.share count = 0 ∧ (1 / 0) * float32.share count = 1 / 0 ∧
      (large * float32.share count) * (large * float32.share count) = 1 / 0 := by
  decide +kernel

theorem mul_nan (x : Float32) : x * (0 / 0) = 0 / 0 := by
  have hnan : (0 / 0 : Float32).toModel.unpack = .notANumber := rfl
  have hmul : ∀ y : Float.Model.UnpackedFloat,
      Float.Model.UnpackedFloat.mul .binary32 y .notANumber = .notANumber := by
    intro y
    cases y <;> rfl
  show Float32.ofModel (.pack (Float.Model.UnpackedFloat.mul .binary32 x.toModel.unpack
    (0 / 0 : Float32).toModel.unpack)) = _
  rw [hnan, hmul]
  rfl

/-- Values with the same sums from every place of the ring on. -/
def SumUp (core : List Float32) (sum squares : Float32) : Prop :=
  Settled core ∧ ∀ i ≤ core.length,
    float32.sum (core.rotate i) = sum ∧ float32.sumSquares (core.rotate i) = squares

instance (core : List Float32) (sum squares : Float32) : Decidable (SumUp core sum squares) :=
  inferInstanceAs (Decidable (_ ∧ _))

theorem SumUp.entry_around {sum squares : Float32} (h : SumUp core sum squares)
    {b : Nat} (hcore : 0 < core.length) (hfit : core.length + b ≤ cmvnWindow) (a : Nat)
    (x : Float32) (d : Fin dim) :
    ∃ count, 0 < count ∧ count < 601 ∧
      OnlineCmn.normalise float32 ((OnlineCmn.create dim cmvnWindow).cache
          (evenRows (List.replicate a 0 ++ core ++ List.replicate b 0))).held (fun _ => x) d =
        standardised sum squares count x := by
  obtain ⟨m, j, hj, hlen, hheld⟩ := held_zeros_around dim a hcore hfit
  refine ⟨core.length + m, by omega, Nat.lt_succ_of_le hlen, ?_⟩
  obtain ⟨hsettled, hsums⟩ := h
  obtain ⟨hsum, hsquares⟩ := hsums (if j ≤ core.length then j else 0) (by split_ifs <;> omega)
  rw [hheld, hsettled.entry hj, hsum, hsquares]

/-- Large numbers of both signs: their sums, what a number becomes where the squares are out
of range, and what becomes of one alone. -/
theorem large_float32 :
    (SumUp [large, -large] 0 (1 / 0) ∧ SumUp [-large, large] 0 (1 / 0) ∧
      SumUp [large, -large, large] large (1 / 0)) ∧
      (-large - 0) * Float32.sqrt (1 / (1 / 0 - 0 * 0)) ≠ 0 / 0 ∧
      standardised (float32.sum [-large]) (float32.sumSquares [-large]) 1 (-large) = 0 / 0 := by
  decide +kernel

theorem standardised_large {count : Nat} (hpos : 0 < count) (hlt : count < 601) (x : Float32) :
    standardised large (1 / 0) count x = 0 / 0 := by
  obtain ⟨-, hinf, hlarge⟩ := share_float32 count hlt hpos
  have hroot : Float32.sqrt (1 / (1 / 0 - 1 / 0)) = 0 / 0 := rfl
  rw [standardised, hinf, hlarge, hroot, mul_nan]

theorem standardised_balanced {count : Nat} (hpos : 0 < count) (hlt : count < 601) :
    standardised 0 (1 / 0) count (-large) ≠ 0 / 0 := by
  obtain ⟨hzero, hinf, -⟩ := share_float32 count hlt hpos
  rw [standardised, hinf, hzero]
  exact large_float32.2.1

/-- Some entry of a wave comes out otherwise after these rows than on a new worker. -/
def Differs (dim : Nat) (earlier column : List Float32) : Prop :=
  ∃ x ∈ column, ∃ d : Fin dim,
    OnlineCmn.normalise float32 ((OnlineCmn.create dim cmvnWindow).cache
        (evenRows (earlier ++ column))).held (fun _ => x) d ≠
      OnlineCmn.normalise float32 ((OnlineCmn.create dim cmvnWindow).cache
        (evenRows column)).held (fun _ => x) d

/-- One row of an earlier wave is enough to make numbers of what was none, or nothing of
what were numbers. -/
theorem short_wave_differs {k n : Nat} (hdim : 0 < dim) (hk : 0 < k) (hn : 0 < n)
    (hshort : n < cmvnWindow) :
    ∃ earlier column : List Float32, earlier.length = k ∧ column.length = n ∧
      Differs dim earlier column := by
  obtain ⟨k, rfl⟩ : ∃ k', k = k' + 1 := ⟨k - 1, by omega⟩
  refine ⟨List.replicate k 0 ++ [large], ?_⟩
  by_cases hone : n = 1
  · subst hone
    refine ⟨[-large], by simp, rfl, -large, List.mem_singleton_self _, ⟨0, hdim⟩, ?_⟩
    obtain ⟨count, hpos, hlt, hentry⟩ := large_float32.1.1.entry_around (b := 0) (by decide)
      (by decide) k (-large) ⟨0, hdim⟩
    have hfits : (evenRows [-large] : List (FeatureRow Float32 dim)).length ≤ cmvnWindow :=
      show 1 ≤ cmvnWindow by decide
    rw [List.replicate_zero, List.append_nil] at hentry
    rw [List.append_assoc, List.singleton_append, hentry,
      OnlineCmn.held_filling (by decide) hfits, normalise_evenRows]
    exact fun hsame => standardised_balanced hpos hlt (hsame.trans large_float32.2.2)
  · obtain ⟨b, rfl⟩ : ∃ b, n = b + 2 := ⟨n - 2, by omega⟩
    refine ⟨[-large, large] ++ List.replicate b 0, by simp, by simp, -large,
      List.mem_cons_self, ⟨0, hdim⟩, ?_⟩
    obtain ⟨-, hbalanced, htwo⟩ := large_float32.1
    have hfit : [large, -large, large].length + b ≤ cmvnWindow := by
      show 3 + b ≤ cmvnWindow
      omega
    have hfit' : [-large, large].length + b ≤ cmvnWindow := by
      show 2 + b ≤ cmvnWindow
      omega
    obtain ⟨count, hpos, hlt, hentry⟩ := htwo.entry_around (by decide) hfit k
      (-large) ⟨0, hdim⟩
    obtain ⟨count', hpos', hlt', hentry'⟩ := hbalanced.entry_around (by decide)
      hfit' 0 (-large) ⟨0, hdim⟩
    have hall : List.replicate k (0 : Float32) ++ [large] ++ ([-large, large] ++
        List.replicate b 0) = List.replicate k 0 ++ [large, -large, large] ++
          List.replicate b 0 := by simp
    rw [List.replicate_zero, List.nil_append] at hentry'
    rw [hall, hentry, hentry', standardised_large hpos hlt]
    exact fun hsame => standardised_balanced hpos' hlt' hsame.symm

/-! ## Waves that do -/

/-- A number that takes a one in when it is added to it. -/
def coarse : Float32 := (2 ^ 26 : Nat).toFloat32

/-- From every place of the ring but one on, the sum is zero, and this makes a difference. -/
theorem coarse_float32 :
    Settled [1, coarse, -coarse] ∧
      (∀ i ≤ 3, float32.sum ([1, coarse, -coarse].rotate i) = (if i = 1 then 1 else 0) ∧
        float32.sumSquares ([1, coarse, -coarse].rotate i) =
          float32.sumSquares [1, coarse, -coarse]) ∧
      standardised 0 (float32.sumSquares [1, coarse, -coarse]) cmvnWindow 0 ≠
        standardised 1 (float32.sumSquares [1, coarse, -coarse]) cmvnWindow 0 := by
  decide +kernel

/-- A history of the three values, and zeros. -/
def coarseHistory : List Float32 := [1, coarse, -coarse] ++ List.replicate (cmvnWindow - 3) 0

theorem length_coarseHistory : coarseHistory.length = cmvnWindow := by
  rw [coarseHistory, List.length_append, List.length_replicate]
  decide

/-- A wave whose last rows are this history, turned so that on a new worker the first of
the values is in the last cell. -/
def turnedWave (n : Nat) : List Float32 :=
  List.replicate (n - cmvnWindow) 0 ++ coarseHistory.rotate (1 + n % cmvnWindow)

theorem length_turnedWave {n : Nat} (hlong : cmvnWindow ≤ n) : (turnedWave n).length = n := by
  rw [turnedWave, List.length_append, List.length_replicate, List.length_rotate,
    length_coarseHistory]
  omega

theorem zero_mem_turnedWave (n : Nat) : 0 ∈ turnedWave n := by
  refine List.mem_append_right _ (List.mem_rotate.mpr (List.mem_append_right _ ?_))
  exact List.mem_replicate.mpr ⟨by decide, rfl⟩

/-- The cells after the wave: earlier rows turn them. -/
theorem held_turnedWave (dim : Nat) {n : Nat} (hlong : cmvnWindow ≤ n) (k : Nat) :
    ((OnlineCmn.create dim cmvnWindow).cache
        (evenRows (List.replicate k 0 ++ turnedWave n))).held =
      evenRows (coarseHistory.rotate
        ((1 + n % cmvnWindow + (cmvnWindow - (k + n) % cmvnWindow)) % cmvnWindow)) := by
  have hlen : (evenRows (List.replicate k 0 ++ turnedWave n) :
      List (FeatureRow Float32 dim)).length = k + n := by
    rw [evenRows, List.length_map, List.length_append, List.length_replicate,
      length_turnedWave hlong]
  have hwindow : (evenRows (coarseHistory.rotate (1 + n % cmvnWindow)) :
      List (FeatureRow Float32 dim)).length = cmvnWindow := by
    rw [evenRows, List.length_map, List.length_rotate, length_coarseHistory]
  have hmod := List.rotate_mod coarseHistory
    (1 + n % cmvnWindow + (cmvnWindow - (k + n) % cmvnWindow))
  have hall : cmvnWindow ≤ k + n := by omega
  rw [length_coarseHistory] at hmod
  rw [OnlineCmn.held_full (by decide) (by rw [hlen]; exact hall), hlen, turnedWave,
    ← List.append_assoc, evenRows_append, RingBuffer.rtake_append_of_le hwindow.ge,
    RingBuffer.rtake_of_length_le hwindow.le, evenRows_rotate, List.rotate_rotate, hmod]

/-- An entry of a zero, with the three values at this place of the ring. -/
theorem entry_coarse {j : Nat} (hj : j < cmvnWindow) (d : Fin dim) :
    OnlineCmn.normalise float32 (evenRows (coarseHistory.rotate j)) (fun _ => 0) d =
      standardised (if j = 1 then 1 else 0) (float32.sumSquares [1, coarse, -coarse])
        cmvnWindow 0 := by
  have hlen : [1, coarse, -coarse].length + (cmvnWindow - 3) = cmvnWindow := by decide
  have hentry := coarse_float32.1.entry (hlen.symm ▸ hj) 0 d
  have hle : (if j ≤ [1, coarse, -coarse].length then j else 0) ≤ 3 := by
    split_ifs with hcore
    · exact hcore
    · omega
  have hone : (if j ≤ [1, coarse, -coarse].length then j else 0) = 1 ↔ j = 1 := by
    by_cases hcore : j ≤ [1, coarse, -coarse].length
    · rw [if_pos hcore]
    · have hthree : ¬ j ≤ 3 := hcore
      rw [if_neg hcore]
      omega
  obtain ⟨hsum, hsquares⟩ := coarse_float32.2.1 _ hle
  rw [hsum, hsquares, hlen] at hentry
  simp only [hone] at hentry
  exact hentry

/-- Rows that do not go round the ring whole times make another sum of the same values. -/
theorem long_wave_differs {k n : Nat} (hdim : 0 < dim) (hlong : cmvnWindow ≤ n)
    (hk : ¬ cmvnWindow ∣ k) :
    ∃ earlier column : List Float32, earlier.length = k ∧ column.length = n ∧
      Differs dim earlier column := by
  refine ⟨List.replicate k 0, turnedWave n, List.length_replicate, length_turnedWave hlong, 0,
    zero_mem_turnedWave n, ⟨0, hdim⟩, ?_⟩
  have hfresh := held_turnedWave dim hlong 0
  have hafter := held_turnedWave dim hlong k
  rw [List.replicate_zero, List.nil_append] at hfresh
  have hplace : (1 + n % cmvnWindow + (cmvnWindow - (0 + n) % cmvnWindow)) % cmvnWindow = 1 := by
    rw [cmvnWindow]
    omega
  have hother :
      (1 + n % cmvnWindow + (cmvnWindow - (k + n) % cmvnWindow)) % cmvnWindow ≠ 1 := by
    rw [cmvnWindow] at hk ⊢
    omega
  rw [hafter, hfresh, hplace, entry_coarse (Nat.mod_lt _ (by decide)),
    entry_coarse (show 1 < cmvnWindow by decide), if_neg hother, if_pos rfl]
  exact coarse_float32.2.2

end Rounded

/-! ## Independence of earlier requests -/

/-- Any rows may be those of a wave, after any rows of an earlier one. -/
theorem exists_served (hdim : 0 < dim) (seen feats : List (FeatureRow Float32 dim)) :
    ∃ (mfcc : List Float32 → List (FeatureRow Float32 dim)) (earlier : List (List Float32))
      (worker : DecodeWorker Float32 dim), (create dim).serve float32 mfcc earlier = some worker ∧
        earlier.flatMap mfcc = seen ∧ mfcc [] = feats := by
  by_cases hseen : seen = []
  · subst hseen
    exact ⟨fun _ => feats, [], create dim, rfl, rfl, rfl⟩
  · -- the earlier wave has one sample
    let mfcc : List Float32 → List (FeatureRow Float32 dim) := fun wave =>
      if wave.isEmpty then feats else seen
    have hearlier : [[0]].flatMap mfcc = seen := List.append_nil _
    refine ⟨mfcc, [[0]], _, (serve_eq_some_iff hdim).mpr ⟨?_, rfl⟩, hearlier, rfl⟩
    simpa [mfcc] using hseen

/-- One row for each sample, with the sample in every column. -/
def sampleRows (wave : List Float32) : List (FeatureRow Float32 13) := evenRows wave

end DecodeWorker

end ThreadedServer
