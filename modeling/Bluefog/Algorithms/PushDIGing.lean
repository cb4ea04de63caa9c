import Bluefog.Engine.Window

/-! # Push-DIGing over windows

Each rank keeps the window buffer `w`, laid out as `u, y, v = w[:n], w[n:2*n], w[2n]`.
One iteration of the script's loop is a push (a gradient step on `u`, then
`win_accumulate` of `w / (outdegree + 1)` to every out-neighbour and
`w.div_(1+outdegree)`) followed by a collect (`win_sync_then_collect`, the
estimate `x = u / v`, and the gradient-tracking update of `y`). The network
delivers the pushed contributions one at a time, in any order. The step
relation lets any rank push or collect at any time, so the script's schedules,
with their barriers, are among the runs it covers.

`Conserved` is push-sum conservation: the total `v` over all buffers and
pending contributions is the world size, and the total `y` is the sum of the
gradients last seen. `WeightsPos` says every `v` in the system is positive, so
the estimate `u / v` never divides by zero. After a collect `grad_prev` holds the
gradient at the rank's estimate, and only the rank's own pushes and collects change
its buffer or its `grad_prev`; so whenever nothing is pending and every rank's
latest action was a collect, the `y` entries sum to the local gradients at the
current estimates.
-/

namespace Bluefog.PushDIGing

variable {K : Type*} {N n : ℕ}

/-- The window buffer `w`: `u, y, v = w[:n], w[n:2*n], w[2n]`. -/
abbrev WBuff (n : ℕ) (K : Type*) := (Fin n → K) × (Fin n → K) × K

namespace WBuff

def u (w : WBuff n K) : Fin n → K := w.1

def y (w : WBuff n K) : Fin n → K := w.2.1

def v (w : WBuff n K) : K := w.2.2

@[simp] theorem u_mk (u y : Fin n → K) (v : K) : WBuff.u (u, y, v) = u := rfl
@[simp] theorem y_mk (u y : Fin n → K) (v : K) : WBuff.y (u, y, v) = y := rfl
@[simp] theorem v_mk (u y : Fin n → K) (v : K) : WBuff.v (u, y, v) = v := rfl

theorem eta (a : WBuff n K) : ((a.u, a.y, a.v) : WBuff n K) = a := rfl

variable [LinearOrderedField K] (a b : WBuff n K) (t : K)

/-- The estimate `x = w[:n]/w[-1]`. -/
def estimate (w : WBuff n K) : Fin n → K := fun c => w.u c / w.v

@[simp] theorem estimate_zero (y : Fin n → K) (v : K) : estimate ((0, y, v) : WBuff n K) = 0 :=
  funext fun _ => zero_div v

@[simp] theorem u_add : (a + b).u = a.u + b.u := rfl
@[simp] theorem u_sub : (a - b).u = a.u - b.u := rfl
@[simp] theorem u_smul : (t • a).u = t • a.u := rfl
@[simp] theorem y_add : (a + b).y = a.y + b.y := rfl
@[simp] theorem v_add : (a + b).v = a.v + b.v := rfl
@[simp] theorem y_sub : (a - b).y = a.y - b.y := rfl
@[simp] theorem v_sub : (a - b).v = a.v - b.v := rfl
@[simp] theorem y_smul : (t • a).y = t • a.y := rfl
@[simp] theorem v_smul : (t • a).v = t * a.v := rfl

@[simp] theorem u_sum {ι : Type*} (s : Finset ι) (f : ι → WBuff n K) :
    (∑ i ∈ s, f i).u = ∑ i ∈ s, (f i).u := by
  simp only [u, Prod.fst_sum]
@[simp] theorem y_sum {ι : Type*} (s : Finset ι) (f : ι → WBuff n K) :
    (∑ i ∈ s, f i).y = ∑ i ∈ s, (f i).y := by
  simp only [y, Prod.snd_sum, Prod.fst_sum]
@[simp] theorem v_sum {ι : Type*} (s : Finset ι) (f : ι → WBuff n K) :
    (∑ i ∈ s, f i).v = ∑ i ∈ s, (f i).v := by
  simp only [v, Prod.snd_sum]

theorem v_list_sum_nonneg {l : List (WBuff n K)} (h : ∀ c ∈ l, 0 < c.v) : 0 ≤ l.sum.v := by
  induction l with
  | nil => exact le_rfl
  | cons c l ih =>
    simp only [List.mem_cons, forall_eq_or_imp] at h
    simpa only [List.sum_cons, v_add] using add_nonneg h.1.le (ih h.2)

end WBuff

variable [LinearOrderedField K]

/-- What the script fixes before the loop: `bf.out_neighbor_ranks()` at each rank, the
step size `alpha_pd`, and the gradient of each rank's local loss, which
`loss.backward()` computes. -/
structure Config (N n : ℕ) (K : Type*) where
  out : Fin N → List (Fin N)
  alpha : K
  grad : Fin N → (Fin n → K) → Fin n → K

/-- The window `"w_buff"`, whose owners' buffers are the script's `w`, and `grad_prev` at
each rank. -/
@[ext] structure State (N n : ℕ) (K : Type*) where
  win : Window N (WBuff n K)
  gradPrev : Fin N → Fin n → K

variable (cfg : Config N n K)

/-- Before the loop: `w[n:2*n]` is the gradient at `x = 0`, `w[-1] = 1.0`,
`grad_prev = w[n:2*n].clone()`, then `win_create(w, zero_init=True)`. -/
def init : State N n K where
  win := Window.create fun i => (0, cfg.grad i 0, 1)
  gradPrev i := cfg.grad i 0

/-- `{rank: 1.0 / (outdegree + 1) for rank in bf.out_neighbor_ranks()}`: the keys
of the dict are the out-neighbours without repetition. -/
def dstWeights (out : List (Fin N)) : List (Fin N × K) :=
  out.dedup.map fun r => (r, 1 / ((out.length : K) + 1))

/-- `w[:n] = w[:n] - alpha_pd*w[n:2*n]`. -/
def uStep (w : WBuff n K) : WBuff n K := (w.u - cfg.alpha • w.y, w.y, w.v)

/-- `w[:n] = w[:n] - alpha_pd*w[n:2*n]`, `bf.win_accumulate(w, ...)`, `w.div_(1+outdegree)`. -/
def push (s : State N n K) (i : Fin N) : State N n K :=
  let outdegree := (cfg.out i).length
  let w := uStep cfg (s.win.self i)
  let win := (s.win.setSelf i w).winAccumulate w (dstWeights (cfg.out i) : List (Fin N × K))
  { s with win := win.setSelf i ((1 + (outdegree : K))⁻¹ • w) }

/-- `x.data = w[:n]/w[-1]`, the gradient at `x`, `w[n:2*n] += grad - grad_prev`. -/
def track (i : Fin N) (w : WBuff n K) (gradPrev : Fin n → K) : WBuff n K :=
  (w.u, w.y + (cfg.grad i w.estimate - gradPrev), w.v)

/-- `w = bf.win_sync_then_collect(...)`, the tracking update, `grad_prev = grad`. -/
def collect (s : State N n K) (i : Fin N) : State N n K :=
  let win := s.win.winSyncThenCollect i
  let w := win.self i
  { win := win.setSelf i (track cfg i w (s.gradPrev i))
    gradPrev := Function.update s.gradPrev i (cfg.grad i w.estimate) }

/-- After the loop: `bf.barrier()`, `w = bf.win_sync_then_collect(...)`. -/
def finalCollect (s : State N n K) (i : Fin N) : State N n K :=
  { s with win := s.win.winSyncThenCollect i }

inductive Action (N : ℕ) where
  | push (i : Fin N)
  | deliver (k : ℕ)
  | collect (i : Fin N)
  | finalCollect (i : Fin N)
  deriving DecidableEq, Repr

def step (s : State N n K) : Action N → State N n K
  | .push i => push cfg s i
  | .deliver k => { s with win := s.win.deliver k }
  | .collect i => collect cfg s i
  | .finalCollect i => finalCollect s i

/-- The state after the actions of a schedule, in order. -/
def run (s : State N n K) (as : List (Action N)) : State N n K :=
  as.foldl (step cfg) s

theorem run_append (s : State N n K) (as bs : List (Action N)) :
    run cfg s (as ++ bs) = run cfg (run cfg s as) bs :=
  List.foldl_append _ _ _ _

@[simp] theorem run_nil (s : State N n K) : run cfg s [] = s := rfl
@[simp] theorem run_cons (s : State N n K) (a : Action N) (as : List (Action N)) :
    run cfg s (a :: as) = run cfg (step cfg s a) as := rfl

variable {cfg}

theorem sum_dstWeights_smul (out : List (Fin N)) (w : WBuff n K) :
    ((dstWeights out : List (Fin N × K)).map fun p => p.2 • w).sum =
      ((out.dedup.length : K) / ((out.length : K) + 1)) • w := by
  simp [dstWeights, Function.comp_def, List.map_const', List.sum_replicate, ← Nat.cast_smul_eq_nsmul K,
    smul_smul, div_eq_mul_inv]

theorem total_push (s : State N n K) (i : Fin N) :
    (push cfg s i).win.total = s.win.total - s.win.self i +
      (((cfg.out i).dedup.length + 1 : K) / ((cfg.out i).length + 1)) • uStep cfg (s.win.self i) := by
  simp only [push, Window.total_setSelf, Window.total_winAccumulate, Window.winAccumulate_self,
    Window.setSelf_self, Function.update_same, sum_dstWeights_smul]
  rw [add_div, add_smul, one_div, add_comm (1 : K)]
  abel

theorem push_self (s : State N n K) (i j : Fin N) : (push cfg s i).win.self j =
    if j = i then (1 + ((cfg.out i).length : K))⁻¹ • uStep cfg (s.win.self i) else s.win.self j := by
  rcases eq_or_ne j i with rfl | h <;> simp [push, *]

@[simp] theorem v_track (i : Fin N) (w : WBuff n K) (g : Fin n → K) :
    (track cfg i w g).v = w.v := rfl
@[simp] theorem y_track (i : Fin N) (w : WBuff n K) (g : Fin n → K) :
    (track cfg i w g).y = w.y + (cfg.grad i w.estimate - g) := rfl
@[simp] theorem estimate_track (i : Fin N) (w : WBuff n K) (g : Fin n → K) :
    (track cfg i w g).estimate = w.estimate := rfl

theorem total_collect (s : State N n K) (i : Fin N) :
    (collect cfg s i).win.total = s.win.total - (s.win.winSyncThenCollect i).self i +
      track cfg i ((s.win.winSyncThenCollect i).self i) (s.gradPrev i) := by
  simp only [collect, Window.total_setSelf, Window.total_winSyncThenCollect]

@[simp] theorem u_uStep (w : WBuff n K) : (uStep cfg w).u = w.u - cfg.alpha • w.y := rfl
@[simp] theorem v_uStep (w : WBuff n K) : (uStep cfg w).v = w.v := rfl
@[simp] theorem y_uStep (w : WBuff n K) : (uStep cfg w).y = w.y := rfl

@[simp] theorem push_gradPrev (s : State N n K) (i : Fin N) :
    (push cfg s i).gradPrev = s.gradPrev := rfl

theorem collect_gradPrev (s : State N n K) (i : Fin N) :
    (collect cfg s i).gradPrev = Function.update s.gradPrev i
      (cfg.grad i ((s.win.winSyncThenCollect i).self i).estimate) := rfl

theorem collect_self (s : State N n K) (i j : Fin N) : (collect cfg s i).win.self j =
    if j = i then track cfg i (s.win.self i + (s.win.delivered i).sum) (s.gradPrev i)
    else s.win.self j := by
  rcases eq_or_ne j i with rfl | h <;> simp [collect, *]

/-- Push-sum conservation: all `v` in the network sums to the world size, all `y`
to the gradients last seen. -/
structure Conserved (s : State N n K) : Prop where
  v_total : s.win.total.v = N
  y_total : s.win.total.y = ∑ i, s.gradPrev i

theorem conserved_init : Conserved (init cfg) :=
  ⟨by simp [init], by simp [init]⟩

theorem Conserved.push {s : State N n K} (h : Conserved s) {i : Fin N} (hout : (cfg.out i).Nodup) :
    Conserved (push cfg s i) := by
  have hd : ((cfg.out i).dedup.length + 1 : K) / ((cfg.out i).length + 1) = 1 := by
    rw [List.dedup_eq_self.mpr hout]
    exact div_self (Nat.cast_add_one_pos _).ne'
  constructor <;> simp only [total_push, hd, one_smul, WBuff.v_add, WBuff.v_sub, v_uStep, WBuff.y_add,
    WBuff.y_sub, y_uStep, sub_add_cancel, push_gradPrev, h.v_total, h.y_total]

theorem Conserved.collect {s : State N n K} (h : Conserved s) (i : Fin N) :
    Conserved (collect cfg s i) := by
  constructor
  · simp [total_collect, h.v_total]
  · rw [total_collect, collect_gradPrev, sum_update_eq]
    simp only [WBuff.y_add, WBuff.y_sub, y_track, h.y_total]
    abel

theorem Conserved.step {s : State N n K} (h : Conserved s) (hout : ∀ i, (cfg.out i).Nodup) :
    ∀ a, Conserved (step cfg s a)
  | .push i => h.push (hout i)
  | .deliver k => ⟨by simp [PushDIGing.step, Window.total_deliver, h.v_total],
      by simp [PushDIGing.step, Window.total_deliver, h.y_total]⟩
  | .collect i => h.collect i
  | .finalCollect i => ⟨by simp [PushDIGing.step, PushDIGing.finalCollect, Window.total_winSyncThenCollect, h.v_total],
      by simp [PushDIGing.step, PushDIGing.finalCollect, Window.total_winSyncThenCollect, h.y_total]⟩

theorem Conserved.run {s : State N n K} (h : Conserved s) (hout : ∀ i, (cfg.out i).Nodup)
    (as : List (Action N)) : Conserved (run cfg s as) := by
  induction as generalizing s with
  | nil => exact h
  | cons a as ih => exact ih (h.step hout a)

/-- Push-DIGing conserves push-sum mass under every interleaving of pushes,
deliveries and collects, on every topology without repeated out-neighbours. -/
theorem mass_conservation (cfg : Config N n K) (hout : ∀ i, (cfg.out i).Nodup)
    (as : List (Action N)) :
    let s := run cfg (init cfg) as
    s.win.total.v = N ∧ s.win.total.y = ∑ i, s.gradPrev i ∧
      (s.win.inflight = [] → (∀ i, s.win.delivered i = []) →
        ∑ i, (s.win.self i).v = N ∧ ∑ i, (s.win.self i).y = ∑ i, s.gradPrev i) := by
  have h : Conserved (run cfg (init cfg) as) := conserved_init.run hout as
  refine ⟨h.v_total, h.y_total, fun h₁ h₂ => ?_⟩
  have ht := Window.total_of_quiescent _ h₁ h₂
  exact ⟨by simpa [ht] using h.v_total, by simpa [ht] using h.y_total⟩

def ringConfig : Config 2 1 ℚ := ⟨![[1], [0]], 1 / 10, fun _ x => x⟩

def twoRing : Config 2 1 ℚ := ⟨![[1], [0]], 1, twoLosses⟩

theorem mass_conservation_ring :
    (∀ i, (ringConfig.out i).Nodup) ∧
      let s := run ringConfig (init ringConfig) [.push 0, .deliver 0, .collect 1]
      s.win.total.v = 2 ∧ s.win.total.y = ∑ i, s.gradPrev i ∧
        (s.win.inflight = [] → (∀ i, s.win.delivered i = []) →
          ∑ i, (s.win.self i).v = 2 ∧ ∑ i, (s.win.self i).y = ∑ i, s.gradPrev i) :=
  ⟨by decide, mass_conservation ringConfig (by decide) _⟩

theorem length_dedup_eq_iff (out : List (Fin N)) : out.dedup.length = out.length ↔ out.Nodup := by
  rw [(List.dedup_sublist out).length_eq, List.dedup_eq_self]

theorem push_conserves_v_iff {s : State N n K} {i : Fin N} (hv : 0 < (s.win.self i).v) :
    (push cfg s i).win.total.v = s.win.total.v ↔ (cfg.out i).Nodup := by
  have hd : (0 : K) < (cfg.out i).length + 1 := by positivity
  rw [total_push, ← length_dedup_eq_iff]
  simp only [WBuff.v_add, WBuff.v_sub, WBuff.v_smul, v_uStep]
  rw [← sub_eq_zero, show ∀ t v c : K, t - v + c * v - t = (c - 1) * v by intros; ring,
    mul_eq_zero, or_iff_left hv.ne', sub_eq_zero, div_eq_one_iff_eq hd.ne', add_left_inj,
    Nat.cast_inj]

/-- Every push-sum weight in the network is positive: the owners' and those of the
contributions not yet collected. -/
structure WeightsPos (s : State N n K) : Prop where
  self_pos : ∀ i, 0 < (s.win.self i).v
  pending_pos : s.win.Pending fun c => 0 < c.v

theorem weightsPos_init : WeightsPos (init cfg) :=
  ⟨fun _ => by simp [init], Window.pending_create _ _⟩

theorem WeightsPos.push {s : State N n K} (h : WeightsPos s) (i : Fin N) :
    WeightsPos (push cfg s i) := by
  refine ⟨fun j => ?_, ((h.pending_pos.setSelf _ _).winAccumulate fun p hp => ?_).setSelf _ _⟩
  · rw [push_self]
    split_ifs
    · exact mul_pos (inv_pos.mpr (add_pos_of_pos_of_nonneg one_pos (Nat.cast_nonneg _))) (h.self_pos i)
    · exact h.self_pos j
  · obtain ⟨r, -, rfl⟩ := List.mem_map.mp hp
    exact mul_pos (div_pos one_pos (Nat.cast_add_one_pos _)) (h.self_pos i)

theorem WeightsPos.winSyncThenCollect {s : State N n K} (h : WeightsPos s) (i : Fin N) :
    0 < ((s.win.winSyncThenCollect i).self i).v := by
  simpa using add_pos_of_pos_of_nonneg (h.self_pos i)
    (WBuff.v_list_sum_nonneg (h.pending_pos.delivered i))

theorem WeightsPos.collect {s : State N n K} (h : WeightsPos s) (i : Fin N) :
    WeightsPos (collect cfg s i) := by
  refine ⟨fun j => ?_, (h.pending_pos.winSyncThenCollect i).setSelf _ _⟩
  rcases eq_or_ne j i with rfl | hj
  · simpa [PushDIGing.collect] using h.winSyncThenCollect j
  · simpa [PushDIGing.collect, hj] using h.self_pos j

theorem WeightsPos.finalCollect {s : State N n K} (h : WeightsPos s) (i : Fin N) :
    WeightsPos (finalCollect s i) := by
  refine ⟨fun j => ?_, h.pending_pos.winSyncThenCollect i⟩
  rcases eq_or_ne j i with rfl | hj
  · exact h.winSyncThenCollect j
  · simpa [PushDIGing.finalCollect, hj] using h.self_pos j

theorem WeightsPos.step {s : State N n K} (h : WeightsPos s) : ∀ a, WeightsPos (step cfg s a)
  | .push i => h.push i
  | .deliver k => ⟨by simpa [PushDIGing.step] using h.self_pos, h.pending_pos.deliver k⟩
  | .collect i => h.collect i
  | .finalCollect i => h.finalCollect i

theorem WeightsPos.run {s : State N n K} (h : WeightsPos s) (as : List (Action N)) :
    WeightsPos (run cfg s as) := by
  induction as generalizing s with
  | nil => exact h
  | cons a as ih => exact ih (h.step a)

/-- Every push-sum weight stays positive under every interleaving, on every
topology: the divisions `x = w[:n]/w[-1]` are never by zero. -/
theorem weights_pos (cfg : Config N n K) (as : List (Action N)) :
    let s := run cfg (init cfg) as
    (∀ i, 0 < (s.win.self i).v) ∧ (∀ m ∈ s.win.inflight, 0 < m.2.v) ∧
      ∀ i, ∀ c ∈ s.win.delivered i, 0 < c.v := by
  have h : WeightsPos (run cfg (init cfg) as) := weightsPos_init.run as
  exact ⟨h.self_pos, h.pending_pos.inflight, h.pending_pos.delivered⟩

/-- On every reachable state a push keeps the total `v` exactly when the pushing
rank's out-neighbour list has no repetition: a repeated neighbour is one dict key
but counts twice in `outdegree`. -/
theorem push_conserves_v_iff_nodup (cfg : Config N n K) (as : List (Action N)) (i : Fin N) :
    let s := run cfg (init cfg) as
    (push cfg s i).win.total.v = s.win.total.v ↔ (cfg.out i).Nodup := by
  have h : WeightsPos (run cfg (init cfg) as) := weightsPos_init.run as
  exact push_conserves_v_iff (h.self_pos i)

def Action.rank : Action N → Option (Fin N)
  | .push i => some i
  | .deliver _ => none
  | .collect i => some i
  | .finalCollect i => some i

theorem step_self_of_ne (s : State N n K) {a : Action N} {j : Fin N} (h : a.rank ≠ some j) :
    (step cfg s a).win.self j = s.win.self j := by
  cases a with
  | push i => rw [step, push_self, if_neg fun hj => h (congrArg some hj.symm)]
  | deliver k => exact congrFun (Window.deliver_self s.win k) j
  | collect i => rw [step, collect_self, if_neg fun hj => h (congrArg some hj.symm)]
  | finalCollect i =>
    rw [step, finalCollect, Window.winSyncThenCollect_self,
      Function.update_noteq fun hj => h (congrArg some hj.symm)]

def lastAction (as : List (Action N)) (i : Fin N) : Option (Action N) :=
  (as.filter (·.rank = some i)).getLast?

def Tracked (cfg : Config N n K) (s : State N n K) (i : Fin N) : Prop :=
  s.gradPrev i = cfg.grad i (s.win.self i).estimate

theorem tracked_init (i : Fin N) : Tracked cfg (init cfg) i := by
  simp [Tracked, init]

theorem tracked_collect (s : State N n K) (i : Fin N) : Tracked cfg (collect cfg s i) i := by
  simp [Tracked, collect_gradPrev, collect_self]

theorem step_gradPrev_of_ne (s : State N n K) {a : Action N} {j : Fin N} (h : a.rank ≠ some j) :
    (step cfg s a).gradPrev j = s.gradPrev j := by
  cases a with
  | collect i => exact Function.update_noteq (fun hj => h (congrArg some hj.symm)) _ _
  | _ => rfl

theorem Tracked.step {s : State N n K} {j : Fin N} (h : Tracked cfg s j) {a : Action N}
    (ha : a.rank ≠ some j) : Tracked cfg (step cfg s a) j := by
  rw [Tracked, step_gradPrev_of_ne s ha, step_self_of_ne s ha]
  exact h

theorem Tracked.run {s : State N n K} {j : Fin N} (h : Tracked cfg s j) {as : List (Action N)}
    (hlast : ∀ a, lastAction as j = some a → a = .collect j) : Tracked cfg (run cfg s as) j := by
  induction as using List.reverseRecOn with
  | nil => exact h
  | append_singleton bs a ih =>
    rw [run_append, run_cons, run_nil]
    by_cases ha : a.rank = some j
    · obtain rfl : a = .collect j := hlast a (by simp [lastAction, List.filter_append, ha])
      exact tracked_collect _ j
    · refine (ih fun b hb => hlast b ?_).step ha
      simpa [lastAction, List.filter_append, ha] using hb

/-- Push-DIGing under any schedule from the script's start, on a topology without
repeated out-neighbours: whenever nothing is pending and every rank's latest action
was a collect, the `y` entries sum to the local gradients at the ranks' current
estimates. -/
theorem push_diging_tracking_async (cfg : Config N n K) (hout : ∀ i, (cfg.out i).Nodup)
    (as : List (Action N)) :
    let s := run cfg (init cfg) as
    s.win.inflight = [] → (∀ i, s.win.delivered i = []) →
      (∀ i a, lastAction as i = some a → a = .collect i) →
      ∑ i, (s.win.self i).y = ∑ i, cfg.grad i (s.win.self i).estimate := by
  intro s h₁ h₂ hlast
  have hc : Conserved s := conserved_init.run hout as
  have ht := Window.total_of_quiescent _ h₁ h₂
  calc ∑ i, (s.win.self i).y = ∑ i, s.gradPrev i := by
        rw [← WBuff.y_sum, ← ht, hc.y_total]
    _ = ∑ i, cfg.grad i (s.win.self i).estimate :=
        Finset.sum_congr rfl fun i _ => (tracked_init i).run (hlast i)

theorem push_diging_tracking_async_ring :
    (∀ i, (ringConfig.out i).Nodup) ∧
      let as : List (Action 2) := [.push 0, .push 1, .deliver 0, .deliver 0, .collect 0, .collect 1]
      let s := run ringConfig (init ringConfig) as
      s.win.inflight = [] → (∀ i, s.win.delivered i = []) →
        (∀ i a, lastAction as i = some a → a = .collect i) →
        ∑ i, (s.win.self i).y = ∑ i, ringConfig.grad i (s.win.self i).estimate :=
  have hout : ∀ i, (ringConfig.out i).Nodup := by decide
  ⟨hout, push_diging_tracking_async ringConfig hout _⟩

example :
    let as : List (Action 2) := [.push 0, .push 1, .deliver 0, .deliver 0, .collect 0, .collect 1]
    let s := run ringConfig (init ringConfig) as
    s.win.inflight = [] ∧ (∀ i, s.win.delivered i = []) ∧
      ∀ i a, lastAction as i = some a → a = .collect i :=
  ⟨rfl, by decide, by decide⟩

end Bluefog.PushDIGing
