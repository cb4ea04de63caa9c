import Bluefog.Algorithms.PushDIGing

/-! # Lock-step rounds and synchronous Push-DIGing

Push-DIGing is stated for synchronous rounds with a column-stochastic matrix:
rank `j` keeps `1/(outdegree_j + 1)` of its stepped buffer and gives the same
share to each out-neighbour. In a round of the asynchronous model every rank
pushes once, the network delivers each contribution of the round once, and every
rank collects once; the ranks may act in any order and the network may deliver in
any order, a delivery order being the position, among those still in flight, that
each delivery picks. From a state with nothing pending every such round computes
exactly one synchronous iteration, on every topology; without repeated
out-neighbours the matrix is column-stochastic.

Between rounds nothing is pending, push-sum mass is conserved and the weights are
positive (`SyncInv`). In the synchronous iteration the `y` entries sum to the local
gradients at the ranks' current estimates, so `y` tracks the global gradient, the
network average of `u` takes the reference's gradient step, and the push-sum
weights are the powers of the matrix applied to the all-ones vector.

The fixed points of the round are what the script converges to. At a fixed point
the weights `v` are a positive fixed vector of the round's matrix, and on a strongly
connected topology the maximum principle, applied to the ratios with `v`, makes
every fixed vector proportional to `v`. Summing the `u` equation shows that the `y`
entries sum to zero, so `y` vanishes and all ranks estimate one point, at which
conservation of `y` makes the local gradients cancel. Conversely every such steady
state is fixed.
-/

namespace Bluefog.PushDIGing

variable {K : Type*} [LinearOrderedField K] {N n : ℕ} (cfg : Config N n K)

/-- The share of rank `j`'s stepped buffer that rank `i` holds after a round. -/
def pushWeight (i j : Fin N) : K :=
  ((if i = j then 1 else 0) + (if i ∈ cfg.out j then 1 else 0)) / ((cfg.out j).length + 1)

/-- One synchronous Push-DIGing iteration: mix the stepped buffers, then track. -/
def syncStep (s : State N n K) : State N n K :=
  let w := fun i => ∑ j, pushWeight cfg i j • uStep cfg (s.win.self j)
  { win := Window.create fun i => track cfg i (w i) (s.gradPrev i)
    gradPrev := fun i => cfg.grad i (w i).estimate }

/-- Every rank pushes, the network delivers `m` times, every rank collects. -/
def lockstep (m : ℕ) : List (Action N) :=
  (List.finRange N).map .push ++ List.replicate m (.deliver 0) ++ (List.finRange N).map .collect

def sends : ℕ := ∑ j, (cfg.out j).dedup.length

def sent (w : WBuff n K) (i j : Fin N) : WBuff n K :=
  (((dstWeights (cfg.out i) : List (Fin N × K)).filter (·.1 = j)).map fun p => p.2 • uStep cfg w).sum

variable {cfg}

theorem sum_pushWeight {j : Fin N} (hout : (cfg.out j).Nodup) : ∑ i, pushWeight cfg i j = 1 := by
  have hd : ((cfg.out j).length : K) + 1 ≠ 0 := (Nat.cast_add_one_pos _).ne'
  simp only [pushWeight, ← Finset.sum_div, Finset.sum_add_distrib, Finset.sum_ite_eq',
    Finset.mem_univ, if_true, ← Finset.sum_filter, Finset.sum_const, card_filter_mem hout,
    nsmul_eq_mul, mul_one]
  rw [add_comm, div_self hd]

theorem sent_eq (w : WBuff n K) (i j : Fin N) :
    sent cfg w i j = (if j ∈ cfg.out i then 1 / ((cfg.out i).length + 1 : K) else 0) • uStep cfg w := by
  simp only [sent, dstWeights, List.filter_map, Function.comp_def, List.map_map]
  rw [List.filter_eq, List.count_dedup]
  split <;> simp

variable (s : State N n K) (i j : Fin N)

@[simp] theorem push_delivered : (push cfg s i).win.delivered = s.win.delivered := rfl

theorem push_inflight_length :
    (push cfg s i).win.inflight.length = s.win.inflight.length + (cfg.out i).dedup.length := by
  simp [push, dstWeights]

theorem push_pendingFor :
    (push cfg s i).win.pendingFor j = s.win.pendingFor j + sent cfg (s.win.self i) i j := by
  simp only [push, Window.pendingFor_setSelf, Window.pendingFor_winAccumulate, sent]

theorem collect_delivered :
    (collect cfg s i).win.delivered j = if j = i then [] else s.win.delivered j := by
  rcases eq_or_ne j i with rfl | h <;> simp [collect, *]

@[simp] theorem collect_inflight : (collect cfg s i).win.inflight = s.win.inflight := rfl

variable (cfg) {s}

theorem run_pushes_self {rs : List (Fin N)} (hrs : rs.Nodup) (s : State N n K) (j : Fin N) :
    (run cfg s (rs.map .push)).win.self j = if j ∈ rs then
      (1 + ((cfg.out j).length : K))⁻¹ • uStep cfg (s.win.self j) else s.win.self j := by
  induction rs generalizing s with
  | nil => rfl
  | cons r rs ih =>
    obtain ⟨hr, hrs⟩ := List.nodup_cons.mp hrs
    rw [List.map_cons, run_cons, step, ih hrs, push_self]
    by_cases hj : j ∈ rs
    · simp [hj, ne_of_mem_of_not_mem hj hr]
    · rcases eq_or_ne j r with rfl | h <;> simp [hj, *]

theorem run_pushes_pendingFor {rs : List (Fin N)} (hrs : rs.Nodup) (s : State N n K) (j : Fin N) :
    (run cfg s (rs.map .push)).win.pendingFor j =
      s.win.pendingFor j + (rs.map fun i => sent cfg (s.win.self i) i j).sum := by
  induction rs generalizing s with
  | nil => simp
  | cons r rs ih =>
    obtain ⟨hr, hrs⟩ := List.nodup_cons.mp hrs
    rw [List.map_cons, run_cons, step, ih hrs, push_pendingFor, List.map_cons, List.sum_cons,
      add_assoc]
    congr 3
    exact List.map_congr_left fun i hi => by rw [push_self, if_neg (ne_of_mem_of_not_mem hi hr)]

theorem run_pushes_frame (rs : List (Fin N)) (s : State N n K) :
    (run cfg s (rs.map .push)).gradPrev = s.gradPrev ∧
      (run cfg s (rs.map .push)).win.delivered = s.win.delivered ∧
      (run cfg s (rs.map .push)).win.inflight.length =
        s.win.inflight.length + (rs.map fun i => (cfg.out i).dedup.length).sum := by
  induction rs generalizing s with
  | nil => simp
  | cons r rs ih =>
    obtain ⟨h₁, h₂, h₃⟩ := ih (push cfg s r)
    simp only [List.map_cons, run_cons, step, h₁, h₂, h₃, push_gradPrev, push_delivered,
      push_inflight_length, List.sum_cons, add_assoc, and_self]

theorem run_deliveries (m : ℕ) (s : State N n K) :
    let s' := run cfg s (List.replicate m (.deliver 0))
    s'.win.self = s.win.self ∧ s'.gradPrev = s.gradPrev ∧
      (∀ j, s'.win.pendingFor j = s.win.pendingFor j) ∧
      s'.win.inflight.length = s.win.inflight.length - m := by
  induction m generalizing s with
  | zero => simp
  | succ m ih =>
    obtain ⟨h₁, h₂, h₃, h₄⟩ := ih { s with win := s.win.deliver 0 }
    simp only [List.replicate_succ, run_cons, step, h₁, h₂, h₃, h₄, Window.deliver_self,
      Window.pendingFor_deliver, Window.length_inflight_deliver_zero, implies_true, true_and]
    omega

theorem run_collects {rs : List (Fin N)} (hrs : rs.Nodup) (s : State N n K) (j : Fin N) :
    let s' := run cfg s (rs.map .collect)
    s'.win.self j = (if j ∈ rs then
        track cfg j (s.win.self j + (s.win.delivered j).sum) (s.gradPrev j) else s.win.self j) ∧
      s'.win.delivered j = (if j ∈ rs then [] else s.win.delivered j) ∧
      s'.gradPrev j = (if j ∈ rs then
        cfg.grad j (s.win.self j + (s.win.delivered j).sum).estimate else s.gradPrev j) := by
  induction rs generalizing s with
  | nil => simp
  | cons r rs ih =>
    obtain ⟨hr, hrs⟩ := List.nodup_cons.mp hrs
    obtain ⟨h₁, h₂, h₃⟩ := ih hrs (collect cfg s r)
    simp only [List.map_cons, run_cons, step, h₁, h₂, h₃, collect_self, collect_delivered,
      collect_gradPrev, Window.winSyncThenCollect_self]
    by_cases hj : j ∈ rs
    · simp [hj, ne_of_mem_of_not_mem hj hr]
    · rcases eq_or_ne j r with rfl | h <;> simp [hj, *]

theorem run_collects_inflight (rs : List (Fin N)) (s : State N n K) :
    (run cfg s (rs.map .collect)).win.inflight = s.win.inflight := by
  induction rs generalizing s with
  | nil => rfl
  | cons r rs ih => rw [List.map_cons, run_cons, step, ih, collect_inflight]

theorem kept_add_sent (w : Fin N → WBuff n K) (j : Fin N) :
    (1 + ((cfg.out j).length : K))⁻¹ • uStep cfg (w j) + ∑ i, sent cfg (w i) i j =
      ∑ i, pushWeight cfg j i • uStep cfg (w i) := by
  simp only [sent_eq, pushWeight, add_div, add_smul, Finset.sum_add_distrib, ite_div, ite_smul,
    zero_div, zero_smul, Finset.sum_ite_eq, Finset.mem_univ, if_true, one_div, add_comm (1 : K)]

theorem run_delivers (ks : List ℕ) (s : State N n K) :
    run cfg s (ks.map .deliver) = { s with win := ks.foldl Window.deliver s.win } := by
  induction ks generalizing s with
  | nil => rfl
  | cons k ks ih => exact ih _

theorem run_round {s : State N n K} (hq : s.win = Window.create s.win.self) {ps cs : List (Fin N)}
    (hps : ps.Perm (List.finRange N)) (hcs : cs.Perm (List.finRange N)) {ks : List ℕ}
    (hks : (run cfg s (ps.map .push ++ ks.map .deliver)).win.inflight = []) :
    run cfg s (ps.map .push ++ ks.map .deliver ++ cs.map .collect) = syncStep cfg s := by
  have hpm (j : Fin N) : j ∈ ps := hps.mem_iff.mpr (List.mem_finRange j)
  have hcm (j : Fin N) : j ∈ cs := hcs.mem_iff.mpr (List.mem_finRange j)
  rw [run_append, run_delivers] at hks
  rw [run_append, run_append, run_delivers]
  obtain ⟨g₁, -, -⟩ := run_pushes_frame cfg ps s
  have hpn := hps.nodup_iff.mpr (List.nodup_finRange N)
  have p₁ := run_pushes_pendingFor cfg hpn s
  have self₁ := run_pushes_self cfg hpn s
  generalize run cfg s (ps.map .push) = s₁ at g₁ p₁ self₁ hks ⊢
  have hdel (j : Fin N) :
      ((ks.foldl Window.deliver s₁.win).delivered j).sum = ∑ i, sent cfg (s.win.self i) i j := by
    have := Window.pendingFor_foldl_deliver s₁.win ks j
    rw [Window.pendingFor, hks, p₁, hq] at this
    simpa only [Window.pendingFor, Window.create_delivered, Window.create_inflight, List.filter_nil,
      List.map_nil, List.sum_nil, add_zero, zero_add, (hps.map _).sum_eq, ← List.ofFn_eq_map,
      List.sum_ofFn] using this
  have hself (j : Fin N) : (ks.foldl Window.deliver s₁.win).self j =
      (1 + ((cfg.out j).length : K))⁻¹ • uStep cfg (s.win.self j) := by
    rw [Window.foldl_deliver_self, self₁, if_pos (hpm j)]
  have hc := run_collects cfg (hcs.nodup_iff.mpr (List.nodup_finRange N))
    { s₁ with win := ks.foldl Window.deliver s₁.win }
  refine State.ext (Window.ext (funext fun j => ?_) (funext fun j => ?_) ?_) (funext fun j => ?_)
  · rw [(hc j).1, if_pos (hcm j)]
    simp only [hself, hdel, kept_add_sent, g₁, syncStep, Window.create_self]
  · rw [(hc j).2.1, if_pos (hcm j)]
    rfl
  · rw [run_collects_inflight]
    exact hks
  · rw [(hc j).2.2, if_pos (hcm j)]
    simp only [hself, hdel, kept_add_sent, syncStep]

theorem run_lockstep {s : State N n K} (hq : s.win = Window.create s.win.self) {m : ℕ}
    (hm : sends cfg ≤ m) : run cfg s (lockstep m) = syncStep cfg s := by
  have hsum (f : Fin N → ℕ) : ((List.finRange N).map f).sum = ∑ j, f j := by
    rw [← List.ofFn_eq_map, List.sum_ofFn]
  rw [lockstep, ← List.map_replicate]
  refine run_round cfg hq (.refl _) (.refl _) ?_
  obtain ⟨-, -, l₁⟩ := run_pushes_frame cfg (List.finRange N) s
  obtain ⟨-, -, -, l₂⟩ := run_deliveries cfg m (run cfg s ((List.finRange N).map .push))
  rw [run_append, List.map_replicate]
  apply List.eq_nil_of_length_eq_zero
  rw [l₂, l₁, hq, hsum]
  simp only [Window.create_inflight, List.length_nil, zero_add, sends] at hm ⊢
  omega

/-- Rounds in lock-step from a state with nothing pending follow the synchronous
iteration, round after round. -/
theorem run_lockstep_iterate {m : ℕ} (hm : sends cfg ≤ m) (k : ℕ) {s : State N n K}
    (hq : s.win = Window.create s.win.self) :
    run cfg s (List.replicate k (lockstep m)).flatten = (syncStep cfg)^[k] s := by
  induction k generalizing s with
  | zero => rfl
  | succ k ih =>
    rw [List.replicate_succ, List.flatten_cons, run_append, run_lockstep cfg hq hm, ih rfl,
      Function.iterate_succ_apply]

theorem run_lockstep_iterate_ring :
    sends ringConfig ≤ 2 ∧ (init ringConfig).win = Window.create (init ringConfig).win.self ∧
      run ringConfig (init ringConfig) (List.replicate 3 (lockstep 2)).flatten =
        (syncStep ringConfig)^[3] (init ringConfig) :=
  have hm : sends ringConfig ≤ 2 := by decide
  ⟨hm, rfl, run_lockstep_iterate ringConfig hm 3 rfl⟩

/-- What a reachable state with nothing pending satisfies: push-sum conservation and
positive weights. -/
structure SyncInv (s : State N n K) : Prop where
  quiescent : s.win = Window.create s.win.self
  conserved : Conserved s
  weightsPos : WeightsPos s

theorem syncInv_init : SyncInv (init cfg) := ⟨rfl, conserved_init, weightsPos_init⟩

variable {cfg}

theorem syncInv_syncStep {s : State N n K} (h : SyncInv s) (hout : ∀ i, (cfg.out i).Nodup) :
    SyncInv (syncStep cfg s) := by
  have hrun := run_lockstep cfg h.quiescent (le_refl (sends cfg))
  exact ⟨rfl, hrun ▸ h.conserved.run hout _, hrun ▸ h.weightsPos.run _⟩

theorem syncInv_iterate (hout : ∀ i, (cfg.out i).Nodup) (k : ℕ) :
    SyncInv ((syncStep cfg)^[k] (init cfg)) := by
  induction k with
  | zero => exact syncInv_init cfg
  | succ k ih => rw [Function.iterate_succ_apply']; exact syncInv_syncStep ih hout

theorem SyncInv.sum_y {s : State N n K} (h : SyncInv s) :
    ∑ i, (s.win.self i).y = ∑ i, s.gradPrev i := by
  have hc := h.conserved.y_total
  rwa [h.quiescent, Window.total_create, WBuff.y_sum] at hc

theorem gradPrev_syncStep (s : State N n K) (i : Fin N) :
    (syncStep cfg s).gradPrev i = cfg.grad i ((syncStep cfg s).win.self i).estimate := rfl

/-- Synchronous Push-DIGing from the script's start, on a topology without repeated
out-neighbours: at every iteration the `y` entries sum to the local gradients at the
ranks' current estimates. -/
theorem sum_y_iterate (hout : ∀ i, (cfg.out i).Nodup) (k : ℕ) :
    ∑ i, (((syncStep cfg)^[k] (init cfg)).win.self i).y =
      ∑ i, cfg.grad i (((syncStep cfg)^[k] (init cfg)).win.self i).estimate := by
  rw [(syncInv_iterate hout k).sum_y]
  cases k with
  | zero => simp [init]
  | succ k =>
    simp only [Function.iterate_succ_apply']
    exact Finset.sum_congr rfl fun i _ => gradPrev_syncStep _ i

theorem push_diging_tracking (cfg : Config N n K) (hout : ∀ i, (cfg.out i).Nodup) (k : ℕ) :
    let s := (syncStep cfg)^[k] (init cfg)
    ∑ i, (s.win.self i).y = ∑ i, cfg.grad i (s.win.self i).estimate :=
  sum_y_iterate hout k

theorem push_diging_tracking_ring :
    (∀ i, (ringConfig.out i).Nodup) ∧
      let s := (syncStep ringConfig)^[3] (init ringConfig)
      ∑ i, (s.win.self i).y = ∑ i, ringConfig.grad i (s.win.self i).estimate :=
  have hout : ∀ i, (ringConfig.out i).Nodup := by decide
  ⟨hout, push_diging_tracking ringConfig hout 3⟩

theorem sum_u_syncStep (hout : ∀ i, (cfg.out i).Nodup) (s : State N n K) :
    ∑ i, ((syncStep cfg s).win.self i).u =
      ∑ i, (s.win.self i).u - cfg.alpha • ∑ i, (s.win.self i).y := by
  simp only [syncStep, Window.create_self, track, WBuff.u_mk, WBuff.u_sum, WBuff.u_smul, u_uStep]
  rw [Finset.sum_comm]
  simp only [← Finset.sum_smul, sum_pushWeight (hout _), one_smul, Finset.sum_sub_distrib,
    Finset.smul_sum]

/-- Synchronous Push-DIGing from the script's start, on a topology without repeated
out-neighbours: the network average of `u`, the push-sum average of the estimates since
the weights `v` sum to the world size, takes the reference's step
`w_opt - alpha * allreduce(grad)`, with each rank's gradient at its own estimate. -/
theorem push_diging_mean (cfg : Config N n K) (hout : ∀ i, (cfg.out i).Nodup) (k : ℕ) :
    let s := (syncStep cfg)^[k] (init cfg)
    allreduce true (fun i => ((syncStep cfg s).win.self i).u) =
      allreduce true (fun i => (s.win.self i).u) -
        cfg.alpha • allreduce true fun i => cfg.grad i (s.win.self i).estimate := by
  intro s
  simp only [allreduce, if_true]
  rw [sum_u_syncStep hout, sum_y_iterate hout k, smul_sub, smul_comm]

theorem push_diging_mean_two_ring :
    (∀ i, (twoRing.out i).Nodup) ∧
      let s := (syncStep twoRing)^[2] (init twoRing)
      allreduce true (fun i => ((syncStep twoRing s).win.self i).u) =
        allreduce true (fun i => (s.win.self i).u) -
          twoRing.alpha • allreduce true fun i => twoRing.grad i (s.win.self i).estimate :=
  have hout : ∀ i, (twoRing.out i).Nodup := by decide
  ⟨hout, push_diging_mean twoRing hout 2⟩

/-- Every rank reaches every other along the push edges `i → j` for `j ∈ out i`. -/
def StronglyConnected (cfg : Config N n K) : Prop :=
  ∀ i j, Relation.ReflTransGen (fun a b => b ∈ cfg.out a) i j

theorem pushWeight_nonneg (i j : Fin N) : 0 ≤ pushWeight cfg i j :=
  div_nonneg (add_nonneg (ite_nonneg zero_le_one le_rfl) (ite_nonneg zero_le_one le_rfl))
    (Nat.cast_add_one_pos _).le

theorem pushWeight_pos {i j : Fin N} (h : i ∈ cfg.out j) : 0 < pushWeight cfg i j := by
  rw [pushWeight, if_pos h]
  split_ifs <;> positivity

theorem sum_sum_pushWeight_mul (hout : ∀ j, (cfg.out j).Nodup) (z : Fin N → K) :
    ∑ i, ∑ j, pushWeight cfg i j * z j = ∑ j, z j := by
  rw [Finset.sum_comm]
  simp only [← Finset.sum_mul, sum_pushWeight (hout _), one_mul]

section Fixed

variable (hsc : StronglyConnected cfg) {v x : Fin N → K} (hv : ∀ i, 0 < v i)
  (hvfix : ∀ i, ∑ j, pushWeight cfg i j * v j = v i)
  (hxfix : ∀ i, ∑ j, pushWeight cfg i j * x j = x i)
include hsc hv hvfix hxfix

theorem div_eq_of_fixed (i j : Fin N) : x i / v i = x j / v j := by
  have hrow (i : Fin N) : ∑ j, pushWeight cfg i j * v j / v i = 1 := by
    rw [← Finset.sum_div, hvfix, div_self (hv i).ne']
  have hx (i : Fin N) : ∑ j, pushWeight cfg i j * v j / v i * (x j / v j) = x i / v i := by
    rw [← hxfix i, Finset.sum_div]
    refine Finset.sum_congr rfl fun j _ => ?_
    rw [div_mul_div_comm, mul_right_comm _ (v j), mul_div_mul_right _ _ (hv j).ne']
  exact eq_of_forall_convex hsc
    (fun i j => div_nonneg (mul_nonneg (pushWeight_nonneg i j) (hv j).le) (hv i).le) hrow
    (fun j i h => div_pos (mul_pos (pushWeight_pos h) (hv j)) (hv i)) hx i j

theorem eq_zero_of_fixed (hsum : ∑ i, x i = 0) (i : Fin N) : x i = 0 := by
  have hx (j : Fin N) : x j = x i / v i * v j := by
    rw [div_eq_of_fixed hsc hv hvfix hxfix i j, div_mul_cancel₀ _ (hv j).ne']
  have hpos : 0 < ∑ j, v j := Finset.sum_pos (fun j _ => hv j) ⟨i, Finset.mem_univ i⟩
  rw [Finset.sum_congr rfl fun j _ => hx j, ← Finset.mul_sum] at hsum
  have := (mul_eq_zero.mp hsum).resolve_right hpos.ne'
  rwa [div_eq_zero_iff, or_iff_left (hv i).ne'] at this

end Fixed

theorem self_eq_of_fixed {s : State N n K} (hfix : syncStep cfg s = s) (i : Fin N) :
    s.win.self i = ∑ j, pushWeight cfg i j • uStep cfg (s.win.self j) ∧
      s.gradPrev i = cfg.grad i (s.win.self i).estimate := by
  have hg := congrFun (congrArg State.gradPrev hfix) i
  have hs := congrFun (congrArg (fun s => s.win.self) hfix) i
  simp only [syncStep, Window.create_self] at hg hs
  rw [← hg, track, sub_self, add_zero, WBuff.eta] at hs
  exact ⟨hs.symm, hs ▸ hg.symm⟩

section Components

variable {s : State N n K} (hfix : syncStep cfg s = s)
include hfix

theorem v_eq_of_fixed (i : Fin N) :
    ∑ j, pushWeight cfg i j * (s.win.self j).v = (s.win.self i).v := by
  conv_rhs => rw [(self_eq_of_fixed hfix i).1]
  simp only [WBuff.v_sum, WBuff.v_smul, v_uStep]

theorem y_eq_of_fixed (c : Fin n) (i : Fin N) :
    ∑ j, pushWeight cfg i j * (s.win.self j).y c = (s.win.self i).y c := by
  conv_rhs => rw [(self_eq_of_fixed hfix i).1]
  simp only [WBuff.y_sum, WBuff.y_smul, y_uStep, Finset.sum_apply, Pi.smul_apply, smul_eq_mul]

theorem u_eq_of_fixed (c : Fin n) (i : Fin N) : ∑ j, pushWeight cfg i j *
    ((s.win.self j).u c - cfg.alpha * (s.win.self j).y c) = (s.win.self i).u c := by
  conv_rhs => rw [(self_eq_of_fixed hfix i).1]
  simp only [WBuff.u_sum, WBuff.u_smul, u_uStep, Finset.sum_apply, Pi.smul_apply, Pi.sub_apply,
    smul_eq_mul]

end Components

theorem optimal_of_fixed {s : State N n K} (h : SyncInv s) (hout : ∀ i, (cfg.out i).Nodup)
    (hsc : StronglyConnected cfg) (halpha : cfg.alpha ≠ 0) (hfix : syncStep cfg s = s) :
    ∃ x, (∀ i, (s.win.self i).estimate = x) ∧ ∑ i, cfg.grad i x = 0 ∧
      (∀ i, (s.win.self i).y = 0) ∧ ∀ i, s.gradPrev i = cfg.grad i x := by
  have hpos := h.weightsPos.self_pos
  have hv := v_eq_of_fixed hfix
  -- summing the `u` equation over the ranks: the `y` entries sum to zero
  have hsumy (c : Fin n) : ∑ i, (s.win.self i).y c = 0 := by
    have := sum_sum_pushWeight_mul hout fun j => (s.win.self j).u c - cfg.alpha * (s.win.self j).y c
    simp only [u_eq_of_fixed hfix, Finset.sum_sub_distrib, ← Finset.mul_sum] at this
    exact (mul_eq_zero.mp (sub_eq_self.mp this.symm)).resolve_left halpha
  have hy0 (c : Fin n) (i : Fin N) : (s.win.self i).y c = 0 :=
    eq_zero_of_fixed hsc hpos hv (y_eq_of_fixed hfix c) (hsumy c) i
  have hu (c : Fin n) (i : Fin N) :
      ∑ j, pushWeight cfg i j * (s.win.self j).u c = (s.win.self i).u c := by
    simpa only [hy0, mul_zero, sub_zero] using u_eq_of_fixed hfix c i
  have hest (i j : Fin N) : (s.win.self i).estimate = (s.win.self j).estimate :=
    funext fun c => div_eq_of_fixed hsc hpos hv (hu c) i j
  rcases Nat.eq_zero_or_pos N with rfl | hN
  · exact ⟨0, fun i => i.elim0, by simp, fun i => i.elim0, fun i => i.elim0⟩
  have hg (i : Fin N) : s.gradPrev i = cfg.grad i (s.win.self ⟨0, hN⟩).estimate := by
    rw [(self_eq_of_fixed hfix i).2, hest i]
  refine ⟨(s.win.self ⟨0, hN⟩).estimate, fun i => hest i _, ?_, fun i => funext (hy0 · i), hg⟩
  -- the gradients last seen are those at the common estimate; they sum as the `y` entries
  calc ∑ i, cfg.grad i (s.win.self ⟨0, hN⟩).estimate
      = ∑ i, s.gradPrev i := Finset.sum_congr rfl fun i _ => (hg i).symm
    _ = ∑ i, (s.win.self i).y := h.sum_y.symm
    _ = 0 := funext fun c => by simp [hsumy]

/-- Push-DIGing under any schedule from the script's start, on a strongly connected
topology without repeated out-neighbours and with a nonzero step size: when nothing
is pending and a lock-step round leaves the state unchanged, all ranks hold one
estimate, and the local gradients there cancel. -/
theorem push_diging_exact (cfg : Config N n K) (hout : ∀ i, (cfg.out i).Nodup)
    (hsc : StronglyConnected cfg) (halpha : cfg.alpha ≠ 0) (as : List (Action N)) :
    let s := run cfg (init cfg) as
    s.win.inflight = [] → (∀ i, s.win.delivered i = []) → run cfg s (lockstep (sends cfg)) = s →
      ∃ x, (∀ i, (s.win.self i).estimate = x) ∧ ∑ i, cfg.grad i x = 0 := by
  intro s h₁ h₂ hfix
  have hq : s.win = Window.create s.win.self := Window.ext rfl (funext h₂) h₁
  have h : SyncInv s := ⟨hq, conserved_init.run hout as, weightsPos_init.run as⟩
  exact (optimal_of_fixed h hout hsc halpha ((run_lockstep cfg hq le_rfl).symm.trans hfix)).imp
    fun _ hx => ⟨hx.1, hx.2.1⟩

theorem syncStep_eq_of_steady {s : State N n K} (hq : s.win = Window.create s.win.self)
    (hpos : ∀ i, 0 < (s.win.self i).v)
    (hv : ∀ i, ∑ j, pushWeight cfg i j * (s.win.self j).v = (s.win.self i).v) {x : Fin n → K}
    (hx : ∀ i, (s.win.self i).u = (s.win.self i).v • x ∧ (s.win.self i).y = 0 ∧
      s.gradPrev i = cfg.grad i x) :
    syncStep cfg s = s := by
  have hu (i : Fin N) := (hx i).1
  have hy (i : Fin N) := (hx i).2.1
  have hest (i : Fin N) : (s.win.self i).estimate = x := funext fun c => by
    rw [WBuff.estimate, hu, Pi.smul_apply, smul_eq_mul, mul_div_cancel_left₀ _ (hpos i).ne']
  have hmix (i : Fin N) : ∑ j, pushWeight cfg i j • uStep cfg (s.win.self j) = s.win.self i := by
    conv_lhs => rw [← WBuff.eta (∑ j, pushWeight cfg i j • uStep cfg (s.win.self j))]
    conv_rhs => rw [← WBuff.eta (s.win.self i)]
    simp only [WBuff.u_sum, WBuff.y_sum, WBuff.v_sum, WBuff.u_smul, WBuff.y_smul, WBuff.v_smul,
      u_uStep, y_uStep, v_uStep, hu, hy, smul_zero, sub_zero, smul_smul, ← Finset.sum_smul,
      Finset.sum_const_zero, hv]
  have htrack (i : Fin N) : track cfg i (s.win.self i) (s.gradPrev i) = s.win.self i := by
    rw [track, hest, ← (hx i).2.2, sub_self, add_zero, WBuff.eta]
  refine State.ext ?_ (funext fun i => ?_)
  · conv_rhs => rw [hq]
    exact congrArg Window.create (funext fun i => by simp only [hmix, htrack])
  · show cfg.grad i (∑ j, pushWeight cfg i j • uStep cfg (s.win.self j)).estimate = _
    rw [hmix, hest, (hx i).2.2]

theorem twoRing_stronglyConnected : StronglyConnected twoRing := by
  intro i j
  rcases eq_or_ne i j with rfl | h
  · exact .refl
  · exact .single (by revert i j; decide)

theorem pushWeight_twoRing (i j : Fin 2) : pushWeight twoRing i j = 2⁻¹ := by
  fin_cases i <;> fin_cases j <;> simp [pushWeight, twoRing, one_add_one_eq_two]

def twoRingOptimum : State 2 1 ℚ :=
  ⟨Window.create fun _ => (fun _ => 2, 0, 1), ![fun _ => 1, fun _ => -1]⟩

theorem mix_twoRing_init (i : Fin 2) :
    ∑ j, pushWeight twoRing i j • uStep twoRing ((init twoRing).win.self j) =
      ((fun _ => 2, fun _ => -2, 1) : WBuff 1 ℚ) := by
  simp only [init, Window.create_self, pushWeight_twoRing, Fin.sum_univ_two, ← smul_add]
  norm_num [uStep, twoRing, twoLosses, Prod.ext_iff, funext_iff]

theorem syncStep_twoRing_init : syncStep twoRing (init twoRing) = twoRingOptimum := by
  refine State.ext (Window.ext (funext fun i => ?_) rfl rfl) (funext fun i => ?_) <;>
    simp only [syncStep, twoRingOptimum, Window.create_self, mix_twoRing_init] <;> fin_cases i <;>
    norm_num [track, WBuff.estimate, twoRing, twoLosses, init, Prod.ext_iff, funext_iff]

theorem syncStep_twoRingOptimum : syncStep twoRing twoRingOptimum = twoRingOptimum :=
  syncStep_eq_of_steady rfl (fun _ => one_pos)
    (fun i => by simp [twoRingOptimum, pushWeight_twoRing])
    (x := fun _ => 2) fun i => ⟨(one_smul _ _).symm, rfl, by
      fin_cases i <;> funext c <;> norm_num [twoRingOptimum, twoRing, twoLosses]⟩

theorem push_diging_exact_two_ring :
    (∀ i, (twoRing.out i).Nodup) ∧ StronglyConnected twoRing ∧ twoRing.alpha ≠ 0 ∧
      (run twoRing (init twoRing) (lockstep (sends twoRing))).win.inflight = [] ∧
      (∀ i, (run twoRing (init twoRing) (lockstep (sends twoRing))).win.delivered i = []) ∧
      run twoRing (run twoRing (init twoRing) (lockstep (sends twoRing))) (lockstep (sends twoRing)) =
        run twoRing (init twoRing) (lockstep (sends twoRing)) ∧
      ∃ x, (∀ i, ((run twoRing (init twoRing) (lockstep (sends twoRing))).win.self i).estimate = x) ∧
        ∑ i, twoRing.grad i x = 0 :=
  have hout : ∀ i, (twoRing.out i).Nodup := by decide
  have halpha : twoRing.alpha ≠ 0 := one_ne_zero
  have hs : run twoRing (init twoRing) (lockstep (sends twoRing)) = twoRingOptimum :=
    (run_lockstep twoRing rfl le_rfl).trans syncStep_twoRing_init
  have h₁ : (run twoRing (init twoRing) (lockstep (sends twoRing))).win.inflight = [] := by
    rw [hs]; rfl
  have h₂ : ∀ i, (run twoRing (init twoRing) (lockstep (sends twoRing))).win.delivered i = [] := by
    rw [hs]; exact fun _ => rfl
  have hfix : run twoRing (run twoRing (init twoRing) (lockstep (sends twoRing)))
      (lockstep (sends twoRing)) = run twoRing (init twoRing) (lockstep (sends twoRing)) := by
    rw [hs]
    exact (run_lockstep twoRing rfl le_rfl).trans syncStep_twoRingOptimum
  ⟨hout, twoRing_stronglyConnected, halpha, h₁, h₂, hfix,
    push_diging_exact twoRing hout twoRing_stronglyConnected halpha _ h₁ h₂ hfix⟩

/-- Synchronous Push-DIGing on a strongly connected topology without repeated
out-neighbours and with a nonzero step size: a state with `SyncInv` is fixed exactly
when the round's weights fix the push-sum weights `v` and, for one point `x` at which
the local gradients cancel, every rank holds `u = v • x` and `y = 0`, with `grad_prev`
the gradient at `x`. -/
theorem push_diging_fixed_iff (cfg : Config N n K) (hout : ∀ i, (cfg.out i).Nodup)
    (hsc : StronglyConnected cfg) (halpha : cfg.alpha ≠ 0) {s : State N n K} (h : SyncInv s) :
    syncStep cfg s = s ↔
      (∀ i, ∑ j, pushWeight cfg i j * (s.win.self j).v = (s.win.self i).v) ∧
        ∃ x, ∑ i, cfg.grad i x = 0 ∧ ∀ i, (s.win.self i).u = (s.win.self i).v • x ∧
          (s.win.self i).y = 0 ∧ s.gradPrev i = cfg.grad i x := by
  have hpos := h.weightsPos.self_pos
  refine ⟨fun hfix => ?_, fun ⟨hv, _, _, hx⟩ => syncStep_eq_of_steady h.quiescent hpos hv hx⟩
  obtain ⟨x, hest, hsum, hy, hg⟩ := optimal_of_fixed h hout hsc halpha hfix
  refine ⟨v_eq_of_fixed hfix, x, hsum, fun i => ⟨funext fun c => ?_, hy i, hg i⟩⟩
  have := congrFun (hest i) c
  rw [WBuff.estimate, div_eq_iff (hpos i).ne'] at this
  rw [Pi.smul_apply, smul_eq_mul, this, mul_comm]

theorem push_diging_fixed_iff_two_ring :
    (∀ i, (twoRing.out i).Nodup) ∧ StronglyConnected twoRing ∧ twoRing.alpha ≠ 0 ∧
      SyncInv (init twoRing) ∧ syncStep twoRing (init twoRing) ≠ init twoRing ∧
      SyncInv (syncStep twoRing (init twoRing)) ∧
      syncStep twoRing (syncStep twoRing (init twoRing)) = syncStep twoRing (init twoRing) :=
  have hout : ∀ i, (twoRing.out i).Nodup := by decide
  have halpha : twoRing.alpha ≠ 0 := one_ne_zero
  have h₀ := syncInv_init twoRing
  have h₁ := syncInv_syncStep h₀ hout
  have hstart : syncStep twoRing (init twoRing) ≠ init twoRing := fun h => by
    obtain ⟨-, x, hsum, hx⟩ :=
      (push_diging_fixed_iff twoRing hout twoRing_stronglyConnected halpha h₀).mp h
    have hx0 : x = 0 := by simpa [init] using ((hx 0).1).symm
    subst hx0
    have := congrFun hsum 0
    norm_num [twoRing, twoLosses, Fin.sum_univ_two] at this
  have hopt := (push_diging_fixed_iff twoRing hout twoRing_stronglyConnected halpha h₁).mpr <| by
    rw [syncStep_twoRing_init]
    refine ⟨fun i => ?_, fun _ => 2, ?_, fun i => ?_⟩
    · norm_num [twoRingOptimum, pushWeight_twoRing, Fin.sum_univ_two]
    · funext c
      norm_num [twoRing, twoLosses, Fin.sum_univ_two]
    · fin_cases i <;> norm_num [twoRingOptimum, twoRing, twoLosses, funext_iff]
  ⟨hout, twoRing_stronglyConnected, halpha, h₀, hstart, h₁, hopt⟩

theorem v_syncStep (s : State N n K) (i : Fin N) :
    ((syncStep cfg s).win.self i).v = ∑ j, pushWeight cfg i j * (s.win.self j).v := by
  simp only [syncStep, Window.create_self, v_track, WBuff.v_sum, WBuff.v_smul, v_uStep]

/-- Synchronous Push-DIGing from the script's start, on every topology: after `k`
iterations the push-sum weights are `P^k 1`, for `P` the matrix of the round's shares,
which depends on the topology alone and not on the losses or the step size. -/
theorem push_diging_weights (cfg : Config N n K) (k : ℕ) (i : Fin N) :
    (((syncStep cfg)^[k] (init cfg)).win.self i).v =
      Matrix.mulVec ((Matrix.of fun i j => pushWeight cfg i j) ^ k) (fun _ => 1) i := by
  induction k generalizing i with
  | zero => simp [init]
  | succ k ih =>
    rw [Function.iterate_succ_apply', v_syncStep, pow_succ', ← Matrix.mulVec_mulVec]
    simp only [Matrix.mulVec, Matrix.dotProduct, Matrix.of_apply, ih]

end Bluefog.PushDIGing
