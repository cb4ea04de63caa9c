import Bluefog.Engine.Collective

/-! # Gradient tracking

The script's recursion, with `neighbor_allreduce` as a mixing matrix `W`:

    w^{k+1} = neighbor_allreduce(w^k) - alpha*q^k
    q^{k+1} = neighbor_allreduce(q^k) + grad(w^{k+1}) - grad(w^k)

Before the loop `q = w.grad.data` and `grad_prev = q.clone()`. The script's `q`
aliases the gradient buffer that `w.grad.data.zero_()` clears next, so as written
both start at zero rather than at the gradient the comment `q^0 = grad(w^0)`
names. The model starts both from the same arbitrary `q0`, which covers either
reading. Because they agree, the network sum of `q` always equals that of
`grad_prev` (`TrackInv`); after one iteration `grad_prev` is the gradient at the
current iterate, so `q` tracks the global gradient, and the states the loop maps to
itself are exactly the consensus points at which the local gradients cancel.
Eliminating `q` and `grad_prev`, the iterates `w` follow a second-order recursion in
`w` alone.
-/

namespace Bluefog.GradientTracking

variable {K : Type*} [LinearOrderedField K] {N n : ℕ}

structure State (N n : ℕ) (K : Type*) where
  w : Fin N → Fin n → K
  q : Fin N → Fin n → K
  gradPrev : Fin N → Fin n → K

/-- `w` is zero; `q` and `grad_prev = q.clone()` hold the same tensor `q0`. -/
def init (q0 : Fin N → Fin n → K) : State N n K := ⟨0, q0, q0⟩

variable (W : Fin N → Fin N → K) (alpha : K) (grad : Fin N → (Fin n → K) → Fin n → K)

/-- One iteration: `w.data = bf.neighbor_allreduce(w.data) - alpha_gt * q`, the
local gradient at the new `w`, `q = bf.neighbor_allreduce(q) + grad - grad_prev`,
`grad_prev = grad`. -/
def step (s : State N n K) : State N n K :=
  let w := neighborAllreduce W s.w - alpha • s.q
  let grad := fun i => grad i (w i)
  { w := w, q := neighborAllreduce W s.q + grad - s.gradPrev, gradPrev := grad }

def TrackInv (s : State N n K) : Prop := ∑ i, s.q i = ∑ i, s.gradPrev i

variable {W alpha grad}

@[simp] theorem step_gradPrev (s : State N n K) :
    (step W alpha grad s).gradPrev = fun i => grad i ((step W alpha grad s).w i) := rfl

section Mixing

variable (M : MixingMatrix K N)

theorem trackInv_step {s : State N n K} (h : TrackInv s) :
    TrackInv (step M.weight alpha grad s) := by
  simp only [TrackInv, step, Pi.add_apply, Pi.sub_apply, Finset.sum_add_distrib,
    Finset.sum_sub_distrib, M.sum_neighborAllreduce]
  rw [h, add_sub_cancel_left]

theorem trackInv_iterate (q0 : Fin N → Fin n → K) (k : ℕ) :
    TrackInv ((step M.weight alpha grad)^[k] (init q0)) := by
  induction k with
  | zero => rfl
  | succ k ih => rw [Function.iterate_succ_apply']; exact trackInv_step M ih

theorem sum_step_w (s : State N n K) :
    ∑ i, (step M.weight alpha grad s).w i = ∑ i, s.w i - alpha • ∑ i, s.q i := by
  simp only [step, Pi.sub_apply, Pi.smul_apply, Finset.sum_sub_distrib, M.sum_neighborAllreduce,
    Finset.smul_sum]

theorem optimal_of_fixed {s : State N n K} (h : TrackInv s) (halpha : alpha ≠ 0)
    (hfix : step M.weight alpha grad s = s) :
    ∃ x, (∀ i, s.w i = x) ∧ ∑ i, grad i x = 0 ∧ (∀ i, s.gradPrev i = grad i x) ∧ s.q = 0 := by
  have hw : neighborAllreduce M.weight s.w - alpha • s.q = s.w := congrArg State.w hfix
  have hg : s.gradPrev = fun i => grad i (s.w i) := by
    rw [← hfix, step_gradPrev, hfix]
  have hq : neighborAllreduce M.weight s.q = s.q := by
    have := congrArg State.q hfix
    simp only [step, hw] at this
    rwa [← hg, add_sub_cancel_right] at this
  have hsum : ∑ i, s.q i = 0 := by
    have : ∑ i, s.w i = ∑ i, s.w i - alpha • ∑ i, s.q i := by
      conv_lhs => rw [← congrArg State.w hfix]
      exact sum_step_w M s
    exact (smul_eq_zero.mp (sub_eq_self.mp this.symm)).resolve_left halpha
  have hq0 : s.q = 0 := M.eq_zero_of_neighborAllreduce_eq hq hsum
  have hwc : neighborAllreduce M.weight s.w = s.w := by
    rwa [hq0, smul_zero, sub_zero] at hw
  rcases Nat.eq_zero_or_pos N with rfl | hN
  · exact ⟨0, fun i => i.elim0, by simp, fun i => i.elim0, hq0⟩
  have hx := M.eq_of_neighborAllreduce_eq hwc
  have hgx (i : Fin N) : s.gradPrev i = grad i (s.w ⟨0, hN⟩) :=
    (congrFun hg i).trans (congrArg (grad i) (hx i _))
  refine ⟨s.w ⟨0, hN⟩, fun i => hx i _, ?_, hgx, hq0⟩
  rw [← hsum, h]
  exact Finset.sum_congr rfl fun i _ => (hgx i).symm

end Mixing

/-- After the first iteration the network sum of `w` takes centralised gradient
steps on the sum of the local gradients. -/
theorem sum_step_w_of_tracking (M : MixingMatrix K N) (alpha : K)
    (grad : Fin N → (Fin n → K) → Fin n → K) (q0 : Fin N → Fin n → K) (k : ℕ) :
    let s := (step M.weight alpha grad)^[k + 1] (init q0)
    ∑ i, (step M.weight alpha grad s).w i = ∑ i, s.w i - alpha • ∑ i, grad i (s.w i) := by
  intro s
  rw [sum_step_w, trackInv_iterate M q0 (k + 1)]
  simp only [s, Function.iterate_succ_apply', step_gradPrev]

theorem step_eq_of_consensus (M : MixingMatrix K N) {s : State N n K} {x : Fin n → K}
    (hx : ∀ i, s.w i = x) (hq : s.q = 0) (hg : ∀ i, s.gradPrev i = grad i x) :
    step M.weight alpha grad s = s := by
  obtain ⟨w, q, gradPrev⟩ := s
  obtain rfl : w = fun _ => x := funext hx
  obtain rfl : gradPrev = fun i => grad i x := funext hg
  subst hq
  simp [step, M.neighborAllreduce_const]

/-- Gradient tracking from the script's start: after every iteration `k ≥ 1` the
sum of `q` is the sum of the local gradients at the current iterates, and every
state the loop maps to itself is a consensus on a point where the local
gradients cancel. -/
theorem gradient_tracking_exact (M : MixingMatrix K N) (alpha : K)
    (grad : Fin N → (Fin n → K) → Fin n → K) (q0 : Fin N → Fin n → K) (k : ℕ) :
    let s := (step M.weight alpha grad)^[k + 1] (init q0)
    ∑ i, s.q i = ∑ i, grad i (s.w i) ∧
      (alpha ≠ 0 → step M.weight alpha grad s = s → ∃ x, (∀ i, s.w i = x) ∧ ∑ i, grad i x = 0) := by
  intro s
  have h : TrackInv s := trackInv_iterate M q0 (k + 1)
  refine ⟨?_, fun halpha hfix => (optimal_of_fixed M h halpha hfix).imp fun _ hx => ⟨hx.1, hx.2.1⟩⟩
  rw [h]
  simp only [s, Function.iterate_succ_apply', step_gradPrev]

def sharedMinimum : Fin 2 → (Fin 1 → ℚ) → Fin 1 → ℚ := ![fun x => x - 1, fun x => (x - 1) ^ 3]

theorem step_sharedMinimum_init :
    step (MixingMatrix.fullyConnected two_pos).weight 1 sharedMinimum (init fun i => sharedMinimum i 0) =
      (⟨fun _ _ => 1, 0, 0⟩ : State 2 1 ℚ) := by
  simp only [step, State.mk.injEq]
  refine ⟨?_, ?_, ?_⟩ <;> funext i c <;> fin_cases i <;>
    norm_num [init, neighborAllreduce, MixingMatrix.fullyConnected, sharedMinimum, Fin.sum_univ_two]

theorem step_sharedMinimum_optimum :
    step (MixingMatrix.fullyConnected two_pos).weight 1 sharedMinimum ⟨fun _ _ => 1, 0, 0⟩ =
      (⟨fun _ _ => 1, 0, 0⟩ : State 2 1 ℚ) :=
  step_eq_of_consensus _ (x := fun _ => 1) (fun _ => rfl) rfl fun i => by
    fin_cases i <;> funext c <;> norm_num [sharedMinimum]

theorem gradient_tracking_exact_shared_minimum :
    step (MixingMatrix.fullyConnected two_pos).weight 1 sharedMinimum
        (step (MixingMatrix.fullyConnected two_pos).weight 1 sharedMinimum
          (init fun i => sharedMinimum i 0)) =
      step (MixingMatrix.fullyConnected two_pos).weight 1 sharedMinimum
        (init fun i => sharedMinimum i 0) ∧
    ∃ x, (∀ i, (step (MixingMatrix.fullyConnected two_pos).weight 1 sharedMinimum
        (init fun i => sharedMinimum i 0)).w i = x) ∧ ∑ i, sharedMinimum i x = 0 :=
  have hfix : step (MixingMatrix.fullyConnected two_pos).weight 1 sharedMinimum
      (step (MixingMatrix.fullyConnected two_pos).weight 1 sharedMinimum
        (init fun i => sharedMinimum i 0)) =
      step (MixingMatrix.fullyConnected two_pos).weight 1 sharedMinimum
        (init fun i => sharedMinimum i 0) := by
    rw [step_sharedMinimum_init, step_sharedMinimum_optimum]
  ⟨hfix, (gradient_tracking_exact _ 1 sharedMinimum (fun i => sharedMinimum i 0) 0).2 one_ne_zero hfix⟩

/-- On states with `TrackInv` and with a nonzero step size, the loop fixes exactly the
consensus points at which the local gradients cancel, with `grad_prev` the gradient
there and `q` zero. -/
theorem gradient_tracking_fixed_iff (M : MixingMatrix K N) (alpha : K)
    (grad : Fin N → (Fin n → K) → Fin n → K) {s : State N n K} (h : TrackInv s)
    (halpha : alpha ≠ 0) :
    step M.weight alpha grad s = s ↔
      (∃ x, (∀ i, s.w i = x) ∧ ∑ i, grad i x = 0 ∧ ∀ i, s.gradPrev i = grad i x) ∧ s.q = 0 := by
  refine ⟨fun hfix => ?_, ?_⟩
  · obtain ⟨x, hx, hsum, hg, hq⟩ := optimal_of_fixed M h halpha hfix
    exact ⟨⟨x, hx, hsum, hg⟩, hq⟩
  · rintro ⟨⟨x, hx, -, hg⟩, hq⟩
    exact step_eq_of_consensus M hx hq hg

/-- The loop needs no `q` or `grad_prev` beyond one iteration: from any state, the
iterates after the first follow the second-order recursion in `w` alone,
`w^{k+2} = 2 W w^{k+1} - W W w^k - alpha * (grad(w^{k+1}) - grad(w^k))`. -/
theorem gradient_tracking_second_order (W : Fin N → Fin N → K) (alpha : K)
    (grad : Fin N → (Fin n → K) → Fin n → K) (t : State N n K) :
    (step W alpha grad (step W alpha grad (step W alpha grad t))).w =
      2 • neighborAllreduce W (step W alpha grad (step W alpha grad t)).w -
        neighborAllreduce W (neighborAllreduce W (step W alpha grad t).w) -
        alpha • ((fun i => grad i ((step W alpha grad (step W alpha grad t)).w i)) -
          fun i => grad i ((step W alpha grad t).w i)) := by
  generalize ha : step W alpha grad t = a
  have hg : a.gradPrev = fun i => grad i (a.w i) := by rw [← ha, step_gradPrev]
  have hb : alpha • a.q = neighborAllreduce W a.w - (step W alpha grad a).w := by
    simp only [step, sub_sub_cancel]
  show neighborAllreduce W (step W alpha grad a).w - alpha • (neighborAllreduce W a.q +
    (fun i => grad i ((step W alpha grad a).w i)) - a.gradPrev) = _
  rw [hg, smul_sub, smul_add, ← neighborAllreduce_smul, hb, neighborAllreduce_sub, two_smul,
    smul_sub]
  abel

theorem gradient_tracking_fixed_iff_two_losses :
    TrackInv (init (fun i => twoLosses i 0)) ∧ (1 : ℚ) ≠ 0 ∧
      step (MixingMatrix.fullyConnected two_pos).weight 1 twoLosses (init (fun i => twoLosses i 0)) ≠
        init (fun i => twoLosses i 0) ∧
      TrackInv (⟨fun _ _ => 2, 0, fun i => twoLosses i (fun _ => 2)⟩ : State 2 1 ℚ) ∧
      step (MixingMatrix.fullyConnected two_pos).weight 1 twoLosses
          ⟨fun _ _ => 2, 0, fun i => twoLosses i (fun _ => 2)⟩ =
        ⟨fun _ _ => 2, 0, fun i => twoLosses i (fun _ => 2)⟩ :=
  have h₀ : TrackInv (init (fun i => twoLosses i 0)) := rfl
  have hsum : ∑ i, twoLosses i (fun _ => 2) = 0 := by
    funext c
    norm_num [twoLosses, Fin.sum_univ_two]
  have h₁ : TrackInv (⟨fun _ _ => 2, 0, fun i => twoLosses i (fun _ => 2)⟩ : State 2 1 ℚ) := by
    simp only [TrackInv, Pi.zero_apply, Finset.sum_const_zero, hsum]
  have hstart : step (MixingMatrix.fullyConnected two_pos).weight 1 twoLosses
      (init (fun i => twoLosses i 0)) ≠ init (fun i => twoLosses i 0) := fun h => by
    obtain ⟨⟨x, hx, hs, -⟩, -⟩ := (gradient_tracking_fixed_iff _ 1 twoLosses h₀ one_ne_zero).mp h
    obtain rfl : 0 = x := hx 0
    have := congrFun hs 0
    norm_num [twoLosses, Fin.sum_univ_two] at this
  have hopt := (gradient_tracking_fixed_iff _ 1 twoLosses h₁ one_ne_zero).mpr
    ⟨⟨fun _ => 2, fun _ => rfl, hsum, fun _ => rfl⟩, rfl⟩
  ⟨h₀, one_ne_zero, hstart, h₁, hopt⟩

end Bluefog.GradientTracking
