import Bluefog.Engine.Collective

/-! # Exact diffusion

The script's recursion, with `neighbor_allreduce` as a mixing matrix `W`:

    psi^{k+1} = w^k - alpha * grad(w^k)
    phi^{k+1} = psi^{k+1} + w^k - psi^{k}
    w^{k+1} = neighbor_allreduce(phi^{k+1})

Only `w` and `psi_prev` carry over from one iteration to the next. From the
script's start `w = psi_prev = 0` the network sums of `w` and `psi_prev` agree
(`SumInv`), so the sum of `w` moves exactly as centralised gradient descent, and
the states the loop maps to itself are exactly the consensus points at which the
local gradients cancel. Eliminating `psi_prev`, the iterates `w` follow a
second-order recursion in `w` alone.
-/

namespace Bluefog.ExactDiffusion

variable {K : Type*} [LinearOrderedField K] {N n : ℕ}

structure State (N n : ℕ) (K : Type*) where
  w : Fin N → Fin n → K
  psiPrev : Fin N → Fin n → K

/-- `w` is zero and `phi, psi, psi_prev = w.clone(), w.clone(), w.clone()`. -/
def init : State N n K := ⟨0, 0⟩

variable (W : Fin N → Fin N → K) (alpha : K) (grad : Fin N → (Fin n → K) → Fin n → K)

/-- `psi = w - alpha_ed * w.grad.data` at every rank. -/
def psi (s : State N n K) : Fin N → Fin n → K := fun i => s.w i - alpha • grad i (s.w i)

/-- One iteration: `phi = psi + w.data - psi_prev`,
`w.data = bf.neighbor_allreduce(phi)`, `psi_prev = psi`. -/
def step (s : State N n K) : State N n K :=
  let psi := psi alpha grad s
  let phi := psi + s.w - s.psiPrev
  { w := neighborAllreduce W phi, psiPrev := psi }

def SumInv (s : State N n K) : Prop := ∑ i, s.w i = ∑ i, s.psiPrev i

variable {W alpha grad}

theorem sum_psi (s : State N n K) :
    ∑ i, psi alpha grad s i = ∑ i, s.w i - alpha • ∑ i, grad i (s.w i) := by
  simp [psi, Finset.sum_sub_distrib, Finset.smul_sum]

section Mixing

variable (M : MixingMatrix K N)

theorem sum_step_w (s : State N n K) :
    ∑ i, (step M.weight alpha grad s).w i =
      ∑ i, psi alpha grad s i + ∑ i, s.w i - ∑ i, s.psiPrev i := by
  simp only [step, M.sum_neighborAllreduce, Pi.add_apply, Pi.sub_apply, Finset.sum_add_distrib,
    Finset.sum_sub_distrib]

theorem sumInv_step {s : State N n K} (h : SumInv s) : SumInv (step M.weight alpha grad s) := by
  rw [SumInv, sum_step_w, h, add_sub_cancel_right]
  rfl

theorem sumInv_iterate (k : ℕ) : SumInv ((step M.weight alpha grad)^[k] init) := by
  induction k with
  | zero => simp [SumInv, init]
  | succ k ih => rw [Function.iterate_succ_apply']; exact sumInv_step M ih

theorem sum_step_w_of_sumInv {s : State N n K} (h : SumInv s) :
    ∑ i, (step M.weight alpha grad s).w i = ∑ i, s.w i - alpha • ∑ i, grad i (s.w i) := by
  rw [sum_step_w, h, add_sub_cancel_right, sum_psi, h]

theorem optimal_of_fixed {s : State N n K} (h : SumInv s) (halpha : alpha ≠ 0)
    (hfix : step M.weight alpha grad s = s) :
    ∃ x, (∀ i, s.w i = x) ∧ ∑ i, grad i x = 0 := by
  have hpsi : s.psiPrev = psi alpha grad s := (congrArg State.psiPrev hfix).symm
  have hw : neighborAllreduce M.weight s.w = s.w := by
    have := congrArg State.w hfix
    simpa [step, hpsi] using this
  have hsum : ∑ i, grad i (s.w i) = 0 := by
    have := h.trans (congrArg (∑ i, · i) hpsi)
    rw [sum_psi] at this
    exact (smul_eq_zero.mp (sub_eq_self.mp this.symm)).resolve_left halpha
  rcases Nat.eq_zero_or_pos N with rfl | hN
  · exact ⟨0, fun i => i.elim0, by simp⟩
  · have hx := M.eq_of_neighborAllreduce_eq hw
    refine ⟨s.w ⟨0, hN⟩, fun i => hx i _, ?_⟩
    rw [← hsum]
    exact Finset.sum_congr rfl fun i _ => congrArg (grad i) (hx _ i)

end Mixing

theorem step_eq_of_consensus (M : MixingMatrix K N) {s : State N n K} {x : Fin n → K}
    (hx : ∀ i, s.w i = x) (hpsi : s.psiPrev = psi alpha grad s) : step M.weight alpha grad s = s := by
  have hw : s.w = fun _ => x := funext hx
  simp only [step]
  rw [← hpsi, add_sub_cancel_left, hw, M.neighborAllreduce_const, ← hw]

/-- Exact diffusion from the script's start: at every iteration the sums of `w`
and `psi_prev` agree, the network sum moves as centralised gradient descent, and
every state the loop maps to itself is a consensus on a point where the local
gradients cancel. -/
theorem exact_diffusion_exact (M : MixingMatrix K N) (alpha : K)
    (grad : Fin N → (Fin n → K) → Fin n → K) (k : ℕ) :
    let s := (step M.weight alpha grad)^[k] init
    ∑ i, s.w i = ∑ i, s.psiPrev i ∧
      ∑ i, (step M.weight alpha grad s).w i = ∑ i, s.w i - alpha • ∑ i, grad i (s.w i) ∧
      (alpha ≠ 0 → step M.weight alpha grad s = s → ∃ x, (∀ i, s.w i = x) ∧ ∑ i, grad i x = 0) :=
  have h := sumInv_iterate M k
  ⟨h, sum_step_w_of_sumInv M h, fun halpha hfix => optimal_of_fixed M h halpha hfix⟩

theorem step_twoLosses_init :
    step (MixingMatrix.fullyConnected two_pos).weight 1 twoLosses init =
      (⟨fun _ _ => 2, ![fun _ => 1, fun _ => 3]⟩ : State 2 1 ℚ) := by
  simp only [step, State.mk.injEq]
  constructor <;> funext i c <;> fin_cases i <;>
    norm_num [psi, init, neighborAllreduce, MixingMatrix.fullyConnected, twoLosses, Fin.sum_univ_two]

theorem step_twoLosses_optimum :
    step (MixingMatrix.fullyConnected two_pos).weight 1 twoLosses ⟨fun _ _ => 2, ![fun _ => 1, fun _ => 3]⟩ =
      (⟨fun _ _ => 2, ![fun _ => 1, fun _ => 3]⟩ : State 2 1 ℚ) :=
  step_eq_of_consensus _ (x := fun _ => 2) (fun _ => rfl) (by
    funext i c; fin_cases i <;> norm_num [psi, twoLosses])

theorem exact_diffusion_exact_two_losses :
    step (MixingMatrix.fullyConnected two_pos).weight 1 twoLosses
        (step (MixingMatrix.fullyConnected two_pos).weight 1 twoLosses init) =
      step (MixingMatrix.fullyConnected two_pos).weight 1 twoLosses init ∧
    ∃ x, (∀ i, (step (MixingMatrix.fullyConnected two_pos).weight 1 twoLosses init).w i = x) ∧
      ∑ i, twoLosses i x = 0 :=
  have hfix : step (MixingMatrix.fullyConnected two_pos).weight 1 twoLosses
      (step (MixingMatrix.fullyConnected two_pos).weight 1 twoLosses init) =
      step (MixingMatrix.fullyConnected two_pos).weight 1 twoLosses init := by
    rw [step_twoLosses_init, step_twoLosses_optimum]
  ⟨hfix, (exact_diffusion_exact _ 1 twoLosses 1).2.2 one_ne_zero hfix⟩

/-- On states with `SumInv` and with a nonzero step size, the loop fixes exactly the
consensus points at which the local gradients cancel, with `psi_prev` at their
gradient step. -/
theorem exact_diffusion_fixed_iff (M : MixingMatrix K N) (alpha : K)
    (grad : Fin N → (Fin n → K) → Fin n → K) {s : State N n K} (h : SumInv s) (halpha : alpha ≠ 0) :
    step M.weight alpha grad s = s ↔
      (∃ x, (∀ i, s.w i = x) ∧ ∑ i, grad i x = 0) ∧ s.psiPrev = psi alpha grad s := by
  refine ⟨fun hfix => ⟨optimal_of_fixed M h halpha hfix, (congrArg State.psiPrev hfix).symm⟩, ?_⟩
  rintro ⟨⟨x, hx, -⟩, hpsi⟩
  exact step_eq_of_consensus M hx hpsi

theorem exact_diffusion_fixed_iff_two_losses :
    SumInv (init : State 2 1 ℚ) ∧ (1 : ℚ) ≠ 0 ∧
      step (MixingMatrix.fullyConnected two_pos).weight 1 twoLosses init ≠ init ∧
      SumInv (⟨fun _ _ => 2, ![fun _ => 1, fun _ => 3]⟩ : State 2 1 ℚ) ∧
      step (MixingMatrix.fullyConnected two_pos).weight 1 twoLosses ⟨fun _ _ => 2, ![fun _ => 1, fun _ => 3]⟩ =
        ⟨fun _ _ => 2, ![fun _ => 1, fun _ => 3]⟩ :=
  have h₀ : SumInv (init : State 2 1 ℚ) := rfl
  have h₁ : SumInv (⟨fun _ _ => 2, ![fun _ => 1, fun _ => 3]⟩ : State 2 1 ℚ) := by
    funext c
    norm_num [SumInv, Fin.sum_univ_two]
  have hstart : step (MixingMatrix.fullyConnected two_pos).weight 1 twoLosses init ≠ init := fun h => by
    obtain ⟨⟨x, hx, hsum⟩, -⟩ := (exact_diffusion_fixed_iff _ 1 twoLosses h₀ one_ne_zero).mp h
    obtain rfl : 0 = x := hx 0
    have := congrFun hsum 0
    norm_num [twoLosses, Fin.sum_univ_two] at this
  have hopt := (exact_diffusion_fixed_iff _ 1 twoLosses h₁ one_ne_zero).mpr
    ⟨⟨fun _ => 2, fun _ => rfl, by funext c; norm_num [twoLosses, Fin.sum_univ_two]⟩, by
      funext i c; fin_cases i <;> norm_num [psi, twoLosses]⟩
  ⟨h₀, one_ne_zero, hstart, h₁, hopt⟩

/-- The loop needs no `phi`, `psi` or `psi_prev` beyond one iteration: from any state, two
iterations follow the second-order recursion in `w` alone,
`w^{k+2} = W (2 w^{k+1} - w^k - alpha * (grad(w^{k+1}) - grad(w^k)))`. -/
theorem exact_diffusion_second_order (W : Fin N → Fin N → K) (alpha : K)
    (grad : Fin N → (Fin n → K) → Fin n → K) (t : State N n K) :
    (step W alpha grad (step W alpha grad t)).w =
      neighborAllreduce W (2 • (step W alpha grad t).w - t.w -
        alpha • ((fun i => grad i ((step W alpha grad t).w i)) - fun i => grad i (t.w i))) := by
  show neighborAllreduce W (psi alpha grad (step W alpha grad t) + (step W alpha grad t).w -
    psi alpha grad t) = _
  refine congrArg (neighborAllreduce W) (funext fun i => funext fun c => ?_)
  simp only [psi, Pi.add_apply, Pi.sub_apply, Pi.smul_apply, smul_eq_mul, two_smul]
  ring

end Bluefog.ExactDiffusion
