import Bluefog.Engine.Collective

/-! # Distributed gradient descent

The reference solution of both scripts:

    x^{k+1} = x^k - alpha * allreduce(local_grad)

Every rank starts from zero and applies the same reduced gradient, so the ranks
never disagree: the distributed run is the centralised gradient descent on the
reduced gradient, copied to every rank. The states the loop maps to itself are
exactly those at which the local gradients cancel.
-/

namespace Bluefog.GradientDescent

variable {K : Type*} [LinearOrderedField K] {N n : ℕ}

variable (average : Bool) (alpha : K) (grad : Fin N → (Fin n → K) → Fin n → K)

/-- `w_opt = zeros`. -/
def init : Fin N → Fin n → K := 0

/-- `grad = bf.allreduce(w_opt.grad.data, name='gradient')`,
`w_opt.data = w_opt.data - alpha*grad`; the reduction (sum or average) is the
library's default and is left as a parameter. -/
def step (w : Fin N → Fin n → K) : Fin N → Fin n → K :=
  fun i => w i - alpha • allreduce average fun j => grad j (w j)

/-- Centralised gradient descent on the reduced gradient. -/
def centralStep (x : Fin n → K) : Fin n → K :=
  x - alpha • allreduce average fun j => grad j x

variable {average alpha grad}

/-- The script's loop, run from `w_opt = zeros`, holds the centralised iterate at every
rank; the other modules compare their methods with `centralStep`. -/
theorem iterate_step_init_eq_centralStep (k : ℕ) :
    (step average alpha grad)^[k] init = fun _ => (centralStep average alpha grad)^[k] 0 := by
  induction k with
  | zero => rfl
  | succ k ih => rw [Function.iterate_succ_apply', ih, Function.iterate_succ_apply']; rfl

/-- With a nonzero step size the loop fixes exactly the states at which the local
gradients cancel. -/
theorem gradient_descent_fixed_iff {w : Fin N → Fin n → K} (halpha : alpha ≠ 0) :
    step average alpha grad w = w ↔ ∑ j, grad j (w j) = 0 := by
  rcases Nat.eq_zero_or_pos N with rfl | hN
  · exact ⟨fun _ => by simp, fun _ => funext fun i => i.elim0⟩
  have hred : step average alpha grad w = w ↔ allreduce average (fun j => grad j (w j)) = 0 := by
    simp only [funext_iff, step, sub_eq_self, smul_eq_zero, halpha, false_or]
    exact ⟨fun h => h ⟨0, hN⟩, fun h _ => h⟩
  have hN' : (N : K)⁻¹ ≠ 0 := inv_ne_zero (Nat.cast_ne_zero.mpr hN.ne')
  rw [hred]
  cases average <;> simp [allreduce, hN']

theorem step_twoLosses_init : step true 1 twoLosses init = fun _ _ => 2 := by
  funext i c
  simp [step, allreduce, init, twoLosses, Fin.sum_univ_two]
  norm_num

theorem gradient_descent_fixed_iff_two_losses :
    (1 : ℚ) ≠ 0 ∧ step true 1 twoLosses init ≠ init ∧
      step true 1 twoLosses (step true 1 twoLosses init) = step true 1 twoLosses init :=
  have hstart : ∑ j, twoLosses j (init j) ≠ 0 := fun h => by
    have := congrFun h 0
    norm_num [init, twoLosses, Fin.sum_univ_two] at this
  have hopt : ∑ j, twoLosses j (step true 1 twoLosses init j) = 0 := by
    rw [step_twoLosses_init]
    funext c
    norm_num [twoLosses, Fin.sum_univ_two]
  ⟨one_ne_zero, mt (gradient_descent_fixed_iff one_ne_zero).mp hstart,
    (gradient_descent_fixed_iff one_ne_zero).mpr hopt⟩

end Bluefog.GradientDescent
