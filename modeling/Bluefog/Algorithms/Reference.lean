import Bluefog.Algorithms.GradientDescent
import Bluefog.Algorithms.ExactDiffusion
import Bluefog.Algorithms.GradientTracking
import Bluefog.Algorithms.PushDIGingSync
import Bluefog.Engine.Topology

/-! # Reaching the reference

The decentralised methods of the scripts compute exactly the iterates of the
distributed gradient descent reference `w_opt` in two cases. When every rank holds
the same loss, from a consensus every rank takes the same gradient step and mixing
keeps the consensus: exact diffusion and gradient tracking do so for any weights whose
rows sum to one, synchronous Push-DIGing on every topology in which each rank has `d`
in- and `d` out-neighbours, such as the power-of-two ring of the scripts. When every
rank hears every rank, mixing is the network average, and exact diffusion and
Push-DIGing follow the reference whatever the local losses, tracking the sum of the
gradients at its iterate.
-/

namespace Bluefog

variable {K : Type*} [LinearOrderedField K] {N n : ℕ}

section Homogeneous

variable (alpha : K) (g : (Fin n → K) → Fin n → K)

theorem GradientDescent.centralStep_homogeneous (hN : 0 < N) (x : Fin n → K) :
    GradientDescent.centralStep true alpha (fun _ : Fin N => g) x = x - alpha • g x := by
  rw [GradientDescent.centralStep, allreduce_average_const hN]

namespace ExactDiffusion

theorem step_consensus {W : Fin N → Fin N → K} (hrow : ∀ i, ∑ j, W i j = 1) (x : Fin n → K) :
    step W alpha (fun _ => g) ⟨fun _ => x, fun _ => x⟩ =
      ⟨fun _ => GradientDescent.centralStep true alpha (fun _ : Fin N => g) x,
        fun _ => GradientDescent.centralStep true alpha (fun _ : Fin N => g) x⟩ := by
  simp only [step]
  unfold psi
  simp only [add_sub_cancel_right, neighborAllreduce_const_of_row_sum hrow]
  congr 1 <;> funext i <;> rw [GradientDescent.centralStep_homogeneous alpha g i.pos]

/-- Exact diffusion with one loss at every rank, for any weights whose rows sum to one:
from the script's start `w = psi_prev = 0`, every iterate is the reference's iterate
at every rank. -/
theorem exact_diffusion_homogeneous (W : Fin N → Fin N → K) (hrow : ∀ i, ∑ j, W i j = 1)
    (alpha : K) (g : (Fin n → K) → Fin n → K) (k : ℕ) :
    (step W alpha fun _ => g)^[k] init =
      (let x := (GradientDescent.centralStep true alpha fun _ : Fin N => g)^[k] 0
       ⟨fun _ => x, fun _ => x⟩) := by
  induction k with
  | zero => rfl
  | succ k ih =>
    rw [Function.iterate_succ_apply', ih, step_consensus alpha g hrow, Function.iterate_succ_apply']

theorem exact_diffusion_homogeneous_ring3 :
    (∀ i, ∑ j, Topology.ring3.defaultWeight i j = (1 : ℚ)) ∧
      (step Topology.ring3.defaultWeight (1 / 10) fun _ => fun (x : Fin 1 → ℚ) => x - 1)^[2] init =
        (let x := (GradientDescent.centralStep true (1 / 10 : ℚ) fun _ : Fin 3 =>
          fun (x : Fin 1 → ℚ) => x - 1)^[2] 0
         ⟨fun _ => x, fun _ => x⟩) :=
  ⟨Topology.ring3.sum_defaultWeight,
    exact_diffusion_homogeneous _ Topology.ring3.sum_defaultWeight _ _ 2⟩

end ExactDiffusion

namespace GradientTracking

theorem step_consensus {W : Fin N → Fin N → K} (hrow : ∀ i, ∑ j, W i j = 1) (x : Fin n → K) :
    step W alpha (fun _ => g) ⟨fun _ => x, fun _ => g x, fun _ => g x⟩ =
      ⟨fun _ => GradientDescent.centralStep true alpha (fun _ : Fin N => g) x,
        fun _ => g (GradientDescent.centralStep true alpha (fun _ : Fin N => g) x),
        fun _ => g (GradientDescent.centralStep true alpha (fun _ : Fin N => g) x)⟩ := by
  simp only [step, neighborAllreduce_const_of_row_sum hrow, add_sub_cancel_left]
  congr 1 <;> funext i <;> rw [GradientDescent.centralStep_homogeneous alpha g i.pos] <;> rfl

/-- Gradient tracking with one loss at every rank, for any weights whose rows sum to
one, started as the comment `q^0 = grad(w^0)` says: every iterate is the reference's
iterate at every rank, with `q` and `grad_prev` the gradient there. -/
theorem gradient_tracking_homogeneous (W : Fin N → Fin N → K) (hrow : ∀ i, ∑ j, W i j = 1)
    (alpha : K) (g : (Fin n → K) → Fin n → K) (k : ℕ) :
    (step W alpha fun _ => g)^[k] (init fun _ => g 0) =
      (let x := (GradientDescent.centralStep true alpha fun _ : Fin N => g)^[k] 0
       ⟨fun _ => x, fun _ => g x, fun _ => g x⟩) := by
  induction k with
  | zero => rfl
  | succ k ih =>
    rw [Function.iterate_succ_apply', ih, step_consensus alpha g hrow, Function.iterate_succ_apply']

theorem gradient_tracking_homogeneous_ring3 :
    (∀ i, ∑ j, Topology.ring3.defaultWeight i j = (1 : ℚ)) ∧
      (step Topology.ring3.defaultWeight (1 / 10) fun _ => fun (x : Fin 1 → ℚ) => x - 1)^[2]
          (init fun _ => (0 : Fin 1 → ℚ) - 1) =
        (let x := (GradientDescent.centralStep true (1 / 10 : ℚ) fun _ : Fin 3 =>
          fun (x : Fin 1 → ℚ) => x - 1)^[2] 0
         ⟨fun _ => x, fun _ => x - 1, fun _ => x - 1⟩) :=
  ⟨Topology.ring3.sum_defaultWeight,
    gradient_tracking_homogeneous _ Topology.ring3.sum_defaultWeight _ _ 2⟩

end GradientTracking

namespace PushDIGing

section Regular

variable {cfg : Config N n K} {d : ℕ} (hout : ∀ j, (cfg.out j).length = d)
  (hin : ∀ i, (Finset.univ.filter fun j => i ∈ cfg.out j).card = d)
include hout hin

theorem sum_pushWeight_row (i : Fin N) : ∑ j, pushWeight cfg i j = 1 := by
  simp only [pushWeight, hout, ← Finset.sum_div, Finset.sum_add_distrib, Finset.sum_ite_eq,
    Finset.mem_univ, if_true, Finset.sum_boole, hin, add_comm (1 : K)]
  exact div_self (Nat.cast_add_one_pos d).ne'

theorem syncStep_consensus (hg : ∀ i, cfg.grad i = g) (x : Fin n → K) :
    syncStep cfg ⟨Window.create fun _ => (x, g x, 1), fun _ => g x⟩ =
      ⟨Window.create fun _ => (GradientDescent.centralStep true cfg.alpha (fun _ : Fin N => g) x,
          g (GradientDescent.centralStep true cfg.alpha (fun _ : Fin N => g) x), 1),
        fun _ => g (GradientDescent.centralStep true cfg.alpha (fun _ : Fin N => g) x)⟩ := by
  have hw (i : Fin N) : ∑ j, pushWeight cfg i j • uStep cfg ((x, g x, 1) : WBuff n K) =
      (x - cfg.alpha • g x, g x, 1) := by
    rw [← Finset.sum_smul, sum_pushWeight_row hout hin, one_smul]
    rfl
  have he : WBuff.estimate ((x - cfg.alpha • g x, g x, 1) : WBuff n K) = x - cfg.alpha • g x :=
    funext fun _ => div_one _
  simp only [syncStep, Window.create_self, hw, track, he, hg, WBuff.u_mk, WBuff.y_mk, WBuff.v_mk,
    add_sub_cancel]
  congr 2 <;> funext i <;> rw [GradientDescent.centralStep_homogeneous _ g i.pos]

end Regular

/-- Synchronous Push-DIGing with one loss at every rank, on a topology where every rank
has `d` out- and `d` in-neighbours: from the script's start every rank holds
`u = x`, `y = grad(x)` and `v = 1`, with `x` the reference's iterate, which is then
also its estimate. -/
theorem push_diging_homogeneous (cfg : Config N n K) {g : (Fin n → K) → Fin n → K}
    (hg : ∀ i, cfg.grad i = g) {d : ℕ} (hout : ∀ j, (cfg.out j).length = d)
    (hin : ∀ i, (Finset.univ.filter fun j => i ∈ cfg.out j).card = d) (k : ℕ) :
    let x := (GradientDescent.centralStep true cfg.alpha fun _ : Fin N => g)^[k] 0
    (syncStep cfg)^[k] (init cfg) = ⟨Window.create fun _ => (x, g x, 1), fun _ => g x⟩ := by
  induction k with
  | zero => simp only [init, hg]; rfl
  | succ k ih =>
    dsimp only at ih ⊢
    rw [Function.iterate_succ_apply', ih, syncStep_consensus g hout hin hg,
      Function.iterate_succ_apply']

theorem push_diging_homogeneous_ring :
    (∀ i, ringConfig.grad i = fun x => x) ∧ (∀ j, (ringConfig.out j).length = 1) ∧
      (∀ i, (Finset.univ.filter fun j => i ∈ ringConfig.out j).card = 1) ∧
      let x := (GradientDescent.centralStep true ringConfig.alpha fun _ : Fin 2 =>
        fun (x : Fin 1 → ℚ) => x)^[3] 0
      (syncStep ringConfig)^[3] (init ringConfig) = ⟨Window.create fun _ => (x, x, 1), fun _ => x⟩ :=
  have hg : ∀ i, ringConfig.grad i = fun x => x := fun _ => rfl
  have hout : ∀ j, (ringConfig.out j).length = 1 := by decide
  have hin : ∀ i, (Finset.univ.filter fun j => i ∈ ringConfig.out j).card = 1 := by decide
  ⟨hg, hout, hin, push_diging_homogeneous ringConfig hg hout hin 3⟩

end PushDIGing

end Homogeneous

section FullyConnected

namespace ExactDiffusion

/-- When every rank hears every rank, from a consensus at `y` whose `psi_prev` averages to
`y`, an iteration moves every rank to the reference's step from `y`. -/
theorem step_complete {T : Topology N} (hT : ∀ i j, j ∈ T.inNbrs i) (alpha : K)
    (grad : Fin N → (Fin n → K) → Fin n → K) (y : Fin n → K) (p : Fin N → Fin n → K)
    (hp : 0 < N → allreduce true p = y) :
    step T.defaultWeight alpha grad ⟨fun _ => y, p⟩ =
      ⟨fun _ => GradientDescent.centralStep true alpha grad y, fun i => y - alpha • grad i y⟩ := by
  simp only [step]
  unfold psi
  rw [T.neighborAllreduce_complete hT]
  congr 1
  funext i
  have e : (fun j => y - alpha • grad j y) + (fun _ => y) - p =
      ((fun _ => y) - alpha • fun j => grad j y) - (p - fun _ => y) := by
    funext j
    simp only [Pi.add_apply, Pi.sub_apply, Pi.smul_apply]
    abel
  rw [e, allreduce_sub, allreduce_sub, allreduce_sub, allreduce_average_const i.pos, hp i.pos,
    allreduce_smul, sub_self, sub_zero, GradientDescent.centralStep]

theorem allreduce_gradStep (hN : 0 < N) (alpha : K) (grad : Fin N → (Fin n → K) → Fin n → K)
    (x : Fin n → K) :
    allreduce true (fun i => x - alpha • grad i x) = GradientDescent.centralStep true alpha grad x := by
  rw [show (fun i => x - alpha • grad i x) = (fun _ => x) - alpha • fun i => grad i x from rfl,
    allreduce_sub, allreduce_smul, allreduce_average_const hN, GradientDescent.centralStep]

/-- Exact diffusion on a topology where every rank hears every rank, itself included,
with the default weights of `neighbor_allreduce`, whatever the local losses: from the
script's start, every iterate holds the reference's iterate at every rank. -/
theorem exact_diffusion_fully_connected (T : Topology N) (hT : ∀ i j, j ∈ T.inNbrs i) (alpha : K)
    (grad : Fin N → (Fin n → K) → Fin n → K) (k : ℕ) :
    (step T.defaultWeight alpha grad)^[k + 1] init =
      (let x := (GradientDescent.centralStep true alpha grad)^[k] 0
       ⟨fun _ => GradientDescent.centralStep true alpha grad x, fun i => x - alpha • grad i x⟩) := by
  induction k with
  | zero => exact step_complete hT alpha grad 0 0 fun _ => by simp [allreduce]
  | succ k ih =>
    rw [Function.iterate_succ_apply', ih,
      step_complete hT alpha grad _ _ fun hN => allreduce_gradStep hN alpha grad _,
      Function.iterate_succ_apply']

def threeLosses : Fin 3 → (Fin 1 → ℚ) → Fin 1 → ℚ := fun i x => x - fun _ => (i : ℚ)

theorem exact_diffusion_fully_connected_ring3 :
    (∀ i j, j ∈ Topology.ring3.inNbrs i) ∧
      (step Topology.ring3.defaultWeight (1 / 10) threeLosses)^[3] init =
        (let x := (GradientDescent.centralStep true (1 / 10 : ℚ) threeLosses)^[2] 0
         ⟨fun _ => GradientDescent.centralStep true (1 / 10) threeLosses x,
           fun i => x - (1 / 10 : ℚ) • threeLosses i x⟩) :=
  have hT : ∀ i j, j ∈ Topology.ring3.inNbrs i := by decide
  ⟨hT, exact_diffusion_fully_connected _ hT _ _ 2⟩

end ExactDiffusion

namespace PushDIGing

/-- Every rank holds `u = x` and `v = 1` with `grad_prev` the gradient at `x`, and the `y`
entries sum to the gradients at `x`. -/
structure OnReference (cfg : Config N n K) (x : Fin n → K) (s : State N n K) : Prop where
  u : ∀ i, (s.win.self i).u = x
  v : ∀ i, (s.win.self i).v = 1
  gradPrev : ∀ i, s.gradPrev i = cfg.grad i x
  sum_y : ∑ i, (s.win.self i).y = ∑ i, cfg.grad i x

theorem onReference_init (cfg : Config N n K) : OnReference cfg 0 (init cfg) :=
  ⟨fun _ => rfl, fun _ => rfl, fun _ => rfl, rfl⟩

section Complete

variable {cfg : Config N n K} (hnd : ∀ j, (cfg.out j).Nodup) (hout : ∀ i j, i ∈ cfg.out j ↔ i ≠ j)
include hnd hout

theorem pushWeight_of_complete (i j : Fin N) : pushWeight cfg i j = ((N : K))⁻¹ := by
  have hlen : (cfg.out j).length + 1 = N := by
    have hf : Finset.univ.filter (· ∈ cfg.out j) = Finset.univ.erase j := by
      ext i
      simp [hout]
    rw [← card_filter_mem (hnd j), hf, Finset.card_erase_of_mem (Finset.mem_univ j),
      Finset.card_univ, Fintype.card_fin]
    have := j.pos
    omega
  have hnum : ((if i = j then 1 else 0) + (if i ∈ cfg.out j then 1 else 0) : K) = 1 := by
    by_cases h : i = j <;> simp [h, hout]
  have hlenK : ((cfg.out j).length : K) + 1 = N := by exact_mod_cast hlen
  rw [pushWeight, hnum, hlenK, one_div]

theorem OnReference.syncStep {x : Fin n → K} {s : State N n K} (h : OnReference cfg x s) :
    OnReference cfg (GradientDescent.centralStep true cfg.alpha cfg.grad x) (syncStep cfg s) := by
  set y := ((N : K))⁻¹ • ∑ j, (s.win.self j).y
  have hmix (i : Fin N) : ∑ j, pushWeight cfg i j • uStep cfg (s.win.self j) =
      (GradientDescent.centralStep true cfg.alpha cfg.grad x, y, 1) := by
    have hN : (N : K) ≠ 0 := Nat.cast_ne_zero.mpr i.pos.ne'
    simp only [pushWeight_of_complete hnd hout, ← Finset.smul_sum]
    refine Prod.ext ?_ (Prod.ext ?_ ?_)
    · show (((N : K))⁻¹ • ∑ j, uStep cfg (s.win.self j)).u = _
      simp only [WBuff.u_smul, WBuff.u_sum, u_uStep, h.u, Finset.sum_sub_distrib, Finset.sum_const,
        Finset.card_univ, Fintype.card_fin, ← Finset.smul_sum, h.sum_y, smul_sub,
        ← Nat.cast_smul_eq_nsmul K, smul_smul, inv_mul_cancel₀ hN, one_smul,
        GradientDescent.centralStep, allreduce, if_true, smul_comm _ cfg.alpha]
    · show (((N : K))⁻¹ • ∑ j, uStep cfg (s.win.self j)).y = y
      simp only [WBuff.y_smul, WBuff.y_sum, y_uStep, y]
    · show (((N : K))⁻¹ • ∑ j, uStep cfg (s.win.self j)).v = 1
      simp only [WBuff.v_smul, WBuff.v_sum, v_uStep, h.v, Finset.sum_const, Finset.card_univ,
        Fintype.card_fin, nsmul_eq_mul, mul_one, inv_mul_cancel₀ hN]
  have hest (b : Fin n → K) : WBuff.estimate ((GradientDescent.centralStep true cfg.alpha cfg.grad x,
      b, 1) : WBuff n K) = GradientDescent.centralStep true cfg.alpha cfg.grad x :=
    funext fun _ => div_one _
  refine ⟨fun i => ?_, fun i => ?_, fun i => ?_, ?_⟩
  · simp only [PushDIGing.syncStep, Window.create_self, hmix, track, WBuff.u_mk]
  · simp only [PushDIGing.syncStep, Window.create_self, hmix, track, WBuff.v_mk]
  · simp only [PushDIGing.syncStep, hmix, hest]
  · rcases Nat.eq_zero_or_pos N with rfl | hN
    · simp
    have hN' : (N : K) ≠ 0 := Nat.cast_ne_zero.mpr hN.ne'
    simp only [PushDIGing.syncStep, Window.create_self, hmix, track, WBuff.y_mk, hest, h.gradPrev,
      Finset.sum_add_distrib, Finset.sum_sub_distrib, Finset.sum_const, Finset.card_univ,
      Fintype.card_fin, y, ← Nat.cast_smul_eq_nsmul K, smul_smul, mul_inv_cancel₀ hN', one_smul,
      h.sum_y, add_sub_cancel]

end Complete

/-- Synchronous Push-DIGing on a topology where every rank pushes to every other rank,
whatever the local losses: from the script's start, after every round every rank's
estimate is the reference's iterate. For two ranks the power-of-two ring of the script
is such a topology. -/
theorem push_diging_fully_connected (cfg : Config N n K) (hnd : ∀ j, (cfg.out j).Nodup)
    (hout : ∀ i j, i ∈ cfg.out j ↔ i ≠ j) (k : ℕ) (i : Fin N) :
    (((syncStep cfg)^[k] (init cfg)).win.self i).estimate =
      (GradientDescent.centralStep true cfg.alpha cfg.grad)^[k] 0 := by
  have h : OnReference cfg ((GradientDescent.centralStep true cfg.alpha cfg.grad)^[k] 0)
      ((syncStep cfg)^[k] (init cfg)) := by
    induction k with
    | zero => exact onReference_init cfg
    | succ k ih =>
      rw [Function.iterate_succ_apply', Function.iterate_succ_apply']
      exact ih.syncStep hnd hout
  funext c
  rw [WBuff.estimate, h.u i, h.v i, div_one]

theorem push_diging_fully_connected_two_ring :
    (∀ j, (twoRing.out j).Nodup) ∧ (∀ i j, i ∈ twoRing.out j ↔ i ≠ j) ∧
      (((syncStep twoRing)^[3] (init twoRing)).win.self 0).estimate =
        (GradientDescent.centralStep true twoRing.alpha twoRing.grad)^[3] 0 :=
  have hnd : ∀ j, (twoRing.out j).Nodup := by decide
  have hout : ∀ i j, i ∈ twoRing.out j ↔ i ≠ j := by decide
  ⟨hnd, hout, push_diging_fully_connected twoRing hnd hout 3 0⟩

end PushDIGing

end FullyConnected

end Bluefog
