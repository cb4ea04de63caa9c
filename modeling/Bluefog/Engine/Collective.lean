import Mathlib

/-! # Collective operations

A rank's parameter is a vector `Fin n → K` over an ordered field standing for
exact reals; a family over the `N` ranks is `Fin N → Fin n → K`. `allreduce`
reduces over every rank. `neighbor_allreduce` aggregates only over a rank's
in-neighbours, as multiplication by a mixing matrix whose entry `W i j` is the
weight rank `i` gives to rank `j`. A `MixingMatrix` carries the conditions the
decentralised algorithms rely on: mixing keeps the network sum and fixes every
consensus, and a family it fixes is a consensus, zero when its sum is zero.
-/

namespace Bluefog

variable {K : Type*} [LinearOrderedField K] {N n : ℕ}

/-- Modelled from the spec: `allreduce(buffer, op=sum|average)` returns to every
rank the sum of all ranks' buffers, divided by the world size after summation
when averaging. -/
def allreduce (average : Bool) (x : Fin N → Fin n → K) : Fin n → K :=
  if average then (N : K)⁻¹ • ∑ i, x i else ∑ i, x i

/-- Modelled from the spec: `neighbor_allreduce(buffer)` at rank `i` is the
weighted sum of the contributions of its declared senders; `W i j` is zero
outside the in-neighbours of `i` (and `i` itself when it is its own neighbour). -/
def neighborAllreduce (W : Fin N → Fin N → K) (x : Fin N → Fin n → K) :
    Fin N → Fin n → K :=
  fun i => ∑ j, W i j • x j

@[simp] theorem neighborAllreduce_zero (W : Fin N → Fin N → K) :
    neighborAllreduce W (0 : Fin N → Fin n → K) = 0 := by
  funext i
  simp [neighborAllreduce]

theorem neighborAllreduce_sub (W : Fin N → Fin N → K) (x y : Fin N → Fin n → K) :
    neighborAllreduce W (x - y) = neighborAllreduce W x - neighborAllreduce W y := by
  funext i
  simp only [neighborAllreduce, Pi.sub_apply, smul_sub, Finset.sum_sub_distrib]

theorem neighborAllreduce_smul (W : Fin N → Fin N → K) (c : K) (x : Fin N → Fin n → K) :
    neighborAllreduce W (c • x) = c • neighborAllreduce W x := by
  funext i
  simp only [neighborAllreduce, Pi.smul_apply, Finset.smul_sum, smul_comm c]

theorem card_filter_mem {l : List (Fin N)} (hl : l.Nodup) :
    (Finset.univ.filter (· ∈ l)).card = l.length := by
  rw [← List.toFinset_card_of_nodup hl]
  congr 1
  ext
  simp

theorem allreduce_sub (average : Bool) (x y : Fin N → Fin n → K) :
    allreduce average (x - y) = allreduce average x - allreduce average y := by
  simp only [allreduce, Pi.sub_apply, Finset.sum_sub_distrib]
  split
  · exact smul_sub _ _ _
  · rfl

theorem allreduce_smul (average : Bool) (c : K) (x : Fin N → Fin n → K) :
    allreduce average (c • x) = c • allreduce average x := by
  simp only [allreduce, Pi.smul_apply, ← Finset.smul_sum]
  split
  · exact smul_comm _ _ _
  · rfl

theorem allreduce_average_const (hN : 0 < N) (t : Fin n → K) :
    allreduce true (fun _ : Fin N => t) = t := by
  rw [allreduce, if_pos rfl, Finset.sum_const, Finset.card_univ, Fintype.card_fin,
    ← Nat.cast_smul_eq_nsmul K, smul_smul, inv_mul_cancel₀ (Nat.cast_ne_zero.mpr hN.ne'), one_smul]

theorem neighborAllreduce_const_of_row_sum {W : Fin N → Fin N → K} (hrow : ∀ i, ∑ j, W i j = 1)
    (c : Fin n → K) : neighborAllreduce W (fun _ => c) = fun _ => c := by
  funext i
  simp only [neighborAllreduce, ← Finset.sum_smul, hrow, one_smul]

/-- A doubly stochastic matrix whose only fixed vectors are the constant vectors. -/
structure MixingMatrix (K : Type*) [LinearOrderedField K] (N : ℕ) where
  weight : Fin N → Fin N → K
  nonneg : ∀ i j, 0 ≤ weight i j
  row_sum : ∀ i, ∑ j, weight i j = 1
  col_sum : ∀ j, ∑ i, weight i j = 1
  fixed_const : ∀ x : Fin N → K, (∀ i, ∑ j, weight i j * x j = x i) → ∀ i j, x i = x j

namespace MixingMatrix

variable (W : MixingMatrix K N)

theorem sum_neighborAllreduce (x : Fin N → Fin n → K) :
    ∑ i, neighborAllreduce W.weight x i = ∑ i, x i := by
  simp only [neighborAllreduce]
  rw [Finset.sum_comm]
  simp only [← Finset.sum_smul, W.col_sum, one_smul]

theorem neighborAllreduce_const (c : Fin n → K) :
    neighborAllreduce W.weight (fun _ => c) = fun _ => c :=
  neighborAllreduce_const_of_row_sum W.row_sum c

theorem eq_of_neighborAllreduce_eq {x : Fin N → Fin n → K}
    (h : neighborAllreduce W.weight x = x) (i j : Fin N) : x i = x j := by
  funext c
  refine W.fixed_const (fun k => x k c) (fun k => ?_) i j
  have := congrFun (congrFun h k) c
  simpa only [neighborAllreduce, Finset.sum_apply, Pi.smul_apply, smul_eq_mul] using this

theorem eq_zero_of_neighborAllreduce_eq {x : Fin N → Fin n → K}
    (h : neighborAllreduce W.weight x = x) (hsum : ∑ i, x i = 0) : x = 0 := by
  rcases Nat.eq_zero_or_pos N with rfl | hN
  · exact funext fun i => i.elim0
  have hx := W.eq_of_neighborAllreduce_eq h
  have : (N : K) • x ⟨0, hN⟩ = 0 := by
    rw [← hsum, Finset.sum_congr rfl fun i _ => hx i ⟨0, hN⟩, Finset.sum_const, Finset.card_univ,
      Fintype.card_fin, Nat.cast_smul_eq_nsmul]
  funext i
  rw [hx i ⟨0, hN⟩]
  exact (smul_eq_zero.mp this).resolve_left (Nat.cast_ne_zero.mpr hN.ne')

def fullyConnected (hN : 0 < N) : MixingMatrix K N where
  weight _ _ := (N : K)⁻¹
  nonneg _ _ := inv_nonneg.mpr (Nat.cast_nonneg N)
  row_sum _ := by simp [Finset.sum_const, (Nat.cast_pos.mpr hN).ne']
  col_sum _ := by simp [Finset.sum_const, (Nat.cast_pos.mpr hN).ne']
  fixed_const x hx i j := (hx i).symm.trans (hx j)

end MixingMatrix

def twoLosses : Fin 2 → (Fin 1 → ℚ) → Fin 1 → ℚ := ![fun x => x - 1, fun x => x - 3]

/-- Maximum principle: when each entry of `x` is a convex combination of the entries,
with a positive weight on every edge of a relation along which every rank reaches
every other, `x` is constant. -/
theorem eq_of_forall_convex {R : Fin N → Fin N → Prop} (hR : ∀ i j, Relation.ReflTransGen R i j)
    {a : Fin N → Fin N → K} (ha : ∀ i j, 0 ≤ a i j) (hrow : ∀ i, ∑ j, a i j = 1)
    (hpos : ∀ j i, R j i → 0 < a i j) {x : Fin N → K} (hx : ∀ i, ∑ j, a i j * x j = x i)
    (i j : Fin N) : x i = x j := by
  obtain ⟨m, -, hm⟩ := Finset.exists_max_image Finset.univ x ⟨i, Finset.mem_univ i⟩
  have hmax : ∀ k, x k ≤ x m := fun k => hm k (Finset.mem_univ k)
  -- a rank at the maximum has every rank that feeds it at the maximum
  have hstep : ∀ b c, R b c → x c = x m → x b = x m := by
    intro b c hbc hc
    have hzero : ∑ k, a c k * (x m - x k) = 0 := by
      simp only [mul_sub, Finset.sum_sub_distrib, ← Finset.sum_mul, hrow, one_mul, hx, hc, sub_self]
    have := (Finset.sum_eq_zero_iff_of_nonneg fun k _ =>
      mul_nonneg (ha c k) (sub_nonneg.mpr (hmax k))).mp hzero b (Finset.mem_univ b)
    rcases mul_eq_zero.mp this with h | h
    · exact absurd h (hpos b c hbc).ne'
    · exact (sub_eq_zero.mp h).symm
  have hall : ∀ k, x k = x m := fun k =>
    Relation.ReflTransGen.head_induction_on (hR k m) rfl fun hac _ hc => hstep _ _ hac hc
  rw [hall i, hall j]

end Bluefog
