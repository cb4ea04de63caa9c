import Bluefog.Engine.Collective

/-! # Topologies and default weights

A topology gives every rank its in- and out-neighbours, without repetition, and
the two lists describe the same directed graph; whether a rank is its own
neighbour is the topology's choice. The default weights of `neighbor_allreduce`
are uniform over a rank's in-neighbours, and a rank without in-neighbours keeps
its own value. These weights are row-stochastic, and when every rank hears every
rank they are the average. On a topology where every rank has the same in- and
out-degree they are doubly stochastic; when moreover every rank reaches every
other, the maximum principle shows that their only fixed vectors are the
constants, so they form a `MixingMatrix`.
-/

namespace Bluefog

/-- Modelled from the spec: a communication graph as `set_topology` accepts it; a
rank is its own neighbour when the topology lists it. -/
structure Topology (N : ℕ) where
  inNbrs : Fin N → List (Fin N)
  outNbrs : Fin N → List (Fin N)
  in_nodup : ∀ i, (inNbrs i).Nodup
  out_nodup : ∀ i, (outNbrs i).Nodup
  mem_in_iff : ∀ i j, j ∈ inNbrs i ↔ i ∈ outNbrs j

namespace Topology

variable {K : Type*} [LinearOrderedField K] {N n : ℕ} (T : Topology N)

/-- Modelled from the spec: the default weights of `neighbor_allreduce`,
`1/|inNeighbors|` on each in-neighbour; a rank without in-neighbours keeps its own
value. -/
def defaultWeight (i j : Fin N) : K :=
  if T.inNbrs i = [] then (if j = i then 1 else 0)
  else (if j ∈ T.inNbrs i then 1 else 0) / (T.inNbrs i).length

def StronglyConnected : Prop :=
  ∀ i j, Relation.ReflTransGen (fun a b => a ∈ T.inNbrs b) i j

theorem defaultWeight_nonneg (i j : Fin N) : (0 : K) ≤ T.defaultWeight i j := by
  unfold defaultWeight
  split_ifs <;> positivity

theorem defaultWeight_pos {i j : Fin N} (h : j ∈ T.inNbrs i) : (0 : K) < T.defaultWeight i j := by
  rw [defaultWeight, if_neg (List.ne_nil_of_mem h), if_pos h]
  exact div_pos one_pos (Nat.cast_pos.mpr (List.length_pos_of_mem h))

theorem sum_defaultWeight (i : Fin N) : ∑ j, T.defaultWeight i j = (1 : K) := by
  by_cases h : T.inNbrs i = []
  · simp [defaultWeight, h]
  · simp only [defaultWeight, h, if_false, ← Finset.sum_div, Finset.sum_boole,
      card_filter_mem (T.in_nodup i)]
    exact div_self (Nat.cast_ne_zero.mpr (List.length_pos.mpr h).ne')

theorem defaultWeight_of_complete (hT : ∀ i j, j ∈ T.inNbrs i) (i j : Fin N) :
    T.defaultWeight i j = ((N : K))⁻¹ := by
  have hlen : (T.inNbrs i).length = N := by
    rw [← card_filter_mem (T.in_nodup i), Finset.filter_true_of_mem fun j _ => hT i j,
      Finset.card_univ, Fintype.card_fin]
  rw [defaultWeight, if_neg (List.ne_nil_of_mem (hT i i)), if_pos (hT i j), hlen, one_div]

theorem neighborAllreduce_complete (hT : ∀ i j, j ∈ T.inNbrs i) (x : Fin N → Fin n → K) :
    neighborAllreduce T.defaultWeight x = fun _ => allreduce true x := by
  funext i
  simp only [neighborAllreduce, T.defaultWeight_of_complete hT, allreduce, if_true, Finset.smul_sum]

/-- The spec's scenario: the undirected ring `0 → 1 → 2 → 0` with every rank its own
neighbour. -/
def ring3 : Topology 3 where
  inNbrs := ![[0, 1, 2], [0, 1, 2], [0, 1, 2]]
  outNbrs := ![[0, 1, 2], [0, 1, 2], [0, 1, 2]]
  in_nodup := by decide
  out_nodup := by decide
  mem_in_iff := by decide

example : neighborAllreduce ring3.defaultWeight (fun i (_ : Fin 1) => (i : ℚ)) 1 = fun _ => 1 := by
  funext c
  simp [neighborAllreduce, defaultWeight, ring3, Fin.sum_univ_three]
  norm_num

def dring3 : Topology 3 where
  inNbrs := ![[2, 0], [0, 1], [1, 2]]
  outNbrs := ![[0, 1], [1, 2], [2, 0]]
  in_nodup := by decide
  out_nodup := by decide
  mem_in_iff := by decide

theorem dring3_stronglyConnected : dring3.StronglyConnected := by
  have hnext (i : Fin 3) : Relation.ReflTransGen (fun a b => a ∈ dring3.inNbrs b) i (i + 1) :=
    .single (by revert i; decide)
  intro i j
  obtain rfl | rfl | rfl : j = i ∨ j = i + 1 ∨ j = i + 1 + 1 := by revert i j; decide
  · exact .refl
  · exact hnext i
  · exact (hnext i).trans (hnext (i + 1))

theorem sum_defaultWeight_col {d : ℕ} (hin : ∀ i, (T.inNbrs i).length = d)
    (hout : ∀ i, (T.outNbrs i).length = d) (j : Fin N) : ∑ i, T.defaultWeight i j = (1 : K) := by
  rcases Nat.eq_zero_or_pos d with rfl | hd
  · -- every rank is isolated and keeps its own value
    have h0 (i : Fin N) : T.inNbrs i = [] := List.length_eq_zero.mp (hin i)
    simp [defaultWeight, h0]
  · have hne (i : Fin N) : T.inNbrs i ≠ [] := List.ne_nil_of_length_pos ((hin i).symm ▸ hd)
    have hf : (Finset.univ.filter fun i => j ∈ T.inNbrs i) =
        Finset.univ.filter (· ∈ T.outNbrs j) := by
      ext i
      simp [T.mem_in_iff]
    simp only [defaultWeight, hne, if_false, hin, ← Finset.sum_div, Finset.sum_boole, hf,
      card_filter_mem (T.out_nodup j), hout]
    exact div_self (Nat.cast_ne_zero.mpr hd.ne')

theorem eq_of_fixed (hsc : T.StronglyConnected) (x : Fin N → K)
    (hx : ∀ i, ∑ j, T.defaultWeight i j * x j = x i) (i j : Fin N) : x i = x j :=
  eq_of_forall_convex hsc T.defaultWeight_nonneg T.sum_defaultWeight
    (fun _ _ h => T.defaultWeight_pos h) hx i j

def mixingMatrix {d : ℕ} (hin : ∀ i, (T.inNbrs i).length = d)
    (hout : ∀ i, (T.outNbrs i).length = d) (hsc : T.StronglyConnected) : MixingMatrix K N where
  weight := T.defaultWeight
  nonneg := T.defaultWeight_nonneg
  row_sum := T.sum_defaultWeight
  col_sum := T.sum_defaultWeight_col hin hout
  fixed_const := T.eq_of_fixed hsc

/-- The default weights of a topology where every in- and out-degree is `d` and every
rank reaches every other form a mixing matrix. -/
theorem defaultWeight_mixing {d : ℕ} (hin : ∀ i, (T.inNbrs i).length = d)
    (hout : ∀ i, (T.outNbrs i).length = d) (hsc : T.StronglyConnected) :
    ∃ M : MixingMatrix K N, M.weight = T.defaultWeight :=
  ⟨T.mixingMatrix hin hout hsc, rfl⟩

theorem defaultWeight_mixing_dring3 :
    (∀ i, (dring3.inNbrs i).length = 2) ∧ (∀ i, (dring3.outNbrs i).length = 2) ∧
      dring3.StronglyConnected ∧ ∃ M : MixingMatrix ℚ 3, M.weight = dring3.defaultWeight :=
  have hin : ∀ i, (dring3.inNbrs i).length = 2 := by decide
  have hout : ∀ i, (dring3.outNbrs i).length = 2 := by decide
  ⟨hin, hout, dring3_stronglyConnected,
    defaultWeight_mixing dring3 hin hout dring3_stronglyConnected⟩

end Topology

end Bluefog
