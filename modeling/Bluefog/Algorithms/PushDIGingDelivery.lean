import Bluefog.Algorithms.PushDIGingSync

/-! # Exactly-once delivery in Push-DIGing

A ghost ledger, kept beside a run, records the contributions each push hands to the
network and the contributions each collect adds to its owner's buffer. Under every
interleaving, on every topology, what was sent towards a rank is, as a multiset, what
it has collected and what is still pending for it: no contribution is lost,
duplicated or added to another rank's buffer.

The script ends with `bf.barrier()` and one more `win_sync_then_collect` at every
rank. Once the network has delivered what is in flight, these final collects leave
nothing pending, and every contribution sent during the whole run has then been
collected exactly once, by its destination.
-/

namespace Bluefog.PushDIGing

open Window (Ledger)

variable {K : Type*} [LinearOrderedField K] {N n : ℕ} (cfg : Config N n K)

/-- The contributions rank `i`'s push hands to the network: `weight • w` for each key
of `dst_weights`, with `w` the stepped buffer. -/
def pushed (s : State N n K) (i : Fin N) : List (Fin N × WBuff n K) :=
  (dstWeights (cfg.out i) : List (Fin N × K)).map fun p => (p.1, p.2 • uStep cfg (s.win.self i))

def record (s : State N n K) (l : Ledger N (WBuff n K)) : Action N → Ledger N (WBuff n K)
  | .push i => l.send (pushed cfg s i)
  | .deliver _ => l
  | .collect i => l.take i (s.win.delivered i)
  | .finalCollect i => l.take i (s.win.delivered i)

/-- The ledger after the actions of a schedule, kept beside `run`. -/
def ledger (s : State N n K) (l : Ledger N (WBuff n K)) : List (Action N) → Ledger N (WBuff n K)
  | [] => l
  | a :: as => ledger (step cfg s a) (record cfg s l a) as

variable {cfg}

theorem accounts_step {s : State N n K} {l : Ledger N (WBuff n K)} (h : l.Accounts s.win) :
    ∀ a, (record cfg s l a).Accounts (step cfg s a).win
  | .push _ => ((h.setSelf _ _).winAccumulate _ _).setSelf _ _
  | .deliver k => h.deliver k
  | .collect i => (h.winSyncThenCollect i).setSelf _ _
  | .finalCollect i => h.winSyncThenCollect i

theorem accounts_ledger {s : State N n K} {l : Ledger N (WBuff n K)} (h : l.Accounts s.win)
    (as : List (Action N)) : (ledger cfg s l as).Accounts (run cfg s as).win := by
  induction as generalizing s l with
  | nil => exact h
  | cons a as ih => exact ih (accounts_step h a)

/-- Push-DIGing under any schedule from the script's start, on every topology: the
contributions sent towards rank `j` are, as a multiset, those `j` has collected,
those delivered to its window and those in flight to it. -/
theorem push_diging_exactly_once (cfg : Config N n K) (as : List (Action N)) (j : Fin N) :
    let s := run cfg (init cfg) as
    let l := ledger cfg (init cfg) .empty as
    (l.sent j).Perm (l.collected j ++ s.win.delivered j ++ s.win.inflightTo j) :=
  accounts_ledger (Ledger.accounts_empty_create _) as j

variable (cfg)

theorem run_finalCollects_delivered (rs : List (Fin N)) (s : State N n K) (j : Fin N) :
    (run cfg s (rs.map .finalCollect)).win.delivered j =
      if j ∈ rs then [] else s.win.delivered j := by
  induction rs generalizing s with
  | nil => simp
  | cons r rs ih =>
    rw [List.map_cons, run_cons, step, ih]
    by_cases hj : j ∈ rs
    · simp [hj]
    · rcases eq_or_ne j r with rfl | h <;> simp [finalCollect, hj, *]

theorem run_finalCollects_inflight (rs : List (Fin N)) (s : State N n K) :
    (run cfg s (rs.map .finalCollect)).win.inflight = s.win.inflight := by
  induction rs generalizing s with
  | nil => rfl
  | cons r rs ih => exact ih _

/-- The script's ending after any schedule of the loop: the network delivers what is
in flight, then every rank calls `win_sync_then_collect` once more. Nothing is left
pending, and every contribution sent towards a rank during the whole run has been
collected by that rank exactly once. -/
theorem push_diging_drain (as : List (Action N)) {m : ℕ}
    (hm : (run cfg (init cfg) as).win.inflight.length ≤ m) :
    let bs := as ++ List.replicate m (.deliver 0) ++ (List.finRange N).map .finalCollect
    let s := run cfg (init cfg) bs
    let l := ledger cfg (init cfg) .empty bs
    s.win.inflight = [] ∧ (∀ j, s.win.delivered j = []) ∧ ∀ j, (l.sent j).Perm (l.collected j) := by
  intro bs s l
  have hacc : l.Accounts s.win := accounts_ledger (Ledger.accounts_empty_create _) bs
  obtain ⟨-, -, -, hlen⟩ := run_deliveries cfg m (run cfg (init cfg) as)
  have hinf : (run cfg (init cfg) (as ++ List.replicate m (.deliver 0))).win.inflight = [] := by
    rw [run_append]
    exact List.eq_nil_of_length_eq_zero (by omega)
  have hdel (j : Fin N) : s.win.delivered j = [] := by
    simp only [s, bs, run_append _ _ (as ++ _), run_finalCollects_delivered, List.mem_finRange,
      if_true]
  have hinf' : s.win.inflight = [] := by
    simp only [s, bs, run_append _ _ (as ++ _), run_finalCollects_inflight, hinf]
  refine ⟨hinf', hdel, fun j => ?_⟩
  simpa [Window.inflightTo, hdel j, hinf'] using hacc j

theorem push_diging_drain_ring :
    (run ringConfig (init ringConfig) [.push 0, .push 1]).win.inflight.length ≤ 2 ∧
      let bs := [.push 0, .push 1] ++ List.replicate 2 (.deliver 0) ++
        (List.finRange 2).map .finalCollect
      let s := run ringConfig (init ringConfig) bs
      let l := ledger ringConfig (init ringConfig) .empty bs
      s.win.inflight = [] ∧ (∀ j, s.win.delivered j = []) ∧ ∀ j, (l.sent j).Perm (l.collected j) :=
  have hm : (run ringConfig (init ringConfig) [.push 0, .push 1]).win.inflight.length ≤ 2 := by
    decide
  ⟨hm, push_diging_drain ringConfig _ hm⟩

end Bluefog.PushDIGing
