import Bluefog.Engine.Collective

/-! # Windows

`win_create` gives every rank a buffer that other ranks accumulate into with
`win_accumulate`. A contribution is first in flight, then delivered into the
owner's window, and reaches the owner's buffer only at `win_sync_then_collect`.
The network delivers in-flight contributions in any order.

`total` adds up every owner's buffer and every contribution not yet collected.
Delivery and collection leave it unchanged; an accumulation adds exactly the
weighted copies it sends. Per owner, delivery leaves `pendingFor`, what the owner
has yet to collect, unchanged, so a collect after any deliveries adds exactly what
was pending for it. A ghost ledger of what is sent towards each owner and what each
owner collects shows that no contribution is lost, duplicated or collected by
another owner, whatever order the network delivers in.
-/

namespace Bluefog

variable {K : Type*} [LinearOrderedField K] {N : ℕ} {B : Type*}

theorem sum_update_eq {M : Type*} [AddCommGroup M] (f : Fin N → M) (i : Fin N) (b : M) :
    ∑ j, Function.update f i b j = ∑ j, f j - f i + b := by
  rw [Finset.sum_update_of_mem (Finset.mem_univ i),
    Finset.sum_eq_add_sum_diff_singleton (Finset.mem_univ i) f]
  abel

theorem sum_apply_update_eq {α M : Type*} [AddCommGroup M] (g : α → M) (f : Fin N → α)
    (i : Fin N) (b : α) :
    ∑ j, g (Function.update f i b j) = ∑ j, g (f j) - g (f i) + g b := by
  simp only [Function.apply_update (fun _ => g), sum_update_eq]

/-- Modelled from the spec: the state of one named window over `N` ranks. `self` is each
owner's buffer, the tensor registered by `win_create`; `delivered` holds the contributions
applied to the owner's window and not yet collected; `inflight` those sent and not yet
applied, with their destination. -/
@[ext] structure Window (N : ℕ) (B : Type*) where
  self : Fin N → B
  delivered : Fin N → List B
  inflight : List (Fin N × B)

namespace Window

/-- Modelled from the spec: `win_create(w, zero_init=True)`; nothing is pending. -/
def create (w : Fin N → B) : Window N B := ⟨w, fun _ => [], []⟩

@[simp] theorem create_self (w : Fin N → B) : (create w).self = w := rfl
@[simp] theorem create_delivered (w : Fin N → B) (i : Fin N) : (create w).delivered i = [] := rfl
@[simp] theorem create_inflight (w : Fin N → B) : (create w).inflight = [] := rfl

def setSelf (s : Window N B) (i : Fin N) (b : B) : Window N B :=
  { s with self := Function.update s.self i b }

@[simp] theorem setSelf_self (s : Window N B) (i : Fin N) (b : B) :
    (s.setSelf i b).self = Function.update s.self i b := rfl
@[simp] theorem setSelf_delivered (s : Window N B) (i : Fin N) (b : B) :
    (s.setSelf i b).delivered = s.delivered := rfl
@[simp] theorem setSelf_inflight (s : Window N B) (i : Fin N) (b : B) :
    (s.setSelf i b).inflight = s.inflight := rfl

/-- Modelled from the spec: the network applies the `k`-th contribution in flight
to its destination's window. -/
def deliver (s : Window N B) (k : ℕ) : Window N B :=
  match s.inflight[k]? with
  | some (dst, c) =>
    { s with
      inflight := s.inflight.eraseIdx k
      delivered := Function.update s.delivered dst (s.delivered dst ++ [c]) }
  | none => s

@[simp] theorem deliver_self (s : Window N B) (k : ℕ) : (s.deliver k).self = s.self := by
  unfold deliver
  split <;> rfl

@[simp] theorem foldl_deliver_self (s : Window N B) (ks : List ℕ) :
    (ks.foldl deliver s).self = s.self := by
  induction ks generalizing s with
  | nil => rfl
  | cons k ks ih => rw [List.foldl_cons, ih, deliver_self]

theorem length_inflight_deliver_zero (s : Window N B) :
    (s.deliver 0).inflight.length = s.inflight.length - 1 := by
  unfold deliver
  split
  · simp
  · next h =>
    rw [List.getElem?_eq_none_iff] at h
    omega

theorem perm_eraseIdx {l : List (Fin N × B)} {k : ℕ} {m : Fin N × B} (h : l[k]? = some m) :
    l.Perm (m :: l.eraseIdx k) := by
  obtain ⟨hk, rfl⟩ := List.getElem?_eq_some_iff.mp h
  conv_lhs => rw [← List.take_append_drop k l, List.drop_eq_getElem_cons hk]
  rw [List.eraseIdx_eq_take_drop_succ]
  exact List.perm_middle

structure Pending (P : B → Prop) (s : Window N B) : Prop where
  delivered : ∀ i, ∀ c ∈ s.delivered i, P c
  inflight : ∀ m ∈ s.inflight, P m.2

theorem pending_create (P : B → Prop) (w : Fin N → B) : (create w).Pending P :=
  ⟨fun _ _ h => (nomatch h), fun _ h => (nomatch h)⟩

theorem Pending.setSelf {P : B → Prop} {s : Window N B} (h : s.Pending P) (i : Fin N) (b : B) :
    (s.setSelf i b).Pending P :=
  ⟨h.delivered, h.inflight⟩

theorem Pending.deliver {P : B → Prop} {s : Window N B} (h : s.Pending P) (k : ℕ) :
    (s.deliver k).Pending P := by
  unfold Window.deliver
  split
  · next dst c hk =>
    refine ⟨fun j c' hc' => ?_, fun m hm => h.inflight m (List.mem_of_mem_eraseIdx hm)⟩
    rcases eq_or_ne j dst with rfl | hj
    · simp only [Function.update_same, List.mem_append, List.mem_singleton] at hc'
      rcases hc' with hc' | rfl
      · exact h.delivered j c' hc'
      · exact h.inflight _ (List.getElem?_mem hk)
    · simp only [Function.update_noteq hj] at hc'
      exact h.delivered j c' hc'
  · exact h

section Accumulate

variable [AddCommGroup B] [Module K B] (s : Window N B)

/-- Modelled from the spec: `win_accumulate(w, dst_weights)` sends `weight • w`
to every destination of `dst_weights` and returns without waiting. -/
def winAccumulate (s : Window N B) (w : B) (dstWeights : List (Fin N × K)) : Window N B :=
  { s with inflight := s.inflight ++ dstWeights.map fun p => (p.1, p.2 • w) }

@[simp] theorem winAccumulate_self (w : B) (dw : List (Fin N × K)) :
    (s.winAccumulate w dw).self = s.self := rfl
@[simp] theorem winAccumulate_delivered (w : B) (dw : List (Fin N × K)) :
    (s.winAccumulate w dw).delivered = s.delivered := rfl
@[simp] theorem winAccumulate_inflight (w : B) (dw : List (Fin N × K)) :
    (s.winAccumulate w dw).inflight = s.inflight ++ dw.map fun p => (p.1, p.2 • w) := rfl

/-- Modelled from the spec: `win_sync_then_collect` adds every contribution
delivered to the owner's window into its buffer and clears them. -/
def winSyncThenCollect (s : Window N B) (i : Fin N) : Window N B :=
  { s with
    self := Function.update s.self i (s.self i + (s.delivered i).sum)
    delivered := Function.update s.delivered i [] }

@[simp] theorem winSyncThenCollect_self (i : Fin N) :
    (s.winSyncThenCollect i).self = Function.update s.self i (s.self i + (s.delivered i).sum) :=
  rfl
@[simp] theorem winSyncThenCollect_delivered (i : Fin N) :
    (s.winSyncThenCollect i).delivered = Function.update s.delivered i [] := rfl
@[simp] theorem winSyncThenCollect_inflight (i : Fin N) :
    (s.winSyncThenCollect i).inflight = s.inflight := rfl

/-- Every owner's buffer and every contribution not yet collected. -/
def total (s : Window N B) : B :=
  ∑ i, s.self i + ∑ i, (s.delivered i).sum + (s.inflight.map Prod.snd).sum

@[simp] theorem total_create (w : Fin N → B) : (create w).total = ∑ i, w i := by
  simp [total]

theorem total_of_quiescent (h₁ : s.inflight = []) (h₂ : ∀ i, s.delivered i = []) :
    s.total = ∑ i, s.self i := by
  simp [total, h₁, h₂]

theorem total_setSelf (i : Fin N) (b : B) :
    (s.setSelf i b).total = s.total - s.self i + b := by
  simp only [total, setSelf_self, setSelf_delivered, setSelf_inflight, sum_update_eq]
  abel

theorem total_winAccumulate (w : B) (dw : List (Fin N × K)) :
    (s.winAccumulate w dw).total = s.total + (dw.map fun p => p.2 • w).sum := by
  simp [total, add_assoc, Function.comp_def]

theorem total_deliver (k : ℕ) : (s.deliver k).total = s.total := by
  unfold deliver
  split
  · next dst c h =>
    have hp := ((perm_eraseIdx h).map Prod.snd).sum_eq
    simp only [List.map_cons, List.sum_cons] at hp
    simp only [total, hp, sum_apply_update_eq List.sum, List.sum_append, List.sum_singleton]
    abel
  · rfl

theorem total_winSyncThenCollect (i : Fin N) : (s.winSyncThenCollect i).total = s.total := by
  simp only [total, winSyncThenCollect_self, winSyncThenCollect_delivered,
    winSyncThenCollect_inflight, sum_update_eq, sum_apply_update_eq List.sum, List.sum_nil]
  abel

/-- What owner `i` has yet to collect: the contributions delivered to its window
and those in flight to it. -/
def pendingFor (s : Window N B) (i : Fin N) : B :=
  (s.delivered i).sum + ((s.inflight.filter (·.1 = i)).map Prod.snd).sum

theorem pendingFor_deliver (k : ℕ) (j : Fin N) : (s.deliver k).pendingFor j = s.pendingFor j := by
  unfold deliver
  split
  · next dst c h =>
    have hp := (((perm_eraseIdx h).filter (·.1 = j)).map Prod.snd).sum_eq
    rcases eq_or_ne j dst with rfl | hj
    · simp only [List.filter_cons, decide_True, if_true, List.map_cons, List.sum_cons] at hp
      simp only [pendingFor, hp, Function.update_same, List.sum_append, List.sum_singleton]
      abel
    · simp only [List.filter_cons, hj.symm, decide_False, Bool.false_eq_true, if_false] at hp
      simp only [pendingFor, hp, Function.update_noteq hj]
  · rfl

@[simp] theorem pendingFor_setSelf (i j : Fin N) (b : B) :
    (s.setSelf i b).pendingFor j = s.pendingFor j := rfl

theorem pendingFor_winAccumulate (w : B) (dw : List (Fin N × K)) (j : Fin N) :
    (s.winAccumulate w dw).pendingFor j =
      s.pendingFor j + (((dw.filter (·.1 = j)).map fun p => p.2 • w)).sum := by
  simp [pendingFor, List.filter_append, List.filter_map, Function.comp_def, add_assoc]

theorem pendingFor_foldl_deliver (ks : List ℕ) (j : Fin N) :
    (ks.foldl deliver s).pendingFor j = s.pendingFor j := by
  induction ks generalizing s with
  | nil => rfl
  | cons k ks ih => rw [List.foldl_cons, ih, pendingFor_deliver]

/-- After any deliveries that leave nothing in flight to `i`, collecting adds to the
owner's buffer exactly what was pending for it, whatever order the network chose. -/
theorem winSyncThenCollect_after_deliver (ks : List ℕ) (i : Fin N)
    (h : ∀ m ∈ (ks.foldl deliver s).inflight, m.1 ≠ i) :
    ((ks.foldl deliver s).winSyncThenCollect i).self i = s.self i + s.pendingFor i := by
  have hf : (ks.foldl deliver s).inflight.filter (·.1 = i) = [] :=
    List.filter_eq_nil_iff.mpr fun m hm => by simpa using h m hm
  have hp := pendingFor_foldl_deliver s ks i
  rw [pendingFor, hf, List.map_nil, List.sum_nil, add_zero] at hp
  rw [winSyncThenCollect_self, Function.update_same, foldl_deliver_self, hp]

theorem winSyncThenCollect_after_deliver_scenario :
    let s := (create fun _ : Fin 2 => (0 : ℚ)).winAccumulate 5 ([(1, 1)] : List (Fin 2 × ℚ))
    (∀ m ∈ ([0].foldl deliver s).inflight, m.1 ≠ 1) ∧
      (([0].foldl deliver s).winSyncThenCollect 1).self 1 = s.self 1 + s.pendingFor 1 :=
  have h : ∀ m ∈ ([0].foldl deliver
      ((create fun _ : Fin 2 => (0 : ℚ)).winAccumulate 5 ([(1, 1)] : List (Fin 2 × ℚ)))).inflight,
      m.1 ≠ 1 := by
    decide
  ⟨h, winSyncThenCollect_after_deliver _ [0] 1 h⟩

example : (((create fun _ : Fin 2 => (0 : ℚ)).winAccumulate 5
    ([(1, 1)] : List (Fin 2 × ℚ))).deliver 0 |>.winSyncThenCollect 1).self 1 = 5 := by
  simp [deliver, winAccumulate, winSyncThenCollect, create]

variable {s} {P : B → Prop}

theorem Pending.winAccumulate (h : s.Pending P) {w : B} {dw : List (Fin N × K)}
    (hw : ∀ p ∈ dw, P (p.2 • w)) : (s.winAccumulate w dw).Pending P := by
  refine ⟨h.delivered, fun m hm => ?_⟩
  rcases List.mem_append.mp hm with hm | hm
  · exact h.inflight m hm
  · obtain ⟨p, hp, rfl⟩ := List.mem_map.mp hm
    exact hw p hp

theorem Pending.winSyncThenCollect (h : s.Pending P) (i : Fin N) :
    (s.winSyncThenCollect i).Pending P := by
  refine ⟨fun j c hc => ?_, h.inflight⟩
  rcases eq_or_ne j i with rfl | hj
  · simp at hc
  · rw [Window.winSyncThenCollect_delivered, Function.update_noteq hj] at hc
    exact h.delivered j c hc

end Accumulate

section Ledger

def inflightTo (s : Window N B) (j : Fin N) : List B :=
  (s.inflight.filter (·.1 = j)).map Prod.snd

@[simp] theorem inflightTo_create (w : Fin N → B) (j : Fin N) : (create w).inflightTo j = [] := rfl

@[simp] theorem inflightTo_setSelf (s : Window N B) (i j : Fin N) (b : B) :
    (s.setSelf i b).inflightTo j = s.inflightTo j := rfl

/-- A ghost record of a window's traffic: the contributions `sent` towards each owner, in
sending order, and those each owner has `collected` into its buffer. -/
structure Ledger (N : ℕ) (B : Type*) where
  sent : Fin N → List B
  collected : Fin N → List B

namespace Ledger

def empty : Ledger N B := ⟨fun _ => [], fun _ => []⟩

def send (l : Ledger N B) (ms : List (Fin N × B)) : Ledger N B :=
  { l with sent := fun j => l.sent j ++ (ms.filter (·.1 = j)).map Prod.snd }

def take (l : Ledger N B) (i : Fin N) (cs : List B) : Ledger N B :=
  { l with collected := Function.update l.collected i (l.collected i ++ cs) }

/-- Every contribution sent towards `j` is, exactly once, collected by `j`, delivered
to `j`'s window or in flight to `j`. -/
def Accounts (l : Ledger N B) (s : Window N B) : Prop :=
  ∀ j, (l.sent j).Perm (l.collected j ++ s.delivered j ++ s.inflightTo j)

variable {l : Ledger N B} {s : Window N B}

theorem accounts_empty_create (w : Fin N → B) : (empty : Ledger N B).Accounts (create w) :=
  fun _ => .nil

theorem Accounts.setSelf (h : l.Accounts s) (i : Fin N) (b : B) : l.Accounts (s.setSelf i b) := h

theorem Accounts.deliver (h : l.Accounts s) (k : ℕ) : l.Accounts (s.deliver k) := by
  unfold Window.deliver
  split
  · next dst c hk =>
    intro j
    have hp := ((perm_eraseIdx hk).filter (·.1 = j)).map Prod.snd
    refine (h j).trans ?_
    rcases eq_or_ne j dst with rfl | hj
    · simp only [List.filter_cons, decide_True, if_true, List.map_cons] at hp
      simpa only [inflightTo, Function.update_same, List.append_assoc, List.singleton_append]
        using (hp.append_left (s.delivered j)).append_left (l.collected j)
    · simp only [List.filter_cons, hj.symm, decide_False, Bool.false_eq_true, if_false] at hp
      simpa only [inflightTo, Function.update_noteq hj, List.append_assoc]
        using (hp.append_left (s.delivered j)).append_left (l.collected j)
  · exact h

variable [AddCommGroup B]

theorem Accounts.winSyncThenCollect (h : l.Accounts s) (i : Fin N) :
    (l.take i (s.delivered i)).Accounts (s.winSyncThenCollect i) := by
  intro j
  rcases eq_or_ne j i with rfl | hj
  · simpa [take, inflightTo] using h j
  · simpa [take, inflightTo, hj] using h j

theorem Accounts.winAccumulate [Module K B] (h : l.Accounts s) (w : B) (dw : List (Fin N × K)) :
    (l.send (dw.map fun p => (p.1, p.2 • w))).Accounts (s.winAccumulate w dw) := by
  intro j
  simpa only [send, inflightTo, winAccumulate_inflight, winAccumulate_delivered, List.filter_append,
    List.map_append, ← List.append_assoc] using (h j).append_right _

end Ledger

end Ledger

end Window

end Bluefog
