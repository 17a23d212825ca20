import Mathlib

/-!
# Threads over a shared state

A pool is a shared state and a list of threads, each with a local state.  A
step is taken by one thread, which reads and writes the shared state and its
own; the others do not move.

* `Pool.stepAt`, `Pool.spawn` — a step of the thread at an index, and one more
  thread.
* `Pool.total` — a weight summed over the threads.  `Pool.total_set` says what
  the step of one thread does to it, so that a conservation law of one thread
  is one of the pool.
* `Pool.forall_set` — the rule for a property that every thread has.
-/

namespace Transition

/-- A shared state and the local states of the threads. -/
structure Pool (σ τ : Type) where
  /-- What all threads read and write. -/
  shared : σ
  /-- The threads, numbered in the order they were spawned. -/
  threads : List τ
  deriving DecidableEq, Repr

namespace Pool

variable {σ τ : Type} {p q : Pool σ τ} {i : Nat} {t t' : τ} {s' : σ}

/-- One step of the thread at `i`; `none` when there is no such thread or it
cannot step. -/
def stepAt (f : σ → τ → Option (σ × τ)) (p : Pool σ τ) (i : Nat) : Option (Pool σ τ) :=
  p.threads[i]?.bind fun t => (f p.shared t).map fun r => ⟨r.1, p.threads.set i r.2⟩

/-- One more thread. -/
def spawn (p : Pool σ τ) (t : τ) : Pool σ τ := { p with threads := p.threads ++ [t] }

@[simp] theorem spawn_shared : (p.spawn t).shared = p.shared := rfl

@[simp] theorem spawn_threads : (p.spawn t).threads = p.threads ++ [t] := rfl

/-- What a step is made of. -/
theorem stepAt_cases {f : σ → τ → Option (σ × τ)} (h : p.stepAt f i = some q) :
    ∃ t s' t', p.threads[i]? = some t ∧ f p.shared t = some (s', t') ∧
      q = ⟨s', p.threads.set i t'⟩ := by
  obtain ⟨t, ht, h⟩ := Option.bind_eq_some_iff.1 h
  obtain ⟨⟨s', t'⟩, hf, hq⟩ := Option.map_eq_some_iff.1 h
  exact ⟨t, s', t', ht, hf, hq.symm⟩

/-! ## Totals -/

/-- A weight, summed over the threads. -/
def total (w : τ → Nat) (p : Pool σ τ) : Nat := (p.threads.map w).sum

theorem total_spawn (w : τ → Nat) : (p.spawn t).total w = p.total w + w t := by
  simp [total]

theorem sum_map_set {ts : List τ} (w : τ → Nat) (h : ts[i]? = some t) :
    ((ts.set i t').map w).sum + w t = (ts.map w).sum + w t' := by
  induction ts generalizing i with
  | nil => cases h
  | cons u ts ih =>
      cases i with
      | zero =>
          obtain rfl : u = t := by simpa using h
          simp only [List.set_cons_zero, List.map_cons, List.sum_cons]
          omega
      | succ i =>
          have := ih (i := i) (by simpa using h)
          simp only [List.set_cons_succ, List.map_cons, List.sum_cons]
          omega

/-- The step of one thread moves the total as it moves that thread's weight. -/
theorem total_set (w : τ → Nat) (h : p.threads[i]? = some t) (s' : σ) (t' : τ) :
    total w ⟨s', p.threads.set i t'⟩ + w t = p.total w + w t' :=
  sum_map_set w h

theorem le_total (w : τ → Nat) (h : p.threads[i]? = some t) : w t ≤ p.total w :=
  List.single_le_sum (by simp) _ (List.mem_map_of_mem (List.mem_of_getElem? h))

theorem add_le_sum_map {ts : List τ} (w : τ → Nat) {j : Nat} {u : τ} (hi : ts[i]? = some t)
    (hj : ts[j]? = some u) (hlt : i < j) : w t + w u ≤ (ts.map w).sum := by
  induction ts generalizing i j with
  | nil => cases hi
  | cons v ts ih =>
      obtain ⟨j, rfl⟩ : ∃ k, j = k + 1 := ⟨j - 1, by omega⟩
      rw [List.getElem?_cons_succ] at hj
      rw [List.map_cons, List.sum_cons]
      cases i with
      | zero =>
          obtain rfl : v = t := by simpa using hi
          have hu : w u ≤ (ts.map w).sum :=
            List.single_le_sum (by simp) _ (List.mem_map_of_mem (List.mem_of_getElem? hj))
          omega
      | succ i =>
          have hrest := ih (i := i) (by simpa using hi) hj (by omega)
          omega

/-- Two threads' weights are part of the total. -/
theorem add_le_total (w : τ → Nat) {j : Nat} {u : τ} (hi : p.threads[i]? = some t)
    (hj : p.threads[j]? = some u) (hne : i ≠ j) : w t + w u ≤ p.total w := by
  rcases Nat.lt_or_gt_of_ne hne with hlt | hlt
  · exact add_le_sum_map w hi hj hlt
  · rw [Nat.add_comm]
    exact add_le_sum_map w hj hi hlt

theorem total_eq_zero {w : τ → Nat} : p.total w = 0 ↔ ∀ t ∈ p.threads, w t = 0 := by
  simp [total, List.sum_eq_zero_iff]

/-- A weight that is one for some threads and zero for the others counts them. -/
theorem total_eq_countP {w : τ → Nat} {P : τ → Prop} [DecidablePred P]
    (h : ∀ t, w t = if P t then 1 else 0) : p.total w = p.threads.countP (fun t => P t) := by
  rw [total]
  induction p.threads with
  | nil => rfl
  | cons t ts ih =>
      rw [List.map_cons, List.sum_cons, ih, h, List.countP_cons, Nat.add_comm]
      simp

/-- A positive total is some thread's weight. -/
theorem exists_of_total_pos {w : τ → Nat} (h : 0 < p.total w) :
    ∃ (i : Nat) (t : τ), p.threads[i]? = some t ∧ 0 < w t := by
  by_contra hall
  push Not at hall
  have hzero : p.total w = 0 := total_eq_zero.2 fun t ht => by
    obtain ⟨i, hi⟩ := List.mem_iff_getElem?.1 ht
    have := hall i t hi
    omega
  omega

/-! ## Properties of every thread -/

/-- What every thread has, one thread's step keeps for all, when that thread
keeps it for itself and does not spoil it for the others. -/
theorem forall_set {P Q : Nat → τ → Prop} (hall : ∀ j u, p.threads[j]? = some u → P j u)
    (h : p.threads[i]? = some t) (hself : P i t → Q i t')
    (hother : ∀ j u, j ≠ i → P j u → Q j u) :
    ∀ j u, (p.threads.set i t')[j]? = some u → Q j u := by
  intro j u hj
  rw [List.getElem?_set] at hj
  split at hj
  · next heq =>
      subst heq
      split at hj
      · cases hj
        exact hself (hall i t h)
      · cases hj
  · next hne => exact hother j u (Ne.symm hne) (hall j u hj)

/-- What every thread has and the new one too. -/
theorem forall_spawn {P : Nat → τ → Prop} (hall : ∀ j u, p.threads[j]? = some u → P j u)
    (hnew : P p.threads.length t) : ∀ j u, (p.spawn t).threads[j]? = some u → P j u := by
  intro j u hj
  rw [spawn_threads, List.getElem?_append] at hj
  split at hj
  · exact hall j u hj
  · next hge =>
      rw [List.getElem?_singleton] at hj
      split at hj
      · next hz =>
          cases hj
          obtain rfl : j = p.threads.length := by omega
          exact hnew
      · cases hj

end Pool

end Transition
