import Mathlib

/-!
# Transition systems with labelled, partial steps

A system is a start state and a step function that may refuse an action.  A
run is a list of actions, so a run can be evaluated, and a property of all
reachable states is proved by one induction, done here once.

* `System.runFrom`, `System.run` — follow a list of actions; `none` as soon as
  one of them is refused.
* `System.Reachable`, `System.ReachesFrom` — the states of runs.
* `System.invariant`, `System.invariantFrom` — **the invariant rule**: what
  holds at the start and is kept by each step holds of every state reached.
* `System.Meets` — every step of a run meets a condition on its state and
  action; `System.invariant_of_meets` is the invariant rule for such runs.
* `System.simulation` — **the simulation rule**: a system that follows each step
  by the event seen of it follows each run; `System.simulation_seen` — and what
  is seen of one is seen of the other.
* `System.countP_add_rank_le` — **the ranking rule**: steps that are paid from a
  rank are bounded by the rank and its refills.
* `System.Always` — a property of every state a run passes through, with
  `System.always_concat` unfolding it from the far end.
-/

namespace Transition

/-- A start state and a labelled step function; `none` refuses the action. -/
structure System (σ α : Type) where
  /-- The state every run starts in. -/
  init : σ
  /-- One step. -/
  step : σ → α → Option σ

namespace System

variable {σ α : Type} (S : System σ α)

/-! ## Runs -/

/-- Follow a list of actions from a state. -/
def runFrom (s : σ) : List α → Option σ
  | [] => some s
  | a :: as => (S.step s a).bind (fun t => runFrom t as)

/-- Follow a list of actions from the start state. -/
def run (as : List α) : Option σ := S.runFrom S.init as

/-- Some run leads from `s` to `t`. -/
def ReachesFrom (s t : σ) : Prop := ∃ as, S.runFrom s as = some t

/-- Some run leads from the start state to `t`. -/
def Reachable (t : σ) : Prop := S.ReachesFrom S.init t

@[simp] theorem runFrom_nil (s : σ) : S.runFrom s [] = some s := rfl

theorem runFrom_cons (s : σ) (a : α) (as : List α) :
    S.runFrom s (a :: as) = (S.step s a).bind (fun t => S.runFrom t as) := rfl

theorem runFrom_append (s : σ) (as bs : List α) :
    S.runFrom s (as ++ bs) = (S.runFrom s as).bind (fun t => S.runFrom t bs) := by
  induction as generalizing s with
  | nil => rfl
  | cons a as ih =>
      rw [List.cons_append, runFrom_cons, runFrom_cons]
      cases S.step s a with
      | none => rfl
      | some t => exact ih t

theorem runFrom_concat (s : σ) (as : List α) (a : α) :
    S.runFrom s (as ++ [a]) = (S.runFrom s as).bind (fun t => S.step t a) := by
  rw [runFrom_append]
  cases S.runFrom s as with
  | none => rfl
  | some t => cases h : S.step t a <;> simp [runFrom_cons, h]

theorem reachesFrom_refl (s : σ) : S.ReachesFrom s s := ⟨[], rfl⟩

theorem reachable_init : S.Reachable S.init := S.reachesFrom_refl S.init

variable {S}

theorem reachable_of_run {as : List α} {t : σ} (h : S.run as = some t) : S.Reachable t := ⟨as, h⟩

theorem ReachesFrom.trans {s t u : σ} (h : S.ReachesFrom s t) (h' : S.ReachesFrom t u) :
    S.ReachesFrom s u := by
  obtain ⟨as, ha⟩ := h
  obtain ⟨bs, hb⟩ := h'
  exact ⟨as ++ bs, by rw [runFrom_append, ha]; exact hb⟩

theorem Reachable.step {s t : σ} {a : α} (h : S.Reachable s) (hs : S.step s a = some t) :
    S.Reachable t :=
  h.trans ⟨[a], by rw [runFrom_cons, hs]; rfl⟩

/-! ## The invariant rule -/

/-- What holds of `s` and is kept by each step holds of all that `s` reaches. -/
theorem invariantFrom {P : σ → Prop} (hstep : ∀ s a t, P s → S.step s a = some t → P t)
    {s t : σ} (hs : P s) (h : S.ReachesFrom s t) : P t := by
  obtain ⟨as, h⟩ := h
  induction as generalizing s with
  | nil => cases h; exact hs
  | cons a as ih =>
      rw [runFrom_cons] at h
      obtain ⟨u, hu, hrest⟩ := Option.bind_eq_some_iff.1 h
      exact ih (hstep s a u hs hu) hrest

/-- **The invariant rule.**  What holds at the start and is kept by each step
holds of every reachable state. -/
theorem invariant {P : σ → Prop} (hinit : P S.init)
    (hstep : ∀ s a t, P s → S.step s a = some t → P t) {t : σ} (h : S.Reachable t) : P t :=
  invariantFrom hstep hinit h

/-- The invariant rule above an invariant that is already known. -/
theorem invariant_with {P Q : σ → Prop} (hQ : ∀ s, S.Reachable s → Q s) (hinit : P S.init)
    (hstep : ∀ s a t, Q s → Q t → P s → S.step s a = some t → P t) {t : σ}
    (h : S.Reachable t) : P t := by
  have key : S.Reachable t ∧ P t := by
    refine invariant (P := fun s => S.Reachable s ∧ P s) ⟨S.reachable_init, hinit⟩ ?_ h
    rintro s a u ⟨hr, hp⟩ hs
    exact ⟨hr.step hs, hstep s a u (hQ s hr) (hQ u (hr.step hs)) hp hs⟩
  exact key.2

/-! ## Runs whose steps meet a condition -/

/-- Every step of the run, up to the first one refused, meets the condition. -/
def Meets (S : System σ α) (ok : σ → α → Prop) (s : σ) : List α → Prop
  | [] => True
  | a :: as => ok s a ∧ ∀ t, S.step s a = some t → S.Meets ok t as

instance decidableMeets (ok : σ → α → Prop) [∀ s a, Decidable (ok s a)] :
    ∀ (s : σ) (as : List α), Decidable (S.Meets ok s as)
  | _, [] => isTrue trivial
  | s, a :: as =>
      match hs : S.step s a with
      | none => decidable_of_iff (ok s a) (by simp [Meets, hs])
      | some t =>
          have := decidableMeets ok t as
          decidable_of_iff (ok s a ∧ S.Meets ok t as) (by simp [Meets, hs])

@[simp] theorem meets_nil (ok : σ → α → Prop) (s : σ) : S.Meets ok s [] := trivial

theorem meets_cons {ok : σ → α → Prop} {s : σ} {a : α} {as : List α} :
    S.Meets ok s (a :: as) ↔ ok s a ∧ ∀ t, S.step s a = some t → S.Meets ok t as := Iff.rfl

/-- A run meets a condition when its beginning and its last step do. -/
theorem meets_concat {ok : σ → α → Prop} {s : σ} {as : List α} {a : α} :
    S.Meets ok s (as ++ [a]) ↔ S.Meets ok s as ∧ ∀ t, S.runFrom s as = some t → ok t a := by
  induction as generalizing s with
  | nil => simp [meets_cons]
  | cons b as ih =>
      rw [List.cons_append, meets_cons, meets_cons, runFrom_cons]
      constructor
      · rintro ⟨hb, hrest⟩
        refine ⟨⟨hb, fun t ht => (ih.1 (hrest t ht)).1⟩, ?_⟩
        intro t ht
        obtain ⟨u, hu, hrun⟩ := Option.bind_eq_some_iff.1 ht
        exact (ih.1 (hrest u hu)).2 t hrun
      · rintro ⟨⟨hb, hrest⟩, hlast⟩
        refine ⟨hb, fun t ht => ih.2 ⟨hrest t ht, fun u hu => hlast u ?_⟩⟩
        rw [ht]
        exact hu

/-- Conditions that agree on reachable states are met by the same runs. -/
theorem meets_congr {ok ok' : σ → α → Prop} (h : ∀ s a, S.Reachable s → (ok s a ↔ ok' s a))
    {s : σ} (as : List α) (hs : S.Reachable s) : S.Meets ok s as ↔ S.Meets ok' s as := by
  induction as generalizing s with
  | nil => exact Iff.rfl
  | cons a as ih =>
      rw [meets_cons, meets_cons, h s a hs]
      exact and_congr_right fun _ => forall_congr' fun t => imp_congr_right fun ht =>
        ih (hs.step ht)

/-- What all actions meet, wherever they happen, a run of them meets. -/
theorem meets_of_forall {ok : σ → α → Prop} {s : σ} {as : List α} (h : ∀ t, ∀ a ∈ as, ok t a) :
    S.Meets ok s as := by
  induction as generalizing s with
  | nil => trivial
  | cons a as ih =>
      exact ⟨h s a List.mem_cons_self, fun t _ => ih fun u b hb => h u b (List.mem_cons_of_mem a hb)⟩

/-- The beginning of a run that meets a condition meets it too. -/
theorem Meets.of_initial {ok : σ → α → Prop} {s : σ} {as bs : List α} (h : S.Meets ok s as)
    (hp : bs <+: as) : S.Meets ok s bs := by
  induction bs generalizing s as with
  | nil => trivial
  | cons b bs ih =>
      obtain ⟨cs, rfl⟩ := hp
      exact ⟨h.1, fun t ht => ih (h.2 t ht) (List.prefix_append bs cs)⟩

/-- **The invariant rule for runs that meet a condition.** -/
theorem invariant_of_meets {P : σ → Prop} {ok : σ → α → Prop}
    (hstep : ∀ s a t, P s → ok s a → S.step s a = some t → P t) {s t : σ} {as : List α}
    (hs : P s) (hok : S.Meets ok s as) (h : S.runFrom s as = some t) : P t := by
  induction as generalizing s with
  | nil => cases h; exact hs
  | cons a as ih =>
      rw [runFrom_cons] at h
      obtain ⟨u, hu, hrest⟩ := Option.bind_eq_some_iff.1 h
      exact ih (hstep s a u hs hok.1 hu) (hok.2 u hu) hrest

/-! ## Simulation -/

/-- What is seen of a run, if of each step one event is seen or none. -/
def seenFrom {β : Type} (S : System σ α) (see : σ → α → Option β) (s : σ) : List α → List β
  | [] => []
  | a :: as => (see s a).toList ++ (S.step s a).elim [] fun t => S.seenFrom see t as

theorem seenFrom_append {β : Type} {see : σ → α → Option β} {as bs : List α} {s t : σ}
    (h : S.runFrom s as = some t) :
    S.seenFrom see s (as ++ bs) = S.seenFrom see s as ++ S.seenFrom see t bs := by
  induction as generalizing s with
  | nil =>
      cases h
      rfl
  | cons a as ih =>
      rw [runFrom_cons] at h
      obtain ⟨u, hu, hrest⟩ := Option.bind_eq_some_iff.1 h
      rw [List.cons_append, seenFrom, seenFrom, hu, Option.elim_some, Option.elim_some, ih hrest,
        List.append_assoc]

/-- What is seen is seen of one of the actions. -/
theorem exists_of_mem_seenFrom {β : Type} {see : σ → α → Option β} {s : σ} {as : List α} {e : β}
    (h : e ∈ S.seenFrom see s as) : ∃ t, ∃ a ∈ as, see t a = some e := by
  induction as generalizing s with
  | nil => cases h
  | cons a as ih =>
      rw [seenFrom] at h
      rcases List.mem_append.1 h with hhead | htail
      · exact ⟨s, a, List.mem_cons_self, Option.mem_toList.1 hhead⟩
      · cases hstep : S.step s a with
        | none =>
            rw [hstep] at htail
            cases htail
        | some u =>
            rw [hstep] at htail
            obtain ⟨t, b, hb, hsee⟩ := ih htail
            exact ⟨t, b, List.mem_cons_of_mem a hb, hsee⟩

/-- **The simulation rule.**  If the other system follows each step by the event
that is seen of it, or stays where it is when none is seen, then it follows each
run. -/
theorem simulation {τ β : Type} {T : System τ β} {see : σ → α → Option β} {R : σ → τ → Prop}
    (hstep : ∀ s a s' t, R s t → S.step s a = some s' →
      ∃ t', T.runFrom t (see s a).toList = some t' ∧ R s' t')
    {as : List α} {s s' : σ} {t : τ} (hR : R s t) (h : S.runFrom s as = some s') :
    ∃ t', T.runFrom t (S.seenFrom see s as) = some t' ∧ R s' t' := by
  induction as generalizing s t with
  | nil =>
      cases h
      exact ⟨t, rfl, hR⟩
  | cons a as ih =>
      rw [runFrom_cons] at h
      obtain ⟨u, hu, hrest⟩ := Option.bind_eq_some_iff.1 h
      obtain ⟨v, hv, hRu⟩ := hstep s a u t hR hu
      obtain ⟨t', ht', hR'⟩ := ih hRu hrest
      refine ⟨t', ?_, hR'⟩
      rw [seenFrom, hu, runFrom_append, hv]
      exact ht'

/-- **What is seen in a simulation.**  If the other system also shows of each event
what the step shows, then it shows of the whole run what the run shows. -/
theorem simulation_seen {τ β γ : Type} {T : System τ β} {see : σ → α → Option β}
    {out : σ → α → Option γ} {out' : τ → β → Option γ} {R : σ → τ → Prop}
    (hstep : ∀ s a s' t, R s t → S.step s a = some s' →
      ∃ t', T.runFrom t (see s a).toList = some t' ∧ R s' t')
    (hout : ∀ s a s' t, R s t → S.step s a = some s' → out s a = (see s a).bind (out' t))
    {as : List α} {s s' : σ} {t : τ} (hR : R s t) (h : S.runFrom s as = some s') :
    S.seenFrom out s as = T.seenFrom out' t (S.seenFrom see s as) := by
  induction as generalizing s t with
  | nil => rfl
  | cons a as ih =>
      rw [runFrom_cons] at h
      obtain ⟨u, hu, hrest⟩ := Option.bind_eq_some_iff.1 h
      obtain ⟨v, hv, hRu⟩ := hstep s a u t hR hu
      have htail := ih hRu hrest
      rw [seenFrom, seenFrom, hu, Option.elim_some, Option.elim_some, hout s a u t hR hu, htail]
      cases hsee : see s a with
      | none =>
          rw [hsee] at hv
          cases hv
          rfl
      | some e =>
          rw [hsee, Option.toList_some, runFrom_cons] at hv
          obtain ⟨x, hx, hxv⟩ := Option.bind_eq_some_iff.1 hv
          cases hxv
          rw [Option.toList_some, List.singleton_append, seenFrom, hx]
          rfl

/-! ## Steps paid from a rank -/

/-- **The ranking rule.**  Let each step of a kind lower a rank, and let any
other step raise it by no more than its refill.  Then a run has no more steps
of that kind than the rank it starts with and its refills pay for. -/
theorem countP_add_rank_le (rank : σ → Nat) (kind : α → Bool) (refill : α → Nat)
    (hstep : ∀ s a t, S.step s a = some t →
      rank t + (if kind a then 1 else 0) ≤ rank s + refill a)
    {as : List α} {s t : σ} (h : S.runFrom s as = some t) :
    as.countP kind + rank t ≤ rank s + (as.map refill).sum := by
  induction as generalizing s with
  | nil => cases h; simp
  | cons a as ih =>
      rw [runFrom_cons] at h
      obtain ⟨u, hu, hrest⟩ := Option.bind_eq_some_iff.1 h
      have hhead := hstep s a u hu
      have htail := ih hrest
      rw [List.countP_cons, List.map_cons, List.sum_cons]
      omega

/-! ## Properties of every state on the way -/

/-- The property holds of every state the run passes through, the first and
the last included. -/
def Always (S : System σ α) (P : σ → Prop) (s : σ) (as : List α) : Prop :=
  ∀ bs, bs <+: as → ∀ t, S.runFrom s bs = some t → P t

@[simp] theorem always_nil {P : σ → Prop} {s : σ} : S.Always P s [] ↔ P s := by
  refine ⟨fun h => h [] (List.prefix_refl _) s rfl, fun h bs hbs t ht => ?_⟩
  obtain rfl := List.prefix_nil.1 hbs
  cases ht
  exact h

theorem always_cons {P : σ → Prop} {s : σ} {a : α} {as : List α} :
    S.Always P s (a :: as) ↔ P s ∧ ∀ t, S.step s a = some t → S.Always P t as := by
  constructor
  · intro h
    refine ⟨h [] List.nil_prefix s rfl, fun t ht bs hbs u hu => ?_⟩
    refine h (a :: bs) (List.cons_prefix_cons.2 ⟨rfl, hbs⟩) u ?_
    rw [runFrom_cons, ht]
    exact hu
  · rintro ⟨hs, hrest⟩ bs hbs u hu
    cases bs with
    | nil => cases hu; exact hs
    | cons b bs =>
        obtain ⟨rfl, hbs'⟩ := List.cons_prefix_cons.1 hbs
        rw [runFrom_cons] at hu
        obtain ⟨t, ht, hrun⟩ := Option.bind_eq_some_iff.1 hu
        exact hrest t ht bs hbs' u hrun

instance decidableAlways (P : σ → Prop) [DecidablePred P] :
    ∀ (s : σ) (as : List α), Decidable (S.Always P s as)
  | s, [] => decidable_of_iff (P s) always_nil.symm
  | s, a :: as =>
      match hs : S.step s a with
      | none => decidable_of_iff (P s) (by simp [always_cons, hs])
      | some t =>
          have := decidableAlways P t as
          decidable_of_iff (P s ∧ S.Always P t as) (by simp [always_cons, hs])

/-- Unfold `Always` from the far end of the run. -/
theorem always_concat {P : σ → Prop} {s : σ} {as : List α} {a : α} :
    S.Always P s (as ++ [a]) ↔
      S.Always P s as ∧ ∀ t, S.runFrom s (as ++ [a]) = some t → P t := by
  constructor
  · intro h
    exact ⟨fun bs hbs => h bs (hbs.trans (List.prefix_append as [a])),
      h (as ++ [a]) (List.prefix_refl _)⟩
  · rintro ⟨h, hlast⟩ bs hbs
    rcases List.prefix_concat_iff.1 hbs with rfl | hbs
    · exact hlast
    · exact h bs hbs

/-- A property of every state passed through is met by each step. -/
theorem Always.meets {P : σ → Prop} {s : σ} {as : List α} (h : S.Always P s as) :
    S.Meets (fun s _ => P s) s as := by
  induction as generalizing s with
  | nil => trivial
  | cons a as ih =>
      rw [always_cons] at h
      exact ⟨h.1, fun t ht => ih (h.2 t ht)⟩

/-- A property of every state passed through is one of the last. -/
theorem Always.last {P : σ → Prop} {s t : σ} {as : List α} (h : S.Always P s as)
    (ht : S.runFrom s as = some t) : P t :=
  h as (List.prefix_refl _) t ht

end System

end Transition
