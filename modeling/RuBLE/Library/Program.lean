import Mathlib

/-!
# Programs with state and exceptions

A program reads and writes a state and returns a value or throws.  What it has
written stays written when it throws, as in C++.

* `Program`, with `pure`, `>>=`, `throw`, `get`, `modify` — the programs.
* `Program.ThrowsOnly` — what a program can throw.
* `Program.Triple` — pre- and postconditions: what holds before, what holds
  after a return, and what holds after a throw.  `Triple.bind` composes them;
  `Triple.conseq` weakens them; `Triple.forM` is the rule of a loop over a list,
  and `Triple.repeatUntil` that of a loop that repeats a check.
* `Program.Outcome` — the same, where it matters what can be thrown and not what
  is left by then; `Outcome.foldlM` is the rule of a loop that accumulates.
-/

namespace Transition

/-- A program over the state `σ` that returns an `α` or throws an `ε`. -/
def Program (σ ε α : Type) : Type := σ → Except ε α × σ

namespace Program

variable {σ ε α β : Type}

/-- Run a program from a state. -/
def run (x : Program σ ε α) (s : σ) : Except ε α × σ := x s

instance : Monad (Program σ ε) where
  pure a := fun s => (.ok a, s)
  bind x f := fun s =>
    match x s with
    | (.ok a, t) => f a t
    | (.error e, t) => (.error e, t)

/-- Throw an exception. -/
def throw (e : ε) : Program σ ε α := fun s => (.error e, s)

/-- Read the state. -/
def get : Program σ ε σ := fun s => (.ok s, s)

/-- Change the state. -/
def modify (f : σ → σ) : Program σ ε Unit := fun s => (.ok (), f s)

/-- Change the state and return something. -/
def act (f : σ → α × σ) : Program σ ε α := fun s => (.ok (f s).1, (f s).2)

/-- The value an option holds, or an exception. -/
def orThrow (e : ε) : Option α → Program σ ε α
  | some a => pure a
  | none => throw e

/-- The value of a computation that does not look at the state, or its exception. -/
def ofExcept : Except ε α → Program σ ε α
  | .ok a => pure a
  | .error e => throw e

/-- Catch the exceptions that `h` turns into a value. -/
def catching (h : ε → Option α) (x : Program σ ε α) : Program σ ε α := fun s =>
  match x s with
  | (.ok a, t) => (.ok a, t)
  | (.error e, t) =>
      match h e with
      | some a => (.ok a, t)
      | none => (.error e, t)

/-- Run a program only if a condition holds. -/
def when (c : Prop) [Decidable c] (x : Program σ ε Unit) : Program σ ε Unit :=
  if c then x else pure ()

/-- Repeat a check, with a body in between, until it says that it is done; then
its value is returned.  `none` is returned if it is not done after `n` checks. -/
def repeatUntil (check : Program σ ε (β × Bool)) (body : Program σ ε Unit) :
    Nat → Program σ ε (Option β)
  | 0 => pure none
  | n + 1 => do
      let r ← check
      if r.2 then return some r.1
      else do
        body
        repeatUntil check body n

theorem run_pure (a : α) (s : σ) : (pure a : Program σ ε α).run s = (.ok a, s) := rfl

theorem run_throw (e : ε) (s : σ) : (throw e : Program σ ε α).run s = (.error e, s) := rfl

theorem run_act (f : σ → α × σ) (s : σ) :
    (act f : Program σ ε α).run s = (.ok (f s).1, (f s).2) := rfl

theorem run_modify (f : σ → σ) (s : σ) :
    (modify f : Program σ ε Unit).run s = (.ok (), f s) := rfl

theorem run_bind_ok {x : Program σ ε α} {f : α → Program σ ε β} {s t : σ} {a : α}
    (h : x.run s = (.ok a, t)) : (x >>= f).run s = (f a).run t := by
  show (match x s with | (.ok a, t) => f a t | (.error e, t) => (.error e, t)) = _
  rw [show x s = (.ok a, t) from h]
  rfl

theorem run_bind_error {x : Program σ ε α} {f : α → Program σ ε β} {s t : σ} {e : ε}
    (h : x.run s = (.error e, t)) : (x >>= f).run s = (.error e, t) := by
  show (match x s with | (.ok a, t) => f a t | (.error e, t) => (.error e, t)) = _
  rw [show x s = (.error e, t) from h]

theorem run_catching_ok {h : ε → Option α} {x : Program σ ε α} {s t : σ} {a : α}
    (hx : x.run s = (.ok a, t)) : (catching h x).run s = (.ok a, t) := by
  rw [run, catching, show x s = (.ok a, t) from hx]

theorem run_catching_error {h : ε → Option α} {x : Program σ ε α} {s t : σ} {e : ε}
    (hx : x.run s = (.error e, t)) :
    (catching h x).run s =
      match h e with
      | some a => (.ok a, t)
      | none => (.error e, t) := by
  rw [run, catching, show x s = (.error e, t) from hx]

/-- What a composition that returns is made of. -/
theorem run_bind_cases {x : Program σ ε α} {f : α → Program σ ε β} {s t : σ} {b : β}
    (h : (x >>= f).run s = (.ok b, t)) :
    ∃ a u, x.run s = (.ok a, u) ∧ (f a).run u = (.ok b, t) := by
  rcases hx : x.run s with ⟨r, u⟩
  cases r with
  | ok a => exact ⟨a, u, rfl, (run_bind_ok hx).symm.trans h⟩
  | error e =>
      rw [run_bind_error hx] at h
      cases h

theorem run_ext {x y : Program σ ε α} (h : ∀ s, x.run s = y.run s) : x = y := funext h

instance : LawfulMonad (Program σ ε) := by
  refine LawfulMonad.mk' _ ?_ ?_ ?_
  · intro α x
    refine run_ext fun s => ?_
    show (match x s with | (.ok a, t) => (.ok a, t) | (.error e, t) => (.error e, t)) = x s
    rcases x s with ⟨r, t⟩
    cases r <;> rfl
  · intro α β a f
    rfl
  · intro α β γ x f g
    refine run_ext fun s => ?_
    rcases hx : x.run s with ⟨r, t⟩
    cases r with
    | ok a =>
        rw [run_bind_ok hx]
        rcases hf : (f a).run t with ⟨r', t'⟩
        cases r' with
        | ok b => rw [run_bind_ok hf, run_bind_ok ((run_bind_ok hx).trans hf)]
        | error e => rw [run_bind_error hf, run_bind_error ((run_bind_ok hx).trans hf)]
    | error e => rw [run_bind_error hx, run_bind_error (run_bind_error hx)]

/-- What a bound on the checks has sufficed for, a larger one suffices for. -/
theorem run_repeatUntil_of_le {check : Program σ ε (β × Bool)} {body : Program σ ε Unit}
    {n m : Nat} {s t : σ} {b : β} (h : (repeatUntil check body n).run s = (.ok (some b), t))
    (hle : n ≤ m) : (repeatUntil check body m).run s = (.ok (some b), t) := by
  induction n generalizing m s with
  | zero => cases h
  | succ n ih =>
      obtain ⟨m, rfl⟩ := Nat.exists_eq_add_of_le' (Nat.lt_of_lt_of_le n.succ_pos hle)
      rw [repeatUntil] at h ⊢
      obtain ⟨r, u, hcheck, hrest⟩ := run_bind_cases h
      rw [run_bind_ok hcheck]
      by_cases hdone : r.2 = true
      · rwa [if_pos hdone] at hrest ⊢
      · rw [if_neg hdone] at hrest ⊢
        obtain ⟨v, w, hbody, hagain⟩ := run_bind_cases hrest
        rw [run_bind_ok hbody]
        exact ih hagain (Nat.le_of_succ_le_succ hle)

/-- Two loops whose rounds go alike return the same. -/
theorem run_repeatUntil_congr {τ : Type} {check : Program σ ε (β × Bool)}
    {body : Program σ ε Unit} {check' : Program τ ε (β × Bool)} {body' : Program τ ε Unit}
    {s : Nat → σ} {t : Nat → τ}
    (h : ∀ k, ∃ r s' t', check.run (s k) = (.ok r, s') ∧ body.run s' = (.ok (), s (k + 1)) ∧
      check'.run (t k) = (.ok r, t') ∧ body'.run t' = (.ok (), t (k + 1))) (n k : Nat) :
    ((repeatUntil check body n).run (s k)).1 = ((repeatUntil check' body' n).run (t k)).1 := by
  induction n generalizing k with
  | zero => rfl
  | succ n ih =>
      obtain ⟨r, s', t', hcheck, hbody, hcheck', hbody'⟩ := h k
      rw [repeatUntil, repeatUntil, run_bind_ok hcheck, run_bind_ok hcheck']
      by_cases hdone : r.2 = true
      · rw [if_pos hdone, if_pos hdone]
        rfl
      · rw [if_neg hdone, if_neg hdone, run_bind_ok hbody, run_bind_ok hbody']
        exact ih (k + 1)

/-! ## Exceptions -/

/-- All that the program can throw is of this kind. -/
def ThrowsOnly (φ : ε → Prop) (x : Program σ ε α) : Prop :=
  ∀ s t e, x.run s = (.error e, t) → φ e

namespace ThrowsOnly

variable {φ : ε → Prop} {x : Program σ ε α}

theorem pure (a : α) : ThrowsOnly φ (Pure.pure a : Program σ ε α) := by
  intro s t e h
  cases h

theorem get : ThrowsOnly φ (Program.get : Program σ ε σ) := by
  intro s t e h
  cases h

theorem act (f : σ → α × σ) : ThrowsOnly φ (Program.act f : Program σ ε α) := by
  intro s t e h
  cases h

theorem modify (f : σ → σ) : ThrowsOnly φ (Program.modify f : Program σ ε Unit) := by
  intro s t e h
  cases h

theorem throw {e : ε} (he : φ e) : ThrowsOnly φ (Program.throw e : Program σ ε α) := by
  intro s t e' h
  cases h
  exact he

theorem orThrow {e : ε} (o : Option α) (he : φ e) :
    ThrowsOnly φ (Program.orThrow e o : Program σ ε α) := by
  cases o with
  | none => exact throw he
  | some a => exact pure a

theorem bind {f : α → Program σ ε β} (hx : ThrowsOnly φ x) (hf : ∀ a, ThrowsOnly φ (f a)) :
    ThrowsOnly φ (x >>= f) := by
  intro s t e h
  rcases hr : x.run s with ⟨r, u⟩
  cases r with
  | ok a =>
      rw [run_bind_ok hr] at h
      exact hf a u t e h
  | error e' =>
      rw [run_bind_error hr] at h
      cases h
      exact hx s _ _ hr

theorem ite {c : Prop} [Decidable c] {y : Program σ ε α} (hx : ThrowsOnly φ x)
    (hy : ThrowsOnly φ y) : ThrowsOnly φ (if c then x else y) := by
  by_cases hc : c
  · rw [if_pos hc]
    exact hx
  · rw [if_neg hc]
    exact hy

theorem when {c : Prop} [Decidable c] {x : Program σ ε Unit} (hx : ThrowsOnly φ x) :
    ThrowsOnly φ (Program.when c x) :=
  ite hx (pure ())

end ThrowsOnly

/-! ## Pre- and postconditions -/

/-- Run from a state where `P` holds, the program leaves a state where `Q`
holds of what it returned, or where `E` holds of what it threw. -/
def Triple (P : σ → Prop) (x : Program σ ε α) (Q : α → σ → Prop) (E : σ → Prop) : Prop :=
  ∀ s, P s →
    match x.run s with
    | (.ok a, t) => Q a t
    | (.error _, t) => E t

namespace Triple

variable {P : σ → Prop} {x : Program σ ε α} {Q : α → σ → Prop} {E : σ → Prop}

/-- What holds however the program ends holds of the state it leaves. -/
theorem final {R : σ → Prop} (h : Triple P x (fun _ => R) R) {s : σ} (hs : P s) :
    R (x.run s).2 := by
  have := h s hs
  revert this
  rcases x.run s with ⟨r, t⟩
  cases r with
  | ok a => exact id
  | error e => exact id

/-- What a run leaves from each state of the precondition. -/
theorem of_final {R : σ → Prop} (h : ∀ s, P s → R (x.run s).2) : Triple P x (fun _ => R) R := by
  intro s hs
  have := h s hs
  revert this
  rcases x.run s with ⟨r, t⟩
  cases r with
  | ok a => exact id
  | error e => exact id

theorem of_ok (h : Triple P x Q E) {s t : σ} {a : α} (hs : P s) (hr : x.run s = (.ok a, t)) :
    Q a t := by
  have := h s hs
  rwa [hr] at this

theorem of_error (h : Triple P x Q E) {s t : σ} {e : ε} (hs : P s) (hr : x.run s = (.error e, t)) :
    E t := by
  have := h s hs
  rwa [hr] at this

theorem conseq {P' : σ → Prop} {Q' : α → σ → Prop} {E' : σ → Prop} (h : Triple P x Q E)
    (hp : ∀ s, P' s → P s) (hq : ∀ a s, Q a s → Q' a s) (he : ∀ s, E s → E' s) :
    Triple P' x Q' E' := by
  intro s hs
  have := h s (hp s hs)
  revert this
  rcases x.run s with ⟨r, t⟩
  cases r with
  | ok a => exact hq a t
  | error e => exact he t

theorem pure (a : α) (h : ∀ s, P s → Q a s) : Triple P (Pure.pure a : Program σ ε α) Q E :=
  fun s hs => h s hs

/-- A return that promises nothing of its value. -/
theorem skip (a : α) : Triple P (Pure.pure a : Program σ ε α) (fun _ => P) E :=
  Triple.pure a fun _ hs => hs

theorem throw (e : ε) (h : ∀ s, P s → E s) : Triple P (Program.throw e : Program σ ε α) Q E :=
  fun s hs => h s hs

theorem modify {f : σ → σ} {Q : Unit → σ → Prop} (h : ∀ s, P s → Q () (f s)) :
    Triple P (Program.modify f : Program σ ε Unit) Q E :=
  fun s hs => h s hs

theorem act {f : σ → α × σ} (h : ∀ s, P s → Q (f s).1 (f s).2) :
    Triple P (Program.act f : Program σ ε α) Q E :=
  fun s hs => h s hs

/-- **Composition.**  The middle assertion is what the first part leaves and the
second starts from; both may throw. -/
theorem bind {f : α → Program σ ε β} {R : α → σ → Prop} {Q : β → σ → Prop}
    (hx : Triple P x R E) (hf : ∀ a, Triple (R a) (f a) Q E) : Triple P (x >>= f) Q E := by
  intro s hs
  have hxs := hx s hs
  rcases hr : x.run s with ⟨r, t⟩
  rw [hr] at hxs
  cases r with
  | ok a =>
      rw [run_bind_ok hr]
      exact hf a t hxs
  | error e =>
      rw [run_bind_error hr]
      exact hxs

theorem ite {c : Prop} [Decidable c] {y : Program σ ε α} (hx : c → Triple P x Q E)
    (hy : ¬ c → Triple P y Q E) : Triple P (if c then x else y) Q E := by
  by_cases hc : c
  · rw [if_pos hc]
    exact hx hc
  · rw [if_neg hc]
    exact hy hc

theorem when {c : Prop} [Decidable c] {x : Program σ ε Unit} (hx : c → Triple P x (fun _ => P) E) :
    Triple P (Program.when c x) (fun _ => P) E :=
  ite hx fun _ => Triple.skip ()

/-- A conditional part that establishes something under its condition. -/
theorem when_of {c : Prop} [Decidable c] {x : Program σ ε Unit} {R : σ → Prop}
    (hx : c → Triple P x (fun _ => R) E) (hn : ¬ c → ∀ s, P s → R s) :
    Triple P (Program.when c x) (fun _ => R) E :=
  ite hx fun hc => Triple.pure () (hn hc)

/-- **The loop rule.**  What each round keeps, the loop keeps. -/
theorem forM {f : α → Program σ ε PUnit} (as : List α) (h : ∀ a ∈ as, Triple P (f a) (fun _ => P) E) :
    Triple P (as.forM f) (fun _ => P) E := by
  induction as with
  | nil => exact Triple.skip PUnit.unit
  | cons a as ih =>
      refine Triple.bind (h a List.mem_cons_self) fun _ => ?_
      exact ih fun b hb => h b (List.mem_cons_of_mem a hb)

/-- **The rule of a loop that repeats a check.**  The invariant says how many
checks there have been; a check that is done establishes the postcondition, and
any other leaves what the body makes the invariant of one more check of. -/
theorem repeatUntil {β : Type} {I J : Nat → σ → Prop} {Q : β → σ → Prop}
    {check : Program σ ε (β × Bool)} {body : Program σ ε Unit}
    (hcheck : ∀ k, Triple (I k) check (fun r s => if r.2 then Q r.1 s else J k s) E)
    (hbody : ∀ k, Triple (J k) body (fun _ => I (k + 1)) E) (n k : Nat) :
    Triple (I k) (Program.repeatUntil check body n)
      (fun r s => match r with
        | some b => Q b s
        | none => I (k + n) s) E := by
  induction n generalizing k with
  | zero => exact Triple.pure none fun _ hs => hs
  | succ n ih =>
      rw [Program.repeatUntil]
      refine Triple.bind (hcheck k) fun r => Triple.ite ?_ ?_
      · intro hdone
        refine Triple.pure (some r.1) fun s hs => ?_
        rwa [if_pos hdone] at hs
      · intro hdone
        simp only [if_neg hdone]
        refine Triple.bind (hbody k) fun _ => ?_
        rw [show k + (n + 1) = k + 1 + n by omega]
        exact ih (k + 1)

/-- An assumption of the precondition that does not mention the state. -/
theorem assume {φ : Prop} (h : φ → Triple P x Q E) : Triple (fun s => φ ∧ P s) x Q E :=
  fun s hs => h hs.1 s hs.2

end Triple

/-! ## Outcomes -/

/-- Run from a state where `P` holds, the program leaves a state where `Q` holds
of what it returned, or throws an exception of this kind. -/
def Outcome (P : σ → Prop) (x : Program σ ε α) (Q : α → σ → Prop) (φ : ε → Prop) : Prop :=
  ∀ s, P s →
    match x.run s with
    | (.ok a, t) => Q a t
    | (.error e, _) => φ e

namespace Outcome

variable {P : σ → Prop} {x : Program σ ε α} {Q : α → σ → Prop} {φ : ε → Prop}

theorem of_ok (h : Outcome P x Q φ) {s t : σ} {a : α} (hs : P s) (hr : x.run s = (.ok a, t)) :
    Q a t := by
  have := h s hs
  rwa [hr] at this

theorem of_error (h : Outcome P x Q φ) {s t : σ} {e : ε} (hs : P s) (hr : x.run s = (.error e, t)) :
    φ e := by
  have := h s hs
  rwa [hr] at this

theorem conseq {P' : σ → Prop} {Q' : α → σ → Prop} (h : Outcome P x Q φ) (hp : ∀ s, P' s → P s)
    (hq : ∀ a s, Q a s → Q' a s) : Outcome P' x Q' φ := by
  intro s hs
  have := h s (hp s hs)
  revert this
  rcases x.run s with ⟨r, t⟩
  cases r with
  | ok a => exact hq a t
  | error e => exact id

/-- Two promises about the same program. -/
theorem and {Q' : α → σ → Prop} {φ' : ε → Prop} (h : Outcome P x Q φ) (h' : Outcome P x Q' φ') :
    Outcome P x (fun a s => Q a s ∧ Q' a s) fun e => φ e ∧ φ' e := by
  intro s hs
  rcases hr : x.run s with ⟨r, t⟩
  cases r with
  | ok a => exact ⟨h.of_ok hs hr, h'.of_ok hs hr⟩
  | error e => exact ⟨h.of_error hs hr, h'.of_error hs hr⟩

theorem conseq_error {ψ : ε → Prop} (h : Outcome P x Q φ) (he : ∀ e, φ e → ψ e) : Outcome P x Q ψ := by
  intro s hs
  have := h s hs
  revert this
  rcases x.run s with ⟨r, t⟩
  cases r with
  | ok a => exact id
  | error e => exact he e

theorem pure (a : α) (h : ∀ s, P s → Q a s) : Outcome P (Pure.pure a : Program σ ε α) Q φ :=
  fun s hs => h s hs

theorem throw {e : ε} (he : φ e) : Outcome P (Program.throw e : Program σ ε α) Q φ :=
  fun _ _ => he

theorem get : Outcome P (Program.get : Program σ ε σ) (fun a s => a = s ∧ P s) φ :=
  fun _ hs => ⟨rfl, hs⟩

theorem modify {f : σ → σ} {Q : Unit → σ → Prop} (h : ∀ s, P s → Q () (f s)) :
    Outcome P (Program.modify f : Program σ ε Unit) Q φ :=
  fun s hs => h s hs

theorem bind {f : α → Program σ ε β} {R : α → σ → Prop} {Q : β → σ → Prop}
    (hx : Outcome P x R φ) (hf : ∀ a, Outcome (R a) (f a) Q φ) : Outcome P (x >>= f) Q φ := by
  intro s hs
  rcases hr : x.run s with ⟨r, t⟩
  cases r with
  | ok a =>
      rw [run_bind_ok hr]
      exact hf a t (hx.of_ok hs hr)
  | error e =>
      rw [run_bind_error hr]
      exact hx.of_error hs hr

/-- An assumption of the precondition that does not mention the state. -/
theorem assume {ψ : Prop} (h : ψ → Outcome P x Q φ) : Outcome (fun s => ψ ∧ P s) x Q φ :=
  fun s hs => h hs.1 s hs.2

/-- A precondition that says that there is something of which it holds. -/
theorem assume_exists {ι : Type} {χ : ι → Prop} {P : ι → σ → Prop}
    (h : ∀ i, χ i → Outcome (P i) x Q φ) : Outcome (fun s => ∃ i, χ i ∧ P i s) x Q φ := by
  rintro s ⟨i, hi, hs⟩
  exact h i hi s hs

/-- **The rule of a loop that accumulates.**  What each round keeps of the
accumulator and the state, the loop keeps. -/
theorem foldlM {I : β → σ → Prop} {f : β → α → Program σ ε β} (as : List α)
    (h : ∀ a ∈ as, ∀ b, Outcome (I b) (f b a) I φ) (b : β) : Outcome (I b) (as.foldlM f b) I φ := by
  induction as generalizing b with
  | nil => exact Outcome.pure b fun _ hs => hs
  | cons a as ih =>
      rw [List.foldlM_cons]
      refine Outcome.bind (h a List.mem_cons_self b) fun b' => ?_
      exact ih (fun a' ha' => h a' (List.mem_cons_of_mem a ha')) b'

theorem forM {f : α → Program σ ε PUnit} (as : List α)
    (h : ∀ a ∈ as, Outcome P (f a) (fun _ => P) φ) : Outcome P (as.forM f) (fun _ => P) φ := by
  induction as with
  | nil => exact Outcome.pure PUnit.unit fun _ hs => hs
  | cons a as ih =>
      refine Outcome.bind (h a List.mem_cons_self) fun _ => ?_
      exact ih fun b hb => h b (List.mem_cons_of_mem a hb)

end Outcome

end Program

end Transition
