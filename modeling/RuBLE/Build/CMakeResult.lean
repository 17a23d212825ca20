import Mathlib
import RuBLE.Build.CMakeInput
import RuBLE.Build.CMakeRounds

/-!
# What flattening returns

Flattening returns one entry for each path at which a leaf is visible, and it returns
unless it is stuck.

* `Stands` — a hash in the middle of it all stands for one of the hashes before.
* `cmakeFlattenHash_yields` — **the run**, by induction on its depth.
* `flattens_completely_iff` — **no leaf is lost** if and only if all are visible.
* `flattening_ends_iff` — **flattening ends** if and only if it is nowhere stuck.
-/

namespace RuBLE.CMake

open Transition Graph

/-! ## Later rounds -/

section Rounds

variable {inspect : RHeap → RValue → String} {flatten : HashId → Build Entries} {heap : RHeap}
  {hash : HashId} {S : Set HashId} {left final : Entries} {φ : BuildError → Prop}

/-- Only arrays are left, as they are when the first round has ended. -/
structure Entries.Arrays (left : Entries) : Prop where
  strings : ∀ e ∈ left, ∃ text, e.1 = .string text
  flat : left.Flat
  arrays : ∀ e ∈ left, e.2.isArray = true

/-- Keys and values are as they should be already. -/
theorem Entries.Transformed.mem_iff {left' : Entries} (h : left.Transformed inspect left')
    (hleft : left.Arrays) (e : Key × RValue) : e ∈ left' ↔ e ∈ left := by
  obtain ⟨hashes, rfl⟩ := h
  have hkey : ∀ e ∈ left, (.string e.1.toS : Key) = e.1 := by
    intro e he
    obtain ⟨text, htext⟩ := hleft.strings e he
    rw [htext]
    rfl
  have hkeys : ∀ path u, (path, u) ∈ left.withStringKeys ↔ (path, u) ∈ left := by
    intro path u
    rw [Entries.withStringKeys, OrderedHash.mem_transformKeys]
    · constructor
      · rintro ⟨k, hk, rfl⟩
        rw [hkey _ hk]
        exact hk
      · exact fun hu => ⟨path, hu, hkey _ hu⟩
    · intro e he d hd heq
      rwa [hkey e he, hkey d hd] at heq
  obtain ⟨path, u⟩ := e
  rw [OrderedHash.mem_mapValues]
  constructor
  · rintro ⟨v, hv, rfl⟩
    rw [hkeys] at hv
    rwa [stringify_of_flat (hleft.flat _ hv)]
  · exact fun hu => ⟨u, (hkeys path u).2 hu, stringify_of_flat (hleft.flat _ hu)⟩

theorem flattenHashes_none (hnone : ∀ e ∈ left, e.2.isHash = false) :
    Program.Outcome (Works heap hash S left) (flattenHashes inspect flatten hash)
      (fun _ => Works heap hash S left) φ := by
  have hempty : left.keysWhere RValue.isHash = [] := by
    refine List.eq_nil_iff_forall_not_mem.2 fun k hk => ?_
    obtain ⟨v, hv, hhash⟩ := OrderedHash.mem_keysWhere.1 hk
    rw [hnone _ hv] at hhash
    cases hhash
  refine flattenHashes_of_forM ?_
  rw [hempty]
  exact Program.Outcome.pure _ fun s hs => hs

/-- **A later round** moves the arrays whose keys are new, and leaves the others. -/
theorem flattenRound_arrays (hleft : left.Arrays) :
    Program.Outcome (Works heap hash S left) (flattenRound inspect flatten hash final)
      (fun final' s => ∃ left' : Entries,
        ((∀ e, e ∈ final' ↔ e ∈ final ∨ e ∈ left ∧ final.hasKey e.1 = false) ∧
          ∀ e, e ∈ left' ↔ e ∈ left ∧ final.hasKey e.1 = true) ∧ Works heap hash S left' s) φ := by
  refine Program.Outcome.bind transformEntries_works fun _ => ?_
  apply Program.Outcome.assume_exists
  intro left₁ htransformed
  have hmem₁ := htransformed.mem_iff hleft
  refine Program.Outcome.bind moveArrays_works fun final₁ => ?_
  apply Program.Outcome.assume_exists
  intro left₂ hmoved
  have hmem₂ : ∀ e, e ∈ left₂ ↔ e ∈ left ∧ final.hasKey e.1 = true := by
    intro e
    rw [hmoved.mem_left, hmem₁]
    exact and_congr_right fun he => by simp [hleft.arrays e he]
  have hflat₂ : left₂.Flat := fun e he => hleft.flat e ((hmem₂ e).1 he).1
  have harray₂ : ∀ e ∈ left₂, e.2.isArray = true := fun e he => hleft.arrays e ((hmem₂ e).1 he).1
  refine Program.Outcome.bind (rejectUnrecognized_works fun e he => .inl (hflat₂ e he)) fun _ => ?_
  refine Program.Outcome.bind (flattenHashes_none fun e he =>
    RValue.isHash_of_isArray (harray₂ e he)) fun _ => ?_
  refine moveCompleted_works.conseq (fun _ hs => hs) ?_
  rintro final₂ s ⟨left₃, hmoved', hs⟩
  have hnone : ∀ e ∈ left₂, e.2.isCompleted = false := by
    intro e he
    rw [isCompleted_of_flat (hflat₂ e he), harray₂ e he]
    rfl
  refine ⟨left₃, ⟨fun e => ?_, fun e => ?_⟩, hs⟩
  · rw [hmoved'.mem_final, hmoved.mem_final, hmem₁]
    constructor
    · rintro ((he | ⟨he, -, hnew⟩) | ⟨he, hcompleted, -⟩)
      · exact .inl he
      · exact .inr ⟨he, hnew⟩
      · rw [hnone e he] at hcompleted
        cases hcompleted
    · rintro (he | ⟨he, hnew⟩)
      · exact .inl (.inl he)
      · exact .inl (.inr ⟨he, hleft.arrays e he, hnew⟩)
  · rw [hmoved'.mem_left, ← hmem₂]
    exact ⟨fun he => he.1, fun he => ⟨he, .inl (hnone e he)⟩⟩

/-- **The loop after its first round**: one more round moves everything, or no round
ever does.  By induction on the rounds. -/
theorem flattenUntilEmpty_arrays (hleft : left.Arrays) (n : Nat) :
    Program.Outcome (Works heap hash S left) (flattenUntilEmpty inspect flatten hash n final)
      (fun r _ => (∀ e, e ∈ r ↔ e ∈ final ∨ e ∈ left) ∧ ∀ e ∈ left, final.hasKey e.1 = false)
      (fun e => e = .outOfFuel ∧
        (n = 0 ∨ left ≠ ∅ ∧ n < 2 ∨ ∃ e ∈ left, final.hasKey e.1 = true)) := by
  induction n generalizing left final with
  | zero => exact Program.Outcome.throw ⟨rfl, .inl rfl⟩
  | succ n ih =>
      refine Program.Outcome.bind hashAt_works fun h => Program.Outcome.assume ?_
      rintro rfl
      by_cases hempty : left.isEmpty = true
      · simp only [hempty, if_true]
        rw [OrderedHash.isEmpty_iff.1 hempty]
        exact Program.Outcome.pure final fun s _ => ⟨by simp, by simp⟩
      · simp only [hempty, Bool.false_eq_true, if_false]
        have hne : left ≠ ∅ := fun heq => hempty (OrderedHash.isEmpty_iff.2 heq)
        refine Program.Outcome.bind (flattenRound_arrays hleft) fun final₁ => ?_
        apply Program.Outcome.assume_exists
        rintro left₁ ⟨hfinal₁, hleft₁⟩
        have harrays₁ : left₁.Arrays := ⟨fun e he => hleft.strings e ((hleft₁ e).1 he).1,
          fun e he => hleft.flat e ((hleft₁ e).1 he).1, fun e he => hleft.arrays e ((hleft₁ e).1 he).1⟩
        -- what stays has a key that is taken, and keeps staying
        have htaken : ∀ e ∈ left₁, final₁.hasKey e.1 = true := by
          intro e he
          obtain ⟨v, hv⟩ := OrderedHash.hasKey_iff.1 ((hleft₁ e).1 he).2
          exact OrderedHash.hasKey_iff.2 ⟨v, (hfinal₁ _).2 (.inl hv)⟩
        refine ((ih harrays₁).conseq (fun _ hs => hs) ?_).conseq_error ?_
        · rintro r s ⟨hmem, hnew⟩
          have hnone : ∀ e ∈ left, final.hasKey e.1 = false := by
            intro e he
            by_contra hkey
            rw [Bool.not_eq_false] at hkey
            have hin := (hleft₁ e).2 ⟨he, hkey⟩
            have hfree := hnew e hin
            rw [htaken e hin] at hfree
            cases hfree
          refine ⟨fun e => ?_, hnone⟩
          rw [hmem, hfinal₁, hleft₁]
          constructor
          · rintro ((he | ⟨he, -⟩) | ⟨he, -⟩)
            · exact .inl he
            · exact .inr he
            · exact .inr he
          · rintro (he | he)
            · exact .inl (.inl he)
            · exact .inl (.inr ⟨he, hnone e he⟩)
        · rintro e ⟨rfl, hcause⟩
          refine ⟨rfl, .inr ?_⟩
          by_cases hstay : ∃ e ∈ left, final.hasKey e.1 = true
          · exact .inr hstay
          · have hgone : ∀ e, e ∉ left₁ := fun e he => hstay ⟨e, (hleft₁ e).1 he⟩
            rcases hcause with rfl | ⟨hne₁, -⟩ | ⟨e, he, -⟩
            · exact .inl ⟨hne, by omega⟩
            · exact absurd (OrderedHash.ext (List.eq_nil_iff_forall_not_mem.2 hgone)) hne₁
            · exact absurd he (hgone e)

end Rounds

/-! ## The run -/

open Classical in
/-- One hash stands for another: the same entries are found in it, and of the hashes
nested there those in a set have been flattened. -/
structure Stands (heap : RHeap) (S : Set HashId) (b c : HashId) (hashes : RHeap) : Prop where
  length_le : heap.length ≤ hashes.length
  work : ∃ C, hashes[c]? = some C ∧ C.entries.withStringKeys = found heap S b
  others : ∀ y, Visits heap b y → ∀ x ∈ reach (Visits heap) y, ∀ X, heap[x]? = some X →
    x ≠ c ∧ hashes[x]? = some (if x ∈ S then X.consumed else X)

/-- How a run may fail: the bound is too small for the depth, or the hash is stuck. -/
def RunsOut (heap : RHeap) (S : Set HashId) (b : HashId) (n : Nat) (e : BuildError) : Prop :=
  e = .outOfFuel ∧ ∀ d, HeightLt (Visits heap) d b → d + 2 ≤ n → Jams heap S b

/-- What is returned, and when. -/
def Yields (inspect : RHeap → RValue → String) (heap : RHeap) (n : Nat)
    (flatten : HashId → Build Entries) : Prop :=
  ∀ S b c, Acceptable heap b → Closed (Visits heap) S →
    Program.Outcome (fun s => Stands heap S b c s.hashes ∧ Acceptable s.hashes c) (flatten c)
      (fun r _ => Result inspect heap S b r ∧ ¬ Jams heap S b) (RunsOut heap S b n)

section Run

variable {inspect : RHeap → RValue → String} {flatten : HashId → Build Entries} {heap hashes : RHeap}
  {hash b c : HashId} {S T : Set HashId} {left final : Entries} {k : Key} {n : Nat}
  {kids rest : List (Key × HashId)}

/-- A hash stands for itself before anything has been flattened. -/
theorem stands_self (hacc : Acceptable heap b) : Stands heap ∅ b b heap where
  length_le := le_rfl
  work := by
    obtain ⟨B, hB, -⟩ := hacc.accepted b self_mem_reach
    exact ⟨B, hB, (found_empty hB).symm⟩
  others y hy x hx X hX := by
    refine ⟨?_, by rw [hX, if_neg (Set.notMem_empty x)]⟩
    rintro rfl
    exact hacc.acyclic.not_mem_reach hy hx

/-- A copy stands for what the original stands for. -/
theorem Stands.copy (h : Stands heap S b c hashes) {C : RHash} (hC : hashes[c]? = some C) :
    Stands heap S b hashes.length (hashes.withCopy C) where
  length_le := h.length_le.trans (by simp)
  work := by
    obtain ⟨C', hC', hwork⟩ := h.work
    rw [hC] at hC'
    cases hC'
    exact ⟨_, getElem?_copy, hwork⟩
  others y hy x hx X hX := by
    obtain ⟨-, hother⟩ := h.others y hy x hx X hX
    refine ⟨?_, getElem?_withCopy hother⟩
    rintro rfl
    simp at hother

theorem dupIfFrozen_stands {φ : BuildError → Prop} :
    Program.Outcome (fun s => Stands heap S b c s.hashes ∧ Acceptable s.hashes c) (dupIfFrozen c)
      (fun c' s => (Stands heap S b c' s.hashes ∧ Acceptable s.hashes c') ∧
        ∃ entries, s.hashes[c']? = some { entries := entries }) φ := by
  rintro s ⟨hstands, hacc'⟩
  obtain ⟨C, hC, -⟩ := hstands.work
  rw [dupIfFrozen_run hC]
  cases hfrozen : C.frozen with
  | false =>
      refine ⟨⟨hstands, hacc'⟩, C.entries, ?_⟩
      cases C
      cases hfrozen
      exact hC
  | true => exact ⟨⟨hstands.copy hC, hacc'.copy hC⟩, C.entries, getElem?_copy⟩

/-- Flattening may first copy what is frozen. -/
theorem Yields.dupIfFrozen
    (h : ∀ S b c, Acceptable heap b → Closed (Visits heap) S →
      Program.Outcome (fun s => (Stands heap S b c s.hashes ∧ Acceptable s.hashes c) ∧
          ∃ entries, s.hashes[c]? = some { entries := entries }) (flatten c)
        (fun r _ => Result inspect heap S b r ∧ ¬ Jams heap S b) (RunsOut heap S b n)) :
    Yields inspect heap n fun c => RuBLE.CMake.dupIfFrozen c >>= flatten :=
  fun S b _ hacc hS => Program.Outcome.bind dupIfFrozen_stands fun c' => h S b c' hacc hS

open Classical in
/-- What is nested in a hash stands for itself when others have been flattened. -/
theorem Stands.nested {s : BuildState} {U : Set HashId} (h : Stands heap S b c hashes)
    (hacc : Acceptable heap b) (hw : Works hashes c T left s) (hU : S ∪ T = U) {y : HashId}
    (hy : Visits heap b y) : Stands heap U y y s.hashes := by
  have hothers : ∀ x ∈ reach (Visits heap) y, ∀ X, heap[x]? = some X →
      s.hashes[x]? = some (if x ∈ U then X.consumed else X) := by
    intro x hx X hX
    have hmem : x ∈ U ↔ x ∈ S ∨ x ∈ T := by
      rw [← hU]
      rfl
    obtain ⟨hne, hother⟩ := h.others y hy x hx X hX
    rw [hw.others x _ hne hother]
    by_cases hxS : x ∈ S <;> by_cases hxT : x ∈ T <;>
      simp [hmem, hxS, hxT, RHash.consumed_consumed]
  have hnested := hacc.of_visits hy
  obtain ⟨Y, hY, -⟩ := hnested.accepted y self_mem_reach
  refine ⟨h.length_le.trans hw.length_le, ⟨_, hothers y self_mem_reach Y hY, (found_eq hY).symm⟩, ?_⟩
  intro z hz x hx X hX
  refine ⟨?_, hothers x (reach_of_edge hz hx) X hX⟩
  rintro rfl
  exact hnested.acyclic.not_mem_reach hz hx

theorem Stands.visits (h : Stands heap S b c hashes) {y : HashId} (hk : (k, .hash y) ∈ found heap S b) :
    Visits hashes c y := by
  obtain ⟨C, hC, hwork⟩ := h.work
  exact ⟨C, hC, k, hwork ▸ hk⟩

/-- Of the nested hashes none is stuck. -/
def Free (heap : RHeap) (S : Set HashId) (kids : List (Key × HashId)) : Prop :=
  ∀ before k b after, kids = before ++ (k, b) :: after → ¬ Jams heap (flattened heap S before) b

theorem Free.append (h : Free heap S kids) (hb : ¬ Jams heap (flattened heap S kids) b) :
    Free heap S (kids ++ [(k, b)]) := by
  intro before k₁ b₁ after hsplit
  rcases append_singleton_eq_iff.1 hsplit with ⟨rfl, rfl, heq⟩ | ⟨after', rfl, rfl⟩
  · cases heq
    exact hb
  · exact h before k₁ b₁ after' rfl

/-- What stops a nested hash stops the hash. -/
theorem RunsOut.of_nested {e : BuildError} (hsplit : (found heap S b).nested = kids ++ (k, c) :: rest)
    (h : RunsOut heap (flattened heap S kids) c n e) : RunsOut heap S b (n + 1) e := by
  refine ⟨h.1, fun d hd hn => ?_⟩
  cases d with
  | zero => exact hd.elim
  | succ d => exact .nested hsplit (h.2 d (hd c (visits_of_nested hsplit)) (by omega))

/-- **The nested hashes are replaced**, one after the other.  By induction on those that
are still to come. -/
theorem flattenNested_forM_yields (hyields : Yields inspect heap n flatten) (hflatten : Flattens flatten)
    (hacc : Acceptable heap b) (hS : Closed (Visits heap) S) (hstands : Stands heap S b c hashes)
    (hacc' : Acceptable hashes c) (hsplit : (found heap S b).nested = kids ++ rest)
    (hfolded : Folded inspect heap S b kids rest left) (hT : Closed (Visits hashes) T)
    (hunion : S ∪ T = flattened heap S kids) (hfree : Free heap S kids) :
    Program.Outcome (Works hashes c T left) ((rest.map (·.1)).forM (flattenNested inspect flatten c))
      (fun _ s => ∃ left', (Folded inspect heap S b (found heap S b).nested [] left' ∧
        Free heap S (found heap S b).nested) ∧ ∃ T', Works hashes c T' left' s)
      (RunsOut heap S b (n + 1)) := by
  induction rest generalizing kids left T with
  | nil =>
      rw [List.append_nil] at hsplit
      rw [hsplit]
      exact Program.Outcome.pure _ fun s hs => ⟨left, ⟨hfolded, hfree⟩, T, hs⟩
  | cons e rest ih =>
      obtain ⟨k, y⟩ := e
      have hk : (k, y) ∈ (found heap S b).nested := by simp [hsplit]
      have hvisits := visits_of_nested hsplit
      have hvisits' := hstands.visits (mem_nested.1 hk)
      have hyields' : Yields inspect heap n fun c => dupIfFrozen c >>= flatten :=
        Yields.dupIfFrozen fun S b c hacc hS => (hyields S b c hacc hS).conseq (fun _ hs => hs.1)
          fun _ _ hs => hs
      have hresult : Program.Outcome (Works hashes c T (left.delete k)) (dupIfFrozen y >>= flatten)
          (fun r _ => Result inspect heap (flattened heap S kids) y r ∧
            ¬ Jams heap (flattened heap S kids) y) (RunsOut heap (flattened heap S kids) y n) :=
        (hyields' (flattened heap S kids) y y (hacc.of_visits hvisits) (closed_flattened hS)).conseq
          (fun s hs => ⟨hstands.nested hacc hs hunion hvisits, (hs.nested hacc' hT hvisits').1⟩)
          fun _ _ hs => hs
      have hworks := hresult.and (flatten_works (Flattens.dupIfFrozen fun heap hash _ hacc _ _ =>
        hflatten heap hash hacc) hacc' hT hvisits')
      refine Program.Outcome.bind (flattenNested_works (hfolded.kept k y List.mem_cons_self)
        ((hworks.conseq (fun _ hs => hs) fun _ _ hs => ⟨hs.1, hs.2.2⟩).conseq_error
          fun _ he => he.1.of_nested hsplit)) fun _ => ?_
      apply Program.Outcome.assume_exists
      rintro r ⟨hr, hjams⟩
      have hnodup : (((k, y) :: rest).map (·.1)).Nodup := by
        have hnodup : ((found heap S b).nested.map (·.1)).Nodup := nodup_nested
        rw [hsplit, List.map_append, List.nodup_append] at hnodup
        exact hnodup.2.1
      have hreach := ((hacc.of_visits hvisits).of_consumed hS
        fun x hx X hX => (hstands.others y hvisits x hx X hX).2).2.2
      refine ih (by rw [hsplit, List.append_cons]) (hfolded.step hnodup hr) (hT.union closed_reach) ?_
        (hfree.append hjams)
      rw [flattened_append, ← hunion, Set.union_right_comm, ← hreach, ← Set.union_assoc,
        Set.union_right_comm]

/-- **The first round.** -/
theorem flattenRound_yields (hyields : Yields inspect heap n flatten) (hflatten : Flattens flatten)
    (hacc : Acceptable heap b) (hS : Closed (Visits heap) S) (hstands : Stands heap S b c hashes)
    (hacc' : Acceptable hashes c) (hleft : left.withStringKeys = found heap S b) :
    Program.Outcome (Works hashes c ∅ left) (flattenRound inspect flatten c ∅)
      (fun final' s => ∃ left', ((∃ hs final left₃, Ended inspect heap S b hs final left₃ final' left') ∧
        Free heap S (found heap S b).nested) ∧ ∃ T', Works hashes c T' left' s)
      (RunsOut heap S b (n + 1)) := by
  have haccepted : ∀ e ∈ left.withStringKeys, e.2.isAccepted = true := by
    rintro ⟨k, v⟩ he
    obtain ⟨B, hB, hall⟩ := hacc.accepted b self_mem_reach
    obtain ⟨B', hB', hmem, -⟩ := exists_of_mem_found (hleft ▸ he)
    rw [hB] at hB'
    cases hB'
    exact hall _ hmem
  refine Program.Outcome.bind transformEntries_works fun _ => ?_
  apply Program.Outcome.assume_exists
  intro left₁ htransformed
  have hready := htransformed.ready haccepted
  obtain ⟨hs, hleft₁⟩ := htransformed
  rw [hleft] at hleft₁
  refine Program.Outcome.bind moveArrays_works fun final => ?_
  apply Program.Outcome.assume_exists
  intro left₂ hmoved
  have hfinal : final.Flat := hmoved.flat (fun e he => absurd he OrderedHash.not_mem_empty)
    fun e he harray => flat_of_ready (hready e he) (RValue.isHash_of_isArray harray)
  have harrays : ∀ path u, (path, u) ∈ final ↔
      ∃ v, (path, v) ∈ found heap S b ∧ v.isArray = true ∧ stringify inspect hs v = u := by
    intro path u
    rw [hmoved.mem_final, hleft₁, OrderedHash.mem_mapValues]
    constructor
    · rintro (hu | ⟨⟨v, hv, rfl⟩, harray, -⟩)
      · exact absurd hu OrderedHash.not_mem_empty
      · exact ⟨v, hv, by simpa using harray, rfl⟩
    · rintro ⟨v, hv, harray, rfl⟩
      exact .inr ⟨⟨v, hv, rfl⟩, by simpa using harray, rfl⟩
  have hnested : left₂.nested = (found heap S b).nested := by
    rw [hmoved.left_eq, nested_select fun _ _ _ => rfl, hleft₁]
    exact nested_mapValues fun _ => stringify_hashId?
  have hkeys : left₂.keysWhere RValue.isHash = (found heap S b).nested.map (·.1) := by
    rw [keysWhere_isHash, hnested]
  refine Program.Outcome.bind (rejectUnrecognized_works (hmoved.ready hready)) fun _ => ?_
  have hloop := flattenNested_forM_yields hyields hflatten hacc hS hstands hacc'
    (List.nil_append _).symm (folded_nil hleft₁ hready hmoved) closed_empty (by simp)
    (fun _ _ _ _ h => by simp at h)
  rw [← hkeys] at hloop
  refine Program.Outcome.bind (flattenHashes_of_forM hloop) fun _ => ?_
  apply Program.Outcome.assume_exists
  rintro left₃ ⟨hfolded, hfree⟩
  rintro s ⟨T', hworks⟩
  refine (moveCompleted_works.conseq (fun _ hs => hs) ?_) s hworks
  rintro final' t ⟨left', hmoved', ht⟩
  exact ⟨left', ⟨⟨hs, final, left₃, hfolded, harrays, hfinal, hmoved'⟩, hfree⟩, T', ht⟩

theorem Ended.arrays_left {final' left' : Entries}
    (h : Ended inspect heap S b hashes final left final' left') : left'.Arrays where
  strings := by
    rintro ⟨path, u⟩ hu
    exact h.folded.strings _ (h.mem_left'.1 hu).1
  flat := by
    rintro ⟨path, u⟩ hu
    exact h.left_flat _ (h.mem_left'.1 hu).1
  arrays := by
    rintro ⟨path, u⟩ hu
    exact (h.mem_left'.1 hu).2

/-- In an empty hash there is nothing to flatten. -/
theorem result_empty (h : found heap S b = ∅) : Result inspect heap S b ∅ ∧ ¬ Jams heap S b := by
  have hnested : (found heap S b).nested = [] := by
    rw [h]
    rfl
  have hvisible : ∀ path v, ¬ Visible heap S b path v := by
    intro path v hv
    rcases hv.cases with ⟨hv, -⟩ | hv
    · exact OrderedHash.not_mem_empty (h ▸ hv)
    · exact not_below_nil (hnested ▸ hv)
  refine ⟨⟨by simp [Entries.Flat], by simp, by simp, fun path v hv => ?_, fun path v hv => ?_⟩,
    not_jams_of_nested hnested⟩
  · exact absurd hv.visible (hvisible path v)
  · exact absurd hv (hvisible path v)

/-- Only a duplicate, or a bound that is too small, keeps the loop from ending. -/
theorem Ended.jams {final' left' : Entries}
    (h : Ended inspect heap S b hashes final left final' left')
    {e : Key × RValue} (he : e ∈ left') (hkey : final'.hasKey e.1 = true) : Jams heap S b := by
  obtain ⟨u', hu'⟩ := OrderedHash.hasKey_iff.1 hkey
  obtain ⟨path, v, w, hv, harray, hfirst, hw⟩ := h.duplicate_iff.1 ⟨e.1, e.2, u', he, hu'⟩
  exact .here hv harray hfirst hw

theorem Ended.not_jams {final' left' : Entries}
    (h : Ended inspect heap S b hashes final left final' left')
    (hfree : Free heap S (found heap S b).nested)
    (hnone : ∀ path u u', (path, u) ∈ left' → (path, u') ∉ final') : ¬ Jams heap S b := by
  intro hjams
  cases hjams with
  | here hv harray hfirst hw =>
      obtain ⟨path, u, u', hu, hu'⟩ := h.duplicate_iff.2 ⟨_, _, _, hv, harray, hfirst, hw⟩
      exact hnone path u u' hu hu'
  | nested hsplit hjams => exact hfree _ _ _ _ hsplit hjams

/-- **The loop.** -/
theorem flattenUntilEmpty_yields (hyields : Yields inspect heap n flatten) (hflatten : Flattens flatten)
    (hacc : Acceptable heap b) (hS : Closed (Visits heap) S) (hstands : Stands heap S b c hashes)
    (hacc' : Acceptable hashes c) (hleft : left.withStringKeys = found heap S b) :
    Program.Outcome (Works hashes c ∅ left) (flattenUntilEmpty inspect flatten c (n + 1) ∅)
      (fun r _ => Result inspect heap S b r ∧ ¬ Jams heap S b) (RunsOut heap S b (n + 1)) := by
  refine Program.Outcome.bind hashAt_works fun h => Program.Outcome.assume ?_
  rintro rfl
  by_cases hempty : left.isEmpty = true
  · simp only [hempty, if_true]
    rw [OrderedHash.isEmpty_iff.1 hempty, withStringKeys_empty] at hleft
    exact Program.Outcome.pure _ fun _ _ => result_empty hleft.symm
  · simp only [hempty, Bool.false_eq_true, if_false]
    refine Program.Outcome.bind (flattenRound_yields hyields hflatten hacc hS hstands hacc' hleft)
      fun final' => ?_
    apply Program.Outcome.assume_exists
    rintro left' ⟨⟨hs, final, left₃, hended⟩, hfree⟩
    rintro s ⟨T, hworks⟩
    refine (((flattenUntilEmpty_arrays hended.arrays_left n).conseq (fun _ hs => hs) ?_).conseq_error ?_)
      s hworks
    · rintro r t ⟨hmem, hnew⟩
      have hnone : ∀ path u u', (path, u) ∈ left' → (path, u') ∉ final' := fun path u u' hu =>
        OrderedHash.hasKey_eq_false_iff.1 (hnew _ hu) u'
      exact ⟨hended.result hnone hmem, hended.not_jams hfree hnone⟩
    · rintro e ⟨rfl, hcause⟩
      refine ⟨rfl, fun d hd hn => ?_⟩
      have hpos : d ≠ 0 := by
        rintro rfl
        exact hd.elim
      rcases hcause with hzero | ⟨-, hlt⟩ | ⟨e, he, hkey⟩
      · omega
      · omega
      · exact hended.jams he hkey

/-- **The run**, by induction on the depth it may reach. -/
theorem cmakeFlattenHash_yields (inspect : RHeap → RValue → String) (heap : RHeap) (n : Nat) :
    Yields inspect heap n (cmakeFlattenHash inspect n) := by
  induction n with
  | zero => exact fun _ _ _ _ _ => Program.Outcome.throw ⟨rfl, fun d _ hd => by omega⟩
  | succ n ih =>
      refine Yields.dupIfFrozen fun S b c hacc hS => ?_
      rintro s ⟨⟨hstands, hacc'⟩, left, hwork⟩
      have hleft : left.withStringKeys = found heap S b := by
        obtain ⟨C, hC, heq⟩ := hstands.work
        rw [hwork] at hC
        cases hC
        exact heq
      have hflatten := cmakeFlattenHash_consumes inspect n
      exact flattenUntilEmpty_yields ih hflatten hacc hS hstands hacc' hleft s
        ⟨le_rfl, hwork, fun x X _ hX => by rw [if_neg (Set.notMem_empty x), hX]⟩

end Run

/-! ## Completeness and termination -/

/-- The entries are the leaves: one for each, under its joined path. -/
structure Complete (inspect : RHeap → RValue → String) (heap : RHeap) (data : HashId) (r : Entries) :
    Prop where
  sound : ∀ e ∈ r, ∃ ks v, LeafAt heap data ks v ∧ e.1 = joined ks ∧ Normalised inspect v e.2
  complete : ∀ ks v, LeafAt heap data ks v → ∃ u, (joined ks, u) ∈ r ∧ Normalised inspect v u

section Main

variable {inspect : RHeap → RValue → String} {heap : RHeap} {data : HashId} {fuel : Nat} {r : Entries}
  {s : BuildState}

/-- What a run that returns says. -/
theorem result_of_run (hacc : Acceptable heap data)
    (h : (cmakeFlattenHash inspect fuel data).run { hashes := heap } = (.ok r, s)) :
    Result inspect heap ∅ data r ∧ ¬ Jams heap ∅ data :=
  (cmakeFlattenHash_yields inspect heap fuel ∅ data data hacc closed_empty).of_ok
    ⟨stands_self hacc, hacc⟩ h

/-- **Enough fuel**, where flattening is not stuck. -/
theorem exists_run (inspect : RHeap → RValue → String) (hacc : Acceptable heap data)
    (hfree : ¬ Jams heap ∅ data) :
    ∃ N, ∀ fuel, N ≤ fuel → ∃ r s,
      (cmakeFlattenHash inspect fuel data).run { hashes := heap } = (.ok r, s) := by
  have hfinite : (reach (Visits heap) data).Finite := by
    refine (Set.finite_lt_nat heap.length).subset fun x hx => ?_
    obtain ⟨X, hX, -⟩ := hacc.accepted x hx
    exact (List.getElem?_eq_some_iff.1 hX).1
  obtain ⟨d, hd⟩ := hacc.acyclic.exists_heightLt hfinite
  refine ⟨d + 2, fun fuel hfuel => ?_⟩
  rcases hrun : (cmakeFlattenHash inspect fuel data).run { hashes := heap } with ⟨result, s⟩
  cases result with
  | ok r => exact ⟨r, s, rfl⟩
  | error e =>
      have hout := (cmakeFlattenHash_yields inspect heap fuel ∅ data data hacc closed_empty).of_error
        ⟨stands_self hacc, hacc⟩ hrun
      exact absurd (hout.2 d hd hfuel) hfree

/-- What is returned are leaves. -/
theorem Result.leaves (h : Result inspect heap ∅ data r) :
    ∀ e ∈ r, ∃ ks v, LeafAt heap data ks v ∧ e.1 = joined ks ∧ Normalised inspect v e.2 := by
  rintro ⟨path, u⟩ hu
  obtain ⟨v, hwins, hnormal⟩ := h.sound path u hu
  obtain ⟨ks, hleaf, rfl⟩ := hwins.visible.leafAt
  exact ⟨ks, v, hleaf, rfl, hnormal⟩

/-- A leaf that is the only one with its path is visible if the path is returned. -/
theorem Result.visible_of_mem (h : Result inspect heap ∅ data r) (hdistinct : Distinct heap data)
    {ks : List Key} {v u : RValue} (hleaf : LeafAt heap data ks v) (hu : (joined ks, u) ∈ r) :
    Visible heap ∅ data (joined ks) v := by
  obtain ⟨w, hwins, -⟩ := h.sound _ u hu
  obtain ⟨ks', hleaf', heq⟩ := hwins.visible.leafAt
  obtain rfl := hdistinct ks' w ks v hleaf' hleaf heq
  rw [hleaf.unique hleaf']
  exact hwins.visible

theorem Result.complete_iff_visible (h : Result inspect heap ∅ data r) (hdistinct : Distinct heap data) :
    Complete inspect heap data r ↔
      ∀ ks v, LeafAt heap data ks v → Visible heap ∅ data (joined ks) v := by
  constructor
  · intro hcomplete ks v hleaf
    obtain ⟨u, hu, -⟩ := hcomplete.complete ks v hleaf
    exact h.visible_of_mem hdistinct hleaf hu
  · intro hall
    refine ⟨h.leaves, fun ks v hleaf => ?_⟩
    obtain ⟨u, hu⟩ := h.visible _ v (hall ks v hleaf)
    obtain ⟨ks', w, hleaf', heq, hnormal⟩ := h.leaves _ hu
    obtain rfl := hdistinct ks v ks' w hleaf hleaf' heq
    rw [hleaf.unique hleaf']
    exact ⟨u, hu, hnormal⟩

/-- The entries do not depend on the order of insertion: hashes with the same leaves have
the same. -/
theorem Complete.mem_iff {heap' : RHeap} {data' : HashId} {r' : Entries}
    (h : Complete inspect heap data r) (h' : Complete inspect heap' data' r')
    (hsame : ∀ ks v, LeafAt heap data ks v ↔ LeafAt heap' data' ks v)
    (hplain : ∀ ks v, LeafAt heap data ks v → v.Plain) (e : Key × RValue) : e ∈ r ↔ e ∈ r' := by
  obtain ⟨path, u⟩ := e
  constructor
  · intro hu
    obtain ⟨ks, v, hleaf, rfl, hnormal⟩ := h.sound _ hu
    obtain ⟨u', hu', hnormal'⟩ := h'.complete ks v ((hsame ks v).1 hleaf)
    obtain rfl : u = u' := hnormal.eq_of_plain hnormal' (hplain ks v hleaf)
    exact hu'
  · intro hu
    obtain ⟨ks, v, hleaf, rfl, hnormal⟩ := h'.sound _ hu
    have hleaf' := (hsame ks v).2 hleaf
    obtain ⟨u', hu', hnormal'⟩ := h.complete ks v hleaf'
    obtain rfl : u = u' := hnormal.eq_of_plain hnormal' (hplain ks v hleaf')
    exact hu'

/-- **No leaf is lost** of hashes in which no two leaves have the same joined path, if and
only if every leaf is visible. -/
theorem flattens_completely_iff (inspect : RHeap → RValue → String) (hacc : Acceptable heap data)
    (hdistinct : Distinct heap data) :
    (∃ N, ∀ fuel, N ≤ fuel → ∃ r s,
      (cmakeFlattenHash inspect fuel data).run { hashes := heap } = (.ok r, s) ∧
        Complete inspect heap data r) ↔
      ∀ ks v, LeafAt heap data ks v → Visible heap ∅ data (joined ks) v := by
  constructor
  · rintro ⟨N, hN⟩
    obtain ⟨r, s, hrun, hcomplete⟩ := hN N le_rfl
    exact ((result_of_run hacc hrun).1.complete_iff_visible hdistinct).1 hcomplete
  · intro hall
    obtain ⟨N, hN⟩ := exists_run inspect hacc fun hjams => hjams.not_distinct hdistinct
    refine ⟨N, fun fuel hfuel => ?_⟩
    obtain ⟨r, s, hrun⟩ := hN fuel hfuel
    exact ⟨r, s, hrun, ((result_of_run hacc hrun).1.complete_iff_visible hdistinct).2 hall⟩

/-- Leaves of two hashes, one of them an array. -/
def twoHashes : RHeap :=
  [{ entries := ⟨[(.symbol "a", .array [.numeric "1", .symbol "x"]), (.symbol "b", .hash 1)], by decide⟩ },
    { entries := ⟨[(.symbol "c", .pathname "lib")], by decide⟩ }]

theorem leafAt_twoHashes {ks : List Key} {v : RValue} (h : LeafAt twoHashes 0 ks v) :
    ks = [.symbol "a"] ∧ v = .array [.numeric "1", .symbol "x"] ∨
      ks = [.symbol "b", .symbol "c"] ∧ v = .pathname "lib" := by
  rcases (leafAt_iff rfl).1 h with ⟨k, rfl, hk, hv⟩ | ⟨k, b, ks, rfl, hk, hbelow⟩
  · rcases List.mem_pair.1 hk with heq | heq <;> cases heq
    · exact .inl ⟨rfl, rfl⟩
    · cases hv
  · rcases List.mem_pair.1 hk with heq | heq <;> cases heq
    rcases (leafAt_iff rfl).1 hbelow with ⟨k, rfl, hk, -⟩ | ⟨k, b, ks, rfl, hk, -⟩
    · cases List.mem_singleton.1 hk
      exact .inr ⟨rfl, rfl⟩
    · cases List.mem_singleton.1 hk

theorem distinct_twoHashes : Distinct twoHashes 0 := by
  intro ks v ks' v' h h' heq
  rcases leafAt_twoHashes h with ⟨rfl, -⟩ | ⟨rfl, -⟩ <;>
    rcases leafAt_twoHashes h' with ⟨rfl, -⟩ | ⟨rfl, -⟩ <;> first | rfl | exact absurd heq (by decide)

theorem flattens_completely_twoHashes :
    ∃ N, ∀ fuel, N ≤ fuel → ∃ r s,
      (cmakeFlattenHash (fun _ _ => "") fuel 0).run { hashes := twoHashes } = (.ok r, s) ∧
        Complete (fun _ _ => "") twoHashes 0 r := by
  refine (flattens_completely_iff (fun _ _ => "") (acceptable_of_ordered (by decide +kernel) (by decide))
    distinct_twoHashes).2 fun ks v h => ?_
  have hfound : found twoHashes ∅ 0 = ⟨[(.string "a", .array [.numeric "1", .symbol "x"]),
      (.string "b", .hash 1)], by decide⟩ :=
    (found_empty (A := twoHashes[0]) rfl).trans rfl
  have hfound' : found twoHashes ∅ 1 = ⟨[(.string "c", .pathname "lib")], by decide⟩ :=
    (found_empty (A := twoHashes[1]) rfl).trans rfl
  rcases leafAt_twoHashes h with ⟨rfl, rfl⟩ | ⟨rfl, rfl⟩
  · apply Visible.here
    · rw [hfound]
      exact List.mem_cons_self
    · rfl
  · refine visible_of_below ⟨[], .string "b", 1, [], .string "c", ?_, by decide, ?_, by simp⟩
    · rw [hfound]
      rfl
    · rw [flattened_nil]
      apply Visible.here
      · rw [hfound']
        exact List.mem_singleton_self _
      · rfl

/-- The path of a leaf is the key of a nested hash that comes later. -/
def laterKey : RHeap :=
  [{ entries := ⟨[(.string "a", .hash 1), (.string "a_b", .hash 2)], by decide⟩ },
    { entries := ⟨[(.string "b", .numeric "1")], by decide⟩ },
    { entries := ⟨[(.string "c", .numeric "2")], by decide⟩ }]

theorem leafAt_laterKey {ks : List Key} {v : RValue} (h : LeafAt laterKey 0 ks v) :
    ks = [.string "a", .string "b"] ∨ ks = [.string "a_b", .string "c"] := by
  rcases (leafAt_iff rfl).1 h with ⟨k, rfl, hk, hv⟩ | ⟨k, b, ks, rfl, hk, hbelow⟩
  · rcases List.mem_pair.1 hk with heq | heq <;> cases heq <;> cases hv
  · rcases List.mem_pair.1 hk with heq | heq <;> cases heq
    · rcases (leafAt_iff rfl).1 hbelow with ⟨k, rfl, hk, -⟩ | ⟨k, b, ks, rfl, hk, -⟩
      · cases List.mem_singleton.1 hk
        exact .inl rfl
      · cases List.mem_singleton.1 hk
    · rcases (leafAt_iff rfl).1 hbelow with ⟨k, rfl, hk, -⟩ | ⟨k, b, ks, rfl, hk, -⟩
      · cases List.mem_singleton.1 hk
        exact .inr rfl
      · cases List.mem_singleton.1 hk

theorem not_visible_laterKey :
    ¬ Visible laterKey ∅ 0 (joined [.string "a", .string "b"]) (.numeric "1") := by
  have hfound : found laterKey ∅ 0 = ⟨[(.string "a", .hash 1), (.string "a_b", .hash 2)], by decide⟩ :=
    (found_empty (A := laterKey[0]) rfl).trans rfl
  intro h
  rcases h.cases with ⟨hv, -⟩ | ⟨before, k, b, after, k', hsplit, hpath, -, hrest⟩
  · rw [hfound] at hv
    rcases List.mem_pair.1 hv with heq | heq <;> cases congrArg Prod.snd heq
  · rw [hfound] at hsplit
    cases before with
    | nil =>
        cases hsplit
        exact hrest 2 (by decide)
    | cons e before =>
        cases before with
        | nil =>
            cases hsplit
            exact joinKeys_ne hpath.symm
        | cons e' before =>
            exact absurd (congrArg List.length hsplit) (by simp [Entries.nested, RValue.hashId?])

/-- The leaf gives way to the nested hash, although their paths differ. -/
theorem not_flattens_completely_laterKey :
    ¬ ∀ (inspect : RHeap → RValue → String) (heap : RHeap) (data : HashId), Acceptable heap data →
      (∀ A ∈ heap, ∀ e ∈ A.entries, ∃ text, e.1 = .string text) → Distinct heap data →
      ∃ N, ∀ fuel, N ≤ fuel → ∃ r s,
        (cmakeFlattenHash inspect fuel data).run { hashes := heap } = (.ok r, s) ∧
          Complete inspect heap data r := by
  intro hall
  have hacc : Acceptable laterKey 0 := acceptable_of_ordered (by decide +kernel) (by decide)
  have hstrings : ∀ A ∈ laterKey, ∀ e ∈ A.entries.entries, e.1 = .string e.1.toS := by decide
  have hdistinct : Distinct laterKey 0 := by
    intro ks v ks' v' h h' heq
    rcases leafAt_laterKey h with rfl | rfl <;> rcases leafAt_laterKey h' with rfl | rfl <;>
      first | rfl | exact absurd heq (by decide)
  obtain ⟨N, hN⟩ := hall (fun _ _ => "") laterKey 0 hacc
    (fun A hA e he => ⟨_, hstrings A hA e he⟩) hdistinct
  obtain ⟨r, s, hrun, hcomplete⟩ := hN N le_rfl
  have hvisible := ((result_of_run hacc hrun).1.complete_iff_visible hdistinct).1 hcomplete
  exact not_visible_laterKey (hvisible _ _
    (.nested rfl List.mem_cons_self (.here rfl List.mem_cons_self rfl)))

/-- **Flattening ends** if and only if it is nowhere stuck, and what it returns then are
leaves. -/
theorem flattening_ends_iff (inspect : RHeap → RValue → String) (hacc : Acceptable heap data) :
    (∃ N, ∀ fuel, N ≤ fuel → ∃ r s,
      (cmakeFlattenHash inspect fuel data).run { hashes := heap } = (.ok r, s) ∧
        ∀ e ∈ r, ∃ ks v, LeafAt heap data ks v ∧ e.1 = joined ks ∧ Normalised inspect v e.2) ↔
      ¬ Jams heap ∅ data := by
  constructor
  · rintro ⟨N, hN⟩
    obtain ⟨r, s, hrun, -⟩ := hN N le_rfl
    exact (result_of_run hacc hrun).2
  · intro hfree
    obtain ⟨N, hN⟩ := exists_run inspect hacc hfree
    refine ⟨N, fun fuel hfuel => ?_⟩
    obtain ⟨r, s, hrun⟩ := hN fuel hfuel
    exact ⟨r, s, hrun, (result_of_run hacc hrun).1.leaves⟩

/-- An array, and below it a string with the same path. -/
def samePath : RHeap :=
  [{ entries := ⟨[(.string "b_c", .array [.numeric "1"]), (.string "b", .hash 1)], by decide⟩ },
    { entries := ⟨[(.string "c", .string "x")], by decide⟩ }]

theorem flattening_ends_samePath :
    ∃ N, ∀ fuel, N ≤ fuel → ∃ r s,
      (cmakeFlattenHash (fun _ _ => "") fuel 0).run { hashes := samePath } = (.ok r, s) ∧
        ∀ e ∈ r, ∃ ks v, LeafAt samePath 0 ks v ∧ e.1 = joined ks ∧
          Normalised (fun _ _ => "") v e.2 := by
  refine (flattening_ends_iff (fun _ _ => "") (acceptable_of_ordered (by decide +kernel) (by decide))).2
    fun hjams => ?_
  have hfound : found samePath ∅ 0 =
      ⟨[(.string "b_c", .array [.numeric "1"]), (.string "b", .hash 1)], by decide⟩ :=
    (found_empty (A := samePath[0]) rfl).trans rfl
  have hfound' : found samePath ∅ 1 = ⟨[(.string "c", .string "x")], by decide⟩ :=
    (found_empty (A := samePath[1]) rfl).trans rfl
  have hnested : (found samePath (flattened samePath ∅ []) 1).nested = [] := by
    rw [flattened_nil, hfound']
    rfl
  have hsplits : ∀ before k b after, (found samePath ∅ 0).nested = before ++ (k, b) :: after →
      before = [] ∧ b = 1 := by
    intro before k b after hsplit
    have hone : [] ++ [(Key.string "b", 1)] = before ++ (k, b) :: after := by
      rw [← hsplit, hfound]
      rfl
    rcases append_singleton_eq_iff.1 hone with ⟨-, hbefore, heq⟩ | ⟨after', -, hnone⟩
    · exact ⟨hbefore, congrArg Prod.snd heq⟩
    · exact absurd hnone.symm (by simp)
  cases hjams with
  | here _ _ hfirst hw =>
      obtain ⟨before, k, b, after, k', hsplit, -, hwins, -⟩ := hfirst
      obtain ⟨rfl, rfl⟩ := hsplits _ _ _ _ hsplit
      rcases hwins.cases with ⟨hw', -⟩ | ⟨hfirst, -⟩
      · rw [flattened_nil, hfound'] at hw'
        cases List.mem_singleton.1 hw'
        cases hw
      · exact not_below_nil (hnested ▸ hfirst.below)
  | nested hsplit hjams =>
      obtain ⟨rfl, rfl⟩ := hsplits _ _ _ _ hsplit
      exact not_jams_of_nested hnested hjams

/-- Two arrays with the same path. -/
def sameArray : RHeap :=
  [{ entries := ⟨[(.string "b_c", .array [.numeric "1"]), (.string "b", .hash 1)], by decide⟩ },
    { entries := ⟨[(.string "c", .array [.numeric "2"])], by decide⟩ }]

theorem jams_sameArray : Jams sameArray ∅ 0 := by
  have hfound : found sameArray ∅ 0 =
      ⟨[(.string "b_c", .array [.numeric "1"]), (.string "b", .hash 1)], by decide⟩ :=
    (found_empty (A := sameArray[0]) rfl).trans rfl
  have hfound' : found sameArray ∅ 1 = ⟨[(.string "c", .array [.numeric "2"])], by decide⟩ :=
    (found_empty (A := sameArray[1]) rfl).trans rfl
  have hhere : (.string "b_c", .array [.numeric "1"]) ∈ found sameArray ∅ 0 := by
    rw [hfound]
    exact List.mem_cons_self
  have hfirst : First sameArray ∅ (found sameArray ∅ 0).nested [] (.string "b_c")
      (.array [.numeric "2"]) := by
    refine ⟨[], .string "b", 1, [], .string "c", ?_, by decide, ?_, by simp, fun w => not_below_nil⟩
    · rw [hfound]
      rfl
    · rw [flattened_nil]
      refine .here ?_ rfl
      rw [hfound']
      exact List.mem_singleton_self _
  exact .here hhere rfl hfirst rfl

/-- The loop never ends. -/
theorem not_flattening_ends_sameArray :
    ¬ ∀ (inspect : RHeap → RValue → String) (heap : RHeap) (data : HashId), Acceptable heap data →
      (∀ A ∈ heap, ∀ e ∈ A.entries, ∃ text, e.1 = .string text) →
      ∃ N, ∀ fuel, N ≤ fuel → ∃ r s,
        (cmakeFlattenHash inspect fuel data).run { hashes := heap } = (.ok r, s) ∧
          ∀ e ∈ r, ∃ ks v, LeafAt heap data ks v ∧ e.1 = joined ks ∧ Normalised inspect v e.2 := by
  intro hall
  have hacc : Acceptable sameArray 0 := acceptable_of_ordered (by decide +kernel) (by decide)
  have hstrings : ∀ A ∈ sameArray, ∀ e ∈ A.entries.entries, e.1 = .string e.1.toS := by decide
  obtain ⟨N, hN⟩ := hall (fun _ _ => "") sameArray 0 hacc fun A hA e he => ⟨_, hstrings A hA e he⟩
  obtain ⟨r, s, hrun, -⟩ := hN N le_rfl
  exact (result_of_run hacc hrun).2 jams_sameArray

end Main

end RuBLE.CMake
