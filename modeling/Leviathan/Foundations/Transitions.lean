import Mathlib.Tactic

/-!
Guarded transition systems and what holds along their runs.

A system is a step function that is `some` next state when an event is enabled and `none`
when it is not, so that one definition is both executed and reasoned about.

* `run` replays a list of events, and `trail` lists the states on the way.
* `run_invariant`: **the invariant rule** for a run, from one step.
* `Along`: every enabled event of a run meets a guard in the state it happens in; `trail_iff`
  is the exact rule for the states on the way, for a guard whose failure at a step is seen in
  the next state.
* `run_refines`: **the stuttering rule**, a step of one system against a run of another.
* `length_add_le` and `exists_rest`: **the measure rule**, where the events of a kind lower a
  measure their runs are bounded and end where none of them is enabled.
-/

namespace Transitions

variable {σ ι : Type*} (step : σ → ι → Option σ)

/-- The state after a list of events, `none` when one of them is not enabled. -/
def run : σ → List ι → Option σ
  | s, [] => some s
  | s, i :: is => (step s i).bind fun s' => run s' is

/-- The states on the way, up to the first event that is not enabled. -/
def trail : σ → List ι → List σ
  | s, [] => [s]
  | s, i :: is => s :: ((step s i).map fun s' => trail s' is).getD []

/-- Every enabled event of the run meets the guard in the state it happens in. -/
def Along (g : σ → ι → Prop) : σ → List ι → Prop
  | _, [] => True
  | s, i :: is => ∀ s', step s i = some s' → g s i ∧ Along g s' is

variable {step}

lemma run_cons {s t : σ} {i : ι} {is : List ι} :
    run step s (i :: is) = some t ↔ ∃ s', step s i = some s' ∧ run step s' is = some t :=
  Option.bind_eq_some_iff

lemma run_append (s : σ) (is js : List ι) :
    run step s (is ++ js) = (run step s is).bind fun t => run step t js := by
  induction is generalizing s with
  | nil => rfl
  | cons i is ih =>
      rw [List.cons_append, run, run]
      cases step s i with
      | none => rfl
      | some s' => exact ih s'

/-- The last step of a run. -/
lemma run_concat {s t : σ} {i : ι} {is : List ι} :
    run step s (is ++ [i]) = some t ↔ ∃ s', run step s is = some s' ∧ step s' i = some t := by
  rw [run_append, Option.bind_eq_some_iff]
  simp [run]

lemma mem_trail_cons {s t : σ} {i : ι} {is : List ι} :
    t ∈ trail step s (i :: is) ↔ t = s ∨ ∃ s', step s i = some s' ∧ t ∈ trail step s' is := by
  rw [trail, List.mem_cons]
  cases step s i with
  | none => simp
  | some s' => simp

lemma mem_trail_self (s : σ) (is : List ι) : s ∈ trail step s is := by
  cases is with
  | nil => exact List.mem_singleton_self s
  | cons i is => exact mem_trail_cons.mpr (Or.inl rfl)

/-- **The invariant rule**: what every step preserves, a run preserves. -/
theorem run_invariant (Inv : σ → Prop) (hstep : ∀ s i s', Inv s → step s i = some s' → Inv s')
    {s t : σ} {is : List ι} (h : run step s is = some t) (hs : Inv s) : Inv t := by
  induction is generalizing s with
  | nil =>
      obtain rfl := Option.some.inj h
      exact hs
  | cons i is ih =>
      obtain ⟨s', hs', hrun⟩ := run_cons.mp h
      exact ih hrun (hstep s i s' hs hs')

/-- **The exact rule**: when in the states of `Inv` a property is kept by the steps that meet a
guard and lost by those that do not, it holds all along a run exactly when every step of the
run meets the guard. -/
theorem trail_iff (Inv Q : σ → Prop) {g : σ → ι → Prop}
    (hstep : ∀ s i s', Inv s → step s i = some s' → Inv s')
    (hkeep : ∀ s i s', Inv s → Q s → step s i = some s' → (Q s' ↔ g s i)) {s : σ} (hs : Inv s)
    (hQ : Q s) (is : List ι) :
    (∀ t ∈ trail step s is, Q t) ↔ Along step g s is := by
  induction is generalizing s with
  | nil =>
      refine iff_of_true (fun t ht => ?_) trivial
      obtain rfl := List.mem_singleton.mp ht
      exact hQ
  | cons i is ih =>
      constructor
      · intro hall s' hs'
        have hQ' : Q s' := hall s' (mem_trail_cons.mpr (Or.inr ⟨s', hs', mem_trail_self s' is⟩))
        refine ⟨(hkeep s i s' hs hQ hs').mp hQ', (ih (hstep s i s' hs hs') hQ').mp ?_⟩
        exact fun t ht => hall t (mem_trail_cons.mpr (Or.inr ⟨s', hs', ht⟩))
      · intro halong t ht
        rcases mem_trail_cons.mp ht with rfl | ⟨s', hs', ht⟩
        · exact hQ
        · obtain ⟨hg, hrest⟩ := halong s' hs'
          exact (ih (hstep s i s' hs hs') ((hkeep s i s' hs hQ hs').mpr hg)).mpr hrest t ht

/-- **The stuttering rule.**  When every step of a system is answered by a run of another one
between the images of its states, with the same events to be observed, every run is. -/
theorem run_refines {σ' ι' ο : Type*} {step' : σ' → ι' → Option σ'} (abs : σ → σ')
    (obs : ι → Option ο) (obs' : ι' → Option ο) (Inv : σ → Prop)
    (hstep : ∀ s i s', Inv s → step s i = some s' → Inv s')
    (hsim : ∀ s i s', Inv s → step s i = some s' → ∃ is',
      run step' (abs s) is' = some (abs s') ∧ is'.filterMap obs' = (obs i).toList)
    {s t : σ} {is : List ι} (h : run step s is = some t) (hs : Inv s) :
    ∃ is', run step' (abs s) is' = some (abs t) ∧ is'.filterMap obs' = is.filterMap obs := by
  induction is generalizing s with
  | nil =>
      obtain rfl := Option.some.inj h
      exact ⟨[], rfl, rfl⟩
  | cons i is ih =>
      obtain ⟨s', hs', hrun⟩ := run_cons.mp h
      obtain ⟨is₁, h₁, hobs₁⟩ := hsim s i s' hs hs'
      obtain ⟨is₂, h₂, hobs₂⟩ := ih hrun (hstep s i s' hs hs')
      refine ⟨is₁ ++ is₂, by rw [run_append, h₁, Option.bind_some, h₂], ?_⟩
      rw [List.filterMap_append, hobs₁, hobs₂]
      cases hi : obs i with
      | none => rw [List.filterMap_cons_none hi]; rfl
      | some o => rw [List.filterMap_cons_some hi]; rfl

section Measure

variable {Inv : σ → Prop} {μ : σ → ℕ} (K : ι → Prop)
  (hstep : ∀ s i s', Inv s → step s i = some s' → Inv s')
  (hμ : ∀ s i s', Inv s → K i → step s i = some s' → μ s' < μ s)

include hstep hμ

/-- **The measure rule**: what every event of a kind lowers bounds the length of their runs. -/
theorem length_add_le {s t : σ} {is : List ι} (h : run step s is = some t) (hs : Inv s)
    (hK : ∀ i ∈ is, K i) : is.length + μ t ≤ μ s := by
  induction is generalizing s with
  | nil =>
      obtain rfl := Option.some.inj h
      simp
  | cons i is ih =>
      obtain ⟨s', hs', hrun⟩ := run_cons.mp h
      have hlt := hμ s i s' hs (hK i List.mem_cons_self) hs'
      have hle := ih hrun (hstep s i s' hs hs') fun j hj => hK j (List.mem_cons_of_mem i hj)
      rw [List.length_cons]
      omega

/-- From every state some run of these events leads to one in which none of them is enabled. -/
theorem exists_rest {s : σ} (hs : Inv s) :
    ∃ is t, (∀ i ∈ is, K i) ∧ run step s is = some t ∧ ∀ i, K i → step t i = none := by
  induction hn : μ s using Nat.strong_induction_on generalizing s with
  | _ n ih =>
      by_cases hrest : ∀ i, K i → step s i = none
      · exact ⟨[], s, fun i hi => (by cases hi), rfl, hrest⟩
      · push Not at hrest
        obtain ⟨i, hi, hne⟩ := hrest
        obtain ⟨s', hs'⟩ := Option.ne_none_iff_exists'.mp hne
        have hlt := hμ s i s' hs hi hs'
        obtain ⟨is, t, hK, hrun, ht⟩ := ih (μ s') (by omega) (hstep s i s' hs hs') rfl
        refine ⟨i :: is, t, ?_, run_cons.mpr ⟨s', hs', hrun⟩, ht⟩
        exact List.forall_mem_cons.mpr ⟨hi, hK⟩

end Measure

end Transitions
