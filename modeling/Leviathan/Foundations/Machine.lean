import Mathlib.Tactic

/-!
Deterministic machines that answer every input, and what holds along their runs.

* `final` and `answers`: the state a list of inputs leads to and the answers on the way.
* `Guarded`: every input of the run meets a guard in the state it is given in.  The guard
  may read the state, so a run is judged step by step and not by its inputs alone.
* `Guarded.invariant`: **the invariant rule**, from one step to a whole run.
* `simulation`: **the simulation rule**, two machines run side by side on related inputs.
* `potential`: **the potential rule**, what the answers of a run cost against what its inputs
  bring in, with a potential of the state between them.
-/

namespace Machine

variable {σ ι ο : Type*} (step : σ → ι → ο × σ)

/-- The state after a list of inputs. -/
def final : σ → List ι → σ
  | s, [] => s
  | s, i :: is => final (step s i).2 is

/-- The answers to a list of inputs. -/
def answers : σ → List ι → List ο
  | _, [] => []
  | s, i :: is => (step s i).1 :: answers (step s i).2 is

/-- Every input meets the guard `g` in the state it is given in. -/
def Guarded (g : σ → ι → Prop) : σ → List ι → Prop
  | _, [] => True
  | s, i :: is => g s i ∧ Guarded g (step s i).2 is

instance guardedDecidable (g : σ → ι → Prop) [∀ s i, Decidable (g s i)] :
    ∀ (s : σ) (is : List ι), Decidable (Guarded step g s is)
  | _, [] => inferInstanceAs (Decidable True)
  | s, i :: is =>
      have := guardedDecidable g (step s i).2 is
      inferInstanceAs (Decidable (g s i ∧ Guarded step g (step s i).2 is))

@[simp] lemma final_nil (s : σ) : final step s [] = s := rfl

@[simp] lemma final_cons (s : σ) (i : ι) (is : List ι) :
    final step s (i :: is) = final step (step s i).2 is := rfl

@[simp] lemma answers_nil (s : σ) : answers step s [] = [] := rfl

@[simp] lemma answers_cons (s : σ) (i : ι) (is : List ι) :
    answers step s (i :: is) = (step s i).1 :: answers step (step s i).2 is := rfl

lemma final_append (s : σ) (is js : List ι) :
    final step s (is ++ js) = final step (final step s is) js := by
  induction is generalizing s with
  | nil => rfl
  | cons i is ih => exact ih _

lemma answers_append (s : σ) (is js : List ι) :
    answers step s (is ++ js) = answers step s is ++ answers step (final step s is) js := by
  induction is generalizing s with
  | nil => rfl
  | cons i is ih => simp [ih]

section Guarded

variable {step} {g : σ → ι → Prop}

lemma guarded_true (s : σ) (is : List ι) : Guarded step (fun _ _ => True) s is := by
  induction is generalizing s with
  | nil => trivial
  | cons i is ih => exact ⟨trivial, ih _⟩

/-- **The invariant rule**: what holds at the start and survives every guarded step holds
at the end of every guarded run. -/
theorem Guarded.invariant {s : σ} {is : List ι} (hg : Guarded step g s is) (Inv : σ → Prop)
    (hstep : ∀ s i, Inv s → g s i → Inv (step s i).2) (hs : Inv s) : Inv (final step s is) := by
  induction is generalizing s with
  | nil => exact hs
  | cons i is ih => exact ih hg.2 (hstep s i hs hg.1)

/-- The invariant rule for runs that meet no guard. -/
theorem invariant (Inv : σ → Prop) (hstep : ∀ s i, Inv s → Inv (step s i).2) {s : σ}
    (hs : Inv s) (is : List ι) : Inv (final step s is) :=
  (guarded_true s is).invariant Inv (fun s i h _ => hstep s i h) hs

/-- **The potential rule**: when on every step the cost of the answer is paid for by what the
input brings in and the potential falls by, the cost of a run is paid for by what its inputs
bring in and the potential falls by. -/
theorem potential (Inv : σ → Prop) (hinv : ∀ s i, Inv s → Inv (step s i).2) (cost : ο → ℕ)
    (income : ι → ℕ) (Φ : σ → ℕ)
    (hstep : ∀ s i, Inv s → cost (step s i).1 + Φ (step s i).2 ≤ Φ s + income i) {s : σ}
    (hs : Inv s) (is : List ι) :
    ((answers step s is).map cost).sum + Φ (final step s is) ≤ Φ s + (is.map income).sum := by
  induction is generalizing s with
  | nil => simp
  | cons i is ih =>
      have hone := hstep s i hs
      have hrest := ih (hinv s i hs)
      simp only [answers_cons, final_cons, List.map_cons, List.sum_cons]
      omega

/-- **The guarded simulation rule**, for a second machine run on the images of the inputs: when
a step whose input meets the guard keeps the relation and answers with the image of the answer,
guarded runs do. -/
theorem Guarded.simulation {σ' ι' ο' : Type*} {step' : σ' → ι' → ο' × σ'}
    {R : σ → σ' → Prop} {F : ι → ι'} {G : ο → ο'}
    (hstep : ∀ s s' i, R s s' → g s i →
      (step' s' (F i)).1 = G (step s i).1 ∧ R (step s i).2 (step' s' (F i)).2)
    {s : σ} {s' : σ'} {is : List ι} (hs : R s s') (hg : Guarded step g s is) :
    answers step' s' (is.map F) = (answers step s is).map G
      ∧ R (final step s is) (final step' s' (is.map F)) := by
  induction is generalizing s s' with
  | nil => exact ⟨rfl, hs⟩
  | cons i is ih =>
      obtain ⟨ho, hs'⟩ := hstep s s' i hs hg.1
      obtain ⟨hos, hr⟩ := ih hs' hg.2
      exact ⟨congrArg₂ List.cons ho hos, hr⟩

lemma Guarded.take {s : σ} {is : List ι} (hg : Guarded step g s is) (n : ℕ) :
    Guarded step g s (is.take n) := by
  induction is generalizing s n with
  | nil => simpa using hg
  | cons i is ih =>
      cases n with
      | zero => trivial
      | succ n => exact ⟨hg.1, ih hg.2 n⟩

/-- Every input meets the guard in the state that the inputs before it lead to. -/
lemma Guarded.getElem? {s : σ} {is : List ι} (hg : Guarded step g s is) {n : ℕ} {i : ι}
    (hi : is[n]? = some i) : g (final step s (is.take n)) i := by
  induction is generalizing s n with
  | nil => simp at hi
  | cons j is ih =>
      cases n with
      | zero =>
          obtain rfl : j = i := by simpa using hi
          exact hg.1
      | succ n => exact ih hg.2 (by simpa using hi)

end Guarded

/-- **The simulation rule**: when related states and inputs give related answers and
related states again, whole runs do. -/
theorem simulation {σ' ι' ο' : Type*} {step' : σ' → ι' → ο' × σ'} {R : σ → σ' → Prop}
    {I : ι → ι' → Prop} {O : ο → ο' → Prop}
    (hstep : ∀ s s' i i', R s s' → I i i' →
      O (step s i).1 (step' s' i').1 ∧ R (step s i).2 (step' s' i').2)
    {s : σ} {s' : σ'} {is : List ι} {is' : List ι'} (hs : R s s') (hi : List.Forall₂ I is is') :
    List.Forall₂ O (answers step s is) (answers step' s' is')
      ∧ R (final step s is) (final step' s' is') := by
  induction hi generalizing s s' with
  | nil => exact ⟨List.Forall₂.nil, hs⟩
  | cons hi _ ih =>
      obtain ⟨ho, hs'⟩ := hstep _ _ _ _ hs hi
      obtain ⟨ho', hr⟩ := ih hs'
      exact ⟨List.Forall₂.cons ho ho', hr⟩

end Machine
