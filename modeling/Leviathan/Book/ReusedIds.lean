import Leviathan.Book.Index

/-!
What a reused id does to the bookkeeping.

`Truthful b` is what a caller relies on between two calls: the count is the number of orders
held, every resting order can be cancelled by its id, and a cancelled id is gone for good.
Neither `addOrder` nor `submitOrder` looks whether its id is taken, and the index has one
entry for each id, so a second order of one id leaves the first without an entry.
`truthful_iff` says in which runs this never happens: those whose calls leave no two orders
of one id at rest (`NoClash`).
-/

namespace Leviathan

open Allotment

variable {P : Type*} [LinearOrder P]

/-- **The bookkeeping is truthful.** -/
structure Truthful (b : OrderBook P) : Prop where
  count : totalOrderCount b = b.restingAll.length
  reach : ∀ o ∈ b.restingAll, (cancelOrder b o.id).1 = true
    ∧ b.restingAll.Perm (o :: (cancelOrder b o.id).2.restingAll)
  gone : ∀ id, id ∉ (cancelOrder b id).2.restingIds
  silent : ∀ id cs, (∀ c ∈ cs, ¬ c.Brings id) →
    ∀ r ∈ Machine.answers call (cancelOrder b id).2 cs, ∀ t ∈ r.tradeList, ¬ t.Names id

/-- The call leaves no two orders of one id at rest: an added id is free, and a submitted one
is free of the orders its remainder would rest beside. -/
def NoClash (b : OrderBook P) : Call P → Prop
  | .addOrder o => o.id ∉ b.restingIds
  | .submitOrder o => Rests b o → o.id ∉ (unmet b o).map Order.id
  | _ => True

instance (b : OrderBook P) (c : Call P) : Decidable (NoClash b c) :=
  match c with
  | .addOrder o => inferInstanceAs (Decidable (o.id ∉ b.restingIds))
  | .submitOrder o =>
      inferInstanceAs (Decidable (Rests b o → o.id ∉ (unmet b o).map Order.id))
  | .cancelOrder _ => inferInstanceAs (Decidable True)
  | .modifyOrder _ _ _ _ => inferInstanceAs (Decidable True)

namespace IndexExact

variable {b : OrderBook P}

lemma truthful (h : IndexExact b) : Truthful b := by
  have hgone : ∀ id, id ∉ (Leviathan.cancelOrder b id).2.restingIds := by
    intro id
    rcases h.cancelOrder_spec id with ⟨hid, heq⟩ | ⟨s, o, bef, aft, rfl, -, hr⟩
    · rwa [heq]
    · exact (h.removed hr).2
  refine ⟨h.tracks.card_keys, ?_, hgone, ?_⟩
  · intro o ho
    rcases h.cancelOrder_spec o.id with ⟨hid, -⟩ | ⟨s, o', bef, aft, hid, hok, hr⟩
    · exact absurd (List.mem_map_of_mem ho) hid
    · have ho' : o' ∈ b.restingAll := hr.restingAll.symm.subset List.mem_cons_self
      obtain rfl := h.eq_of_id_eq ho' ho hid
      exact ⟨hok, hr.restingAll⟩
  · intro id cs hcs
    exact (ids_run (wf_cancelOrder h.wf id) (hgone id) hcs).2

/-- A second order of one id makes the count fall short. -/
lemma not_truthful_addOrder (h : IndexExact b) {o : Order P} (ho : o.id ∈ b.restingIds) :
    ¬ Truthful (Leviathan.addOrder b o) := by
  intro ht
  have hkey : o.id ∈ b.orderIndex.keys := by
    obtain ⟨x, hx, hxo⟩ := List.mem_map.mp ho
    rw [Finmap.mem_keys, ← Finmap.lookup_isSome, ← hxo, h.tracks.lookup_of_mem hx]
    rfl
  have hkeys : (b.orderIndex.insert o.id ⟨o.side, o.price⟩).keys = b.orderIndex.keys := by
    ext id
    rw [Finmap.mem_keys, Finmap.mem_insert, ← Finmap.mem_keys]
    constructor
    · rintro (rfl | hid)
      · exact hkey
      · exact hid
    · exact Or.inr
  have hcount := ht.count
  rw [totalOrderCount, orderIndex_addOrder, hkeys, (restingAll_addOrder h.wf o).length_eq,
    List.length_cons, h.tracks.card_keys] at hcount
  omega

/-- **One call** from an exact index leaves it exact, and the bookkeeping truthful, exactly
when it does not clash. -/
lemma call_cases (h : IndexExact b) (c : Call P) :
    (NoClash b c ∧ IndexExact (Leviathan.call b c).2)
      ∨ (¬ NoClash b c ∧ ¬ Truthful (Leviathan.call b c).2) := by
  by_cases hc : NoClash b c
  · refine Or.inl ⟨hc, ?_⟩
    cases c with
    | addOrder o => exact h.addOrder hc
    | submitOrder o => exact h.submitOrder hc
    | cancelOrder id => exact h.cancelOrder id
    | modifyOrder counter id p q => exact h.modifyOrder counter id p q
  · refine Or.inr ⟨hc, ?_⟩
    cases c with
    | addOrder o => exact h.not_truthful_addOrder (not_not.mp hc)
    | submitOrder o =>
        obtain ⟨hr, hid⟩ := Classical.not_imp.mp hc
        have hq : ¬ Refused b o := by
          rintro (hq | ⟨hf, -⟩)
          · have hlt := hr.2
            rw [Order.qty, hq] at hlt
            simp at hlt
          · rw [hr.1] at hf
            cases hf
        simp only [Leviathan.call, submitOrder_eq h.wf, if_neg hq, if_pos hr]
        refine (h.matched o).not_truthful_addOrder ?_
        rw [OrderBook.restingIds, ((hr.restingAll_matched h.wf).map Order.id).mem_iff]
        exact not_not.mp hid
    | cancelOrder id => exact absurd trivial hc
    | modifyOrder counter id p q => exact absurd trivial hc

end IndexExact

/-- **The bookkeeping stays truthful along a run** exactly when no call of it clashes. -/
theorem truthful_iff (cs : List (Call P)) :
    (∀ cs', cs' <+: cs → Truthful (after cs'))
      ↔ Machine.Guarded call NoClash (OrderBook.empty : OrderBook P) cs := by
  have key : ∀ (b : OrderBook P), IndexExact b →
      ((∀ cs', cs' <+: cs → Truthful (Machine.final call b cs'))
        ↔ Machine.Guarded call NoClash b cs) := by
    induction cs with
    | nil =>
        intro b hb
        refine iff_of_true (fun cs' hcs' => ?_) trivial
        rw [List.prefix_nil.mp hcs']
        exact hb.truthful
    | cons c cs ih =>
        intro b hb
        constructor
        · intro hall
          have hone := hall [c] (List.prefix_append [c] cs)
          rcases hb.call_cases c with ⟨hc, hnext⟩ | ⟨-, hnot⟩
          · refine ⟨hc, (ih _ hnext).mp fun cs' hcs' => ?_⟩
            exact hall (c :: cs') (List.cons_prefix_cons.mpr ⟨rfl, hcs'⟩)
          · exact absurd hone hnot
        · rintro ⟨hc, hrest⟩ cs' hcs'
          rcases hb.call_cases c with ⟨-, hnext⟩ | ⟨hnc, -⟩
          · cases cs' with
            | nil => exact hb.truthful
            | cons c' cs' =>
                obtain ⟨rfl, htail⟩ := List.cons_prefix_cons.mp hcs'
                exact (ih _ hnext).mpr hrest cs' htail
          · exact absurd hc hnc
  exact key _ IndexExact.empty

/-- Two buys at 100 under the id 1. -/
def sameIdTwice : List (Call ℤ) :=
  [.addOrder ⟨1, .buy, 100, 10, 0, .limit⟩, .addOrder ⟨1, .buy, 100, 5, 1, .limit⟩]

/-- The count is 1 with two orders held; the first cancellation of id 1 answers `true` and
leaves one of them, the second answers `false` and leaves it too, and a sell then trades with
it. -/
theorem sameIdTwice_not_truthful :
    totalOrderCount (after sameIdTwice) = 1
      ∧ (after sameIdTwice).restingAll.length = 2
      ∧ (call (after sameIdTwice) (.cancelOrder 1)).1 = .cancelled true
      ∧ (call (after (sameIdTwice ++ [.cancelOrder 1])) (.cancelOrder 1)).1 = .cancelled false
      ∧ (after (sameIdTwice ++ [.cancelOrder 1, .cancelOrder 1])).restingIds = [1]
      ∧ (submitOrder (after (sameIdTwice ++ [.cancelOrder 1, .cancelOrder 1]))
          ⟨2, .sell, 100, 5, 2, .limit⟩).1 = [⟨1, 2, 100, 5, 2⟩]
      ∧ ¬ Truthful (after sameIdTwice) := by
  refine ⟨by decide, by decide, by decide, by decide, by decide, by decide, ?_⟩
  intro h
  exact absurd h.count (by decide)

end Leviathan
