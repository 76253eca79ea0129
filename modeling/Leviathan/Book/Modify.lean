import Leviathan.Book.Index
import Leviathan.Book.Priority
import Leviathan.Book.Timestamps

/-!
`modifyOrder`, end to end.

`modifyOrder_spec` gives the whole outcome of a modification of a book whose index is exact:
no order of that id and no change; a removal for the quantity zero; a write to the quantity
in place; or, timestamps aside, a cancellation followed by a LIMIT order under the same id,
which leaves the rest of its own side as it was (`Requeued`).
-/

namespace Leviathan

open Allotment

variable {P : Type*} [LinearOrder P]

omit [LinearOrder P] in
/-- An insertion disturbs no selection that leaves the inserted item out. -/
lemma filter_orderedInsert {r : Order P → Order P → Prop} [DecidableRel r] {c : Order P → Bool}
    {o : Order P} (ho : c o = false) (l : List (Order P)) :
    (l.orderedInsert r o).filter c = l.filter c := by
  induction l with
  | nil => simp [ho]
  | cons a l ih =>
      rw [List.orderedInsert_cons]
      split_ifs
      · rw [List.filter_cons_of_neg (by simp [ho])]
      · rw [List.filter_cons, List.filter_cons, ih]

/-- On side `s` of `b'` the orders of other ids are `rest`, and an order of the id `id` stands
last in the level `p`. -/
structure Requeued (b' : OrderBook P) (s : Side) (id : UInt64) (p : P) (rest : List (Order P)) :
    Prop where
  rest : (b'.resting s).filter (fun a => a.id ≠ id) = rest
  last : ∀ m ∈ b'.resting s, m.id = id → ∃ ahead, b'.queueAt s p = ahead ++ [m]

/-- A submitted order of a free id leaves its own side as it was, and rests last in its
level if it rests. -/
lemma requeued_submitOrder {b : OrderBook P} (h : BookWF b) {o : Order P}
    (hid : o.id ∉ b.restingIds) :
    Requeued (submitOrder b o).2 o.side o.id o.price (b.resting o.side) := by
  have hfree : ∀ m ∈ b.resting o.side, m.id ≠ o.id := fun m hm heq =>
    hid (OrderBook.mem_restingIds.mpr ⟨_, m, hm, heq⟩)
  have hall : (b.resting o.side).filter (fun a => a.id ≠ o.id) = b.resting o.side :=
    List.filter_eq_self.mpr fun m hm => by simpa using hfree m hm
  have hown : (matched b o).resting o.side = b.resting o.side :=
    OrderBook.resting_congr (side_matched b o)
  rw [submitOrder_eq h]
  split_ifs with hr hrests
  · exact ⟨hall, fun m hm heq => absurd heq (hfree m hm)⟩
  · have hins : (addOrder (matched b o) (remainder b o)).resting o.side
        = (b.resting o.side).orderedInsert (OrderBefore o.side) (remainder b o) := by
      rw [← hown]
      exact resting_addOrder_self (wf_matched h o) (remainder b o)
    refine ⟨?_, ?_⟩
    · rw [hins, filter_orderedInsert (by simp [remainder]), hall]
    · intro m hm heq
      rw [hins] at hm
      rcases (List.mem_orderedInsert _).mp hm with rfl | hm
      · rw [queueAt_addOrder_matched h, if_pos rfl]
        exact ⟨_, rfl⟩
      · exact absurd heq (hfree m hm)
  · refine ⟨by rw [hown, hall], ?_⟩
    intro m hm heq
    rw [hown] at hm
    exact absurd heq (hfree m hm)

/-- Orders submitted at different times do the same, timestamps aside. -/
lemma submitOrder_restamp (b : OrderBook P) (o : Order P) (t : UInt64) :
    (submitOrder b o).1.map Trade.untimed
        = (submitOrder b { o with timestamp := t }).1.map Trade.untimed
      ∧ (submitOrder b o).2.untimed = (submitOrder b { o with timestamp := t }).2.untimed := by
  have h1 := submitOrder_untimed b o
  have h2 := submitOrder_untimed b { o with timestamp := t }
  have heq : o.untimed = Order.untimed { o with timestamp := t } := rfl
  rw [heq, h2] at h1
  exact ⟨(Prod.mk.inj h1).1.symm, (Prod.mk.inj h1).2.symm⟩

/-- **`modifyOrder`, end to end**, on any book left by a run with fresh ids: the answer is
empty exactly when the id does not rest; otherwise the order `o` of that id stands on side `s`
between `bef` and `aft`, and is removed, rewritten in place, or cancelled and submitted
afresh. -/
theorem modifyOrder_spec (cs : List (Call P))
    (h : Machine.Guarded call FreshIds OrderBook.empty cs) (counter id : UInt64) (p : P)
    (q : UInt64) :
    let b := after cs
    let r := modifyOrder b counter id p q
    (r.1 = none ↔ id ∉ b.restingIds)
      ∧ (id ∉ b.restingIds → r.2.1 = b)
      ∧ (id ∈ b.restingIds → ∃ s o bef aft, o.id = id ∧ b.resting s = bef ++ o :: aft
          ∧ BookWF r.2.1
          ∧ (q = 0 → r.1 = some [] ∧ r.2.1.resting s = bef ++ aft
              ∧ r.2.1.side s.opposite = b.side s.opposite
              ∧ r.2.1.orderIndex = b.orderIndex.erase id)
          ∧ (q ≠ 0 → p = o.price → q ≤ o.quantity →
              r.1 = some [] ∧ r.2.1.resting s = bef ++ o.setQuantity q :: aft
                ∧ r.2.1.side s.opposite = b.side s.opposite
                ∧ r.2.1.orderIndex = b.orderIndex)
          ∧ (q ≠ 0 → ¬ (p = o.price ∧ q ≤ o.quantity) →
              (cancelOrder b id).1 = true
                ∧ (∀ t, let sub := submitOrder (cancelOrder b id).2 ⟨id, s, p, q, t, .limit⟩
                  r.1.map (List.map Trade.untimed) = some (sub.1.map Trade.untimed)
                    ∧ r.2.1.untimed = sub.2.untimed)
                ∧ Requeued r.2.1 s id p (bef ++ aft))) := by
  intro b r
  have hex : IndexExact b := indexExact_after h
  have hwf : BookWF r.2.1 := wf_modifyOrder hex.wf counter id p q
  rcases modifyOrder_cases hex.wf counter id p q with
    ⟨heq, hnone⟩ | ⟨s, o, bef, aft, rfl, hok, hr, hcase⟩
  · have hid : id ∉ b.restingIds := hex.not_mem_restingIds hnone
    have hrb : r = (none, b, counter) := heq
    rw [hrb]
    exact ⟨iff_of_true rfl hid, fun _ => rfl, fun hc => absurd hc hid⟩
  · obtain ⟨-, hfree⟩ := hex.removed hr
    have hid : o.id ∈ b.restingIds := hr.mem_restingIds.mpr (Or.inl rfl)
    have hsome : r.1 ≠ none := by
      rcases hcase with ⟨-, heq⟩ | ⟨-, -, -, b', heq, -⟩ | ⟨-, -, heq⟩
      all_goals
        have hrb := heq
        change r = _ at hrb
        rw [hrb]
        simp
    refine ⟨iff_of_false hsome (not_not.mpr hid), fun hc => absurd hid hc, fun _ => ?_⟩
    refine ⟨s, o, bef, aft, rfl, hr.resting, hwf, ?_, ?_, ?_⟩
    · intro hq
      rcases hcase with ⟨-, heq⟩ | ⟨hq', -⟩ | ⟨hq', -⟩
      · have hrb : r = (some [], (cancelOrder b o.id).2, counter) := heq
        rw [hrb]
        exact ⟨rfl, hr.resting', hr.other, hr.index⟩
      · exact absurd hq hq'
      · exact absurd hq hq'
    · intro hq hp hle
      rcases hcase with ⟨hq', -⟩ | ⟨-, -, -, b', heq, hw⟩ | ⟨-, hno, -⟩
      · exact absurd hq' hq
      · have hrb : r = (some [], b', counter) := heq
        rw [hrb]
        exact ⟨rfl, hw.resting', hw.other, hw.index⟩
      · exact absurd ⟨hp, hle⟩ hno
    · intro hq hno
      rcases hcase with ⟨hq', -⟩ | ⟨-, hp, hle, -⟩ | ⟨-, -, heq⟩
      · exact absurd hq' hq
      · exact absurd ⟨hp, hle⟩ hno
      · have hrb : r = (some (submitOrder (cancelOrder b o.id).2
              ⟨o.id, s, p, q, counter, .limit⟩).1,
            (submitOrder (cancelOrder b o.id).2 ⟨o.id, s, p, q, counter, .limit⟩).2,
            counter + 1) := heq
        rw [hrb]
        refine ⟨hok, ?_, ?_⟩
        · intro t
          obtain ⟨htr, hbk⟩ := submitOrder_restamp (cancelOrder b o.id).2
            ⟨o.id, s, p, q, counter, .limit⟩ t
          exact ⟨congrArg some htr, hbk⟩
        · rw [← hr.resting']
          exact requeued_submitOrder hr.wf (o := ⟨o.id, s, p, q, counter, .limit⟩) hfree

/-- Moving the bid of 4 at 99 to 101 with quantity 8 trades it against both asks at 101 and
leaves 3 of it resting there. -/
theorem modifyOrder_spec_sample :
    ((modifyOrder (after sampleCalls) 9 4 101 8).1 = none
        ↔ 4 ∉ (after sampleCalls).restingIds)
      ∧ (modifyOrder (after sampleCalls) 9 4 101 8).1
        = some [⟨4, 1, 101, 5, 9⟩, ⟨4, 2, 101, 0, 9⟩] :=
  ⟨(modifyOrder_spec sampleCalls (by decide) 9 4 101 8).1, by decide⟩

end Leviathan
