import Leviathan.Book.Calls

/-!
Price-time priority in closed form.

For an incoming LIMIT, IOC or MARKET order of quantity `Q`, let `E` be the orders of the
other side it crosses, best price first and in queue order, and `S i` the exact sum of the
quantities of the first `i` of them.  `submitOrder_priority` gives the whole outcome of
`submitOrder` by these sums: which orders trade and for how much, what is left of the other
side, and where the remainder of a LIMIT order rests.
-/

namespace Leviathan

open Allotment

variable {P : Type*} [LinearOrder P]

/-- The queue of a price on a side, empty when there is no such level. -/
def OrderBook.queueAt (b : OrderBook P) (s : Side) (p : P) : List (Order P) :=
  (OrderedMap.find? s.before p (b.side s)).getD []

/-- `S i`, the exact sum of the first `i` quantities. -/
def prefixSum (E : List (Order P)) (i : ℕ) : ℕ := total Order.qty (E.take i)

lemma queueAt_pushBack {s : Side} {m : SideMap P} (h : SideWF s m) (o : Order P) (p : P) :
    (OrderedMap.find? s.before p (pushBack s o m)).getD []
      = if p = o.price then (OrderedMap.find? s.before p m).getD [] ++ [o]
        else (OrderedMap.find? s.before p m).getD [] := by
  split_ifs with hp
  · subst hp
    rw [pushBack, OrderedMap.find?_alter_self h.sorted, Option.getD_some]
  · rw [pushBack, OrderedMap.find?_alter_of_ne h.sorted hp]

/-- Without the fill-or-kill preview only an order without quantity is refused. -/
lemma not_refused {b : OrderBook P} {o : Order P} (hq : 0 < o.qty) (ht : o.type ≠ .fok) :
    ¬ Refused b o := by
  rintro (h0 | ⟨hf, -⟩)
  · rw [Order.qty, h0] at hq
    exact Nat.lt_irrefl _ hq
  · exact ht hf

/-- The fills by prefix sums. -/
lemma fills_getElem? (b : OrderBook P) (o : Order P) (i : ℕ) :
    (fills b o)[i]? = (eligible b o)[i]?.bind fun m =>
      if prefixSum (eligible b o) i < o.qty then
        some (o.tradeWith m (min m.qty (o.qty - prefixSum (eligible b o) i)))
      else none := by
  rw [fills, List.getElem?_map, allot_getElem?]
  cases (eligible b o)[i]? with
  | none => rfl
  | some m =>
      simp only [Option.bind_some]
      by_cases h : prefixSum (eligible b o) i < o.qty
      · have h' : total Order.qty ((eligible b o).take i) < o.qty := h
        rw [if_pos h, if_pos h']
        rfl
      · have h' : ¬ total Order.qty ((eligible b o).take i) < o.qty := h
        rw [if_neg h, if_neg h']
        rfl

/-- The other side by prefix sums. -/
lemma drained_eq_survivors (b : OrderBook P) (o : Order P) :
    drained b o
      = survivorGroups Order.qty Order.cutTo o.qty 0
            ((b.side o.side.opposite).filter fun l => o.Crosses l.1)
          ++ ((b.side o.side.opposite).filter fun l => ¬ o.Crosses l.1) := by
  rw [drained, ← drain_sub, Nat.sub_zero]

/-- A resting remainder stands last in the level of its price and changes no other queue. -/
lemma queueAt_addOrder_matched {b : OrderBook P} (h : BookWF b) (o : Order P) (p : P) :
    (addOrder (matched b o) (remainder b o)).queueAt o.side p
      = if p = o.price then b.queueAt o.side p ++ [remainder b o] else b.queueAt o.side p := by
  have hside : (addOrder (matched b o) (remainder b o)).side o.side
      = pushBack o.side (remainder b o) (b.side o.side) := by
    rw [addOrder_eq, OrderBook.side_setIndex, ← side_matched b o]
    exact OrderBook.side_setSide _ _ _
  rw [OrderBook.queueAt, hside]
  exact queueAt_pushBack (h o.side) (remainder b o) p

/-- **Price-time priority**, in full: the trades by the prefix sums of the orders crossed;
the other side with the survivors of those sums in front and the orders not crossed behind
them; the own side unchanged but for the remainder of a LIMIT order, last in its level. -/
theorem submitOrder_priority {b : OrderBook P} (hb : Reachable b) (o : Order P)
    (hq : 0 < o.qty) (ht : o.type ≠ .fok) :
    (∀ i, (submitOrder b o).1[i]? = (eligible b o)[i]?.bind fun m =>
        if prefixSum (eligible b o) i < o.qty then
          some (o.tradeWith m (min m.qty (o.qty - prefixSum (eligible b o) i)))
        else none)
      ∧ (submitOrder b o).2.side o.side.opposite
        = survivorGroups Order.qty Order.cutTo o.qty 0
              ((b.side o.side.opposite).filter fun l => o.Crosses l.1)
            ++ ((b.side o.side.opposite).filter fun l => ¬ o.Crosses l.1)
      ∧ (¬ (o.type = .limit ∧ total Order.qty (eligible b o) < o.qty) →
          (submitOrder b o).2.side o.side = b.side o.side)
      ∧ (o.type = .limit → total Order.qty (eligible b o) < o.qty →
          ∀ p, (submitOrder b o).2.queueAt o.side p
            = if p = o.price then
                b.queueAt o.side p ++ [o.cutTo (o.qty - total Order.qty (eligible b o))]
              else b.queueAt o.side p)
      ∧ BookWF (submitOrder b o).2 := by
  have hwf := hb.wf
  have hsub := submitOrder_eq hwf o
  rw [if_neg (not_refused hq ht)] at hsub
  refine ⟨?_, ?_, ?_, ?_, wf_submitOrder hwf o⟩
  · intro i
    rw [hsub]
    exact fills_getElem? b o i
  · rw [hsub, ← drained_eq_survivors]
    by_cases hrests : Rests b o
    · have hne : o.side.opposite ≠ (remainder b o).side := o.side.opposite_ne
      simp only [if_pos hrests]
      rw [side_addOrder_of_ne _ hne, side_matched_opposite]
    · simp only [if_neg hrests]
      rw [side_matched_opposite]
  · intro hno
    have hrests : ¬ Rests b o := hno
    rw [hsub]
    simp only [if_neg hrests]
    rw [side_matched]
  · intro hl hlt p
    have hrests : Rests b o := ⟨hl, hlt⟩
    rw [hsub]
    simp only [if_pos hrests]
    exact queueAt_addOrder_matched hwf o p

/-- A BUY of 8 at 102 takes all of order 1, the nothing of order 2 and 3 of the 7 of
order 3. -/
theorem submitOrder_priority_sample :
    (submitOrder (after sampleCalls) ⟨9, .buy, 102, 8, 10, .limit⟩).1[2]?
      = some ⟨9, 3, 102, 3, 10⟩ := by
  have h := submitOrder_priority ⟨sampleCalls, rfl⟩ ⟨9, .buy, 102, 8, 10, .limit⟩
    (by decide) (by decide)
  exact (h.1 2).trans (by decide)

end Leviathan
