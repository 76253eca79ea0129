import Leviathan.Book.Calls

/-!
Fill-or-kill orders in 64-bit arithmetic.

The preview of `canFullyFill_` sums quantities modulo `2^64`.  A wrapped sum is never above
the exact one, so `previewLevels_true` holds without a bound on the book: an accepted
preview means that the orders in reach cover the order exactly.  The matching loop sees the
same orders, hence `submitOrder_fok`: all of the order is filled, as the same IOC order
would be, or nothing happens.
-/

namespace Leviathan

open Allotment

variable {P : Type*}

/-! ### The preview -/

lemma toNat_add_le (a b : UInt64) : (a + b).toNat ≤ a.toNat + b.toNat := by
  rw [UInt64.toNat_add]
  exact Nat.mod_le _ _

/-- The running sum of the preview never exceeds the exact one. -/
lemma previewQueue_le (needed available : UInt64) (q : List (Order P)) :
    (previewQueue needed available q = none →
        needed.toNat ≤ available.toNat + total Order.qty q)
      ∧ ∀ a, previewQueue needed available q = some a →
        a.toNat ≤ available.toNat + total Order.qty q := by
  induction q generalizing available with
  | nil => simp [previewQueue]
  | cons o q ih =>
      have hadd : (available + o.quantity).toNat ≤ available.toNat + o.qty := toNat_add_le _ _
      obtain ⟨ihnone, ihsome⟩ := ih (available + o.quantity)
      rw [total_cons]
      by_cases hle : needed ≤ available + o.quantity
      · have hle' := UInt64.le_iff_toNat_le.mp hle
        simp only [previewQueue, if_pos hle]
        exact ⟨fun _ => by omega, fun a ha => by simp at ha⟩
      · simp only [previewQueue, if_neg hle]
        constructor
        · intro h
          have := ihnone h
          omega
        · intro a ha
          have := ihsome a ha
          omega

/-- **No false yes**: an accepted preview is covered by the exact sum of the quantities in
front of the first level that does not cross. -/
lemma previewLevels_true {crosses : P → Bool} {needed available : UInt64} {m : SideMap P}
    (h : previewLevels crosses needed available m = true) :
    needed.toNat
      ≤ available.toNat + total Order.qty (orders (m.takeWhile fun l => crosses l.1)) := by
  induction m generalizing available with
  | nil => simp [previewLevels] at h
  | cons l m ih =>
      obtain ⟨p, q⟩ := l
      obtain ⟨hnone, hsome⟩ := previewQueue_le needed available q
      rw [previewLevels] at h
      split_ifs at h with hc
      have htake : List.takeWhile (fun l => crosses l.1) ((p, q) :: m)
          = (p, q) :: m.takeWhile fun l => crosses l.1 := by simp [hc]
      rw [htake, orders_cons, total_append]
      split at h
      · rename_i hq
        have := hnone hq
        omega
      · rename_i a hq
        have h1 := hsome a hq
        have h2 := ih h
        omega

variable [LinearOrder P]

lemma canFullyFill_eq (b : OrderBook P) (s : Side) (p : P) (q : UInt64) :
    canFullyFill b s p q = previewLevels (fun x => s.Within x p) q 0 (b.side s.opposite) := by
  cases s <;> rfl

/-- An accepted preview of an order that is not MARKET is covered by the orders it crosses. -/
lemma le_total_eligible {b : OrderBook P} (h : BookWF b) {o : Order P} (ht : o.type ≠ .market)
    (hf : canFullyFill b o.side o.price o.quantity = true) :
    o.qty ≤ total Order.qty (eligible b o) := by
  rw [canFullyFill_eq] at hf
  have hle := previewLevels_true hf
  have hcross : (fun l : P × List (Order P) => decide (o.side.Within l.1 o.price))
      = fun l => decide (o.Crosses l.1) := by
    funext l
    rw [Bool.eq_iff_iff]
    simp [Order.Crosses, ht]
  obtain ⟨htake, -, helig⟩ := crossing_levels h o
  rw [hcross, htake, helig, UInt64.toNat_zero, Nat.zero_add] at hle
  exact hle

/-! ### The fills -/

/-- The trades of an incoming order add up exactly. -/
lemma sum_fills (b : OrderBook P) (o : Order P) :
    ((fills b o).map fun t => t.quantity.toNat).sum
      = min o.qty (total Order.qty (eligible b o)) := by
  calc ((fills b o).map fun t => t.quantity.toNat).sum
      = ((allot Order.qty o.qty (eligible b o)).map Prod.snd).sum := by
        rw [fills, List.map_map]
        exact congrArg List.sum
          (List.map_congr_left fun f hf => toNat_quantity_of_mem_allot hf)
    _ = min o.qty (total Order.qty (eligible b o)) := sum_allot _ _ _

/-- The order sent as another type. -/
def Order.withType (o : Order P) (t : OrderType) : Order P := { o with type := t }

/-- Beyond the preview a fill-or-kill order goes the way of the same IOC order. -/
lemma submitOrder_fok_eq_ioc {b : OrderBook P} (h : BookWF b) {o : Order P}
    (ht : o.type = .fok) (hno : ¬ Refused b o) :
    submitOrder b o = submitOrder b (o.withType .ioc)
      ∧ submitOrder b o = (fills b o, matched b o) := by
  have hcross : ∀ p, o.Crosses p ↔ (o.withType .ioc).Crosses p := fun p => by
    simp [Order.Crosses, Order.withType, ht]
  have helig : eligible b o = eligible b (o.withType .ioc) := by
    refine List.filter_congr fun m _ => ?_
    rw [decide_eq_decide]
    exact hcross m.price
  have hfills : fills b o = fills b (o.withType .ioc) := by
    rw [fills, fills, helig]
    rfl
  have hmatched : matched b o = matched b (o.withType .ioc) := by
    have hdr : drained b o = drained b (o.withType .ioc) := by
      simp only [drained, hcross]
      rfl
    rw [matched, matched, helig, hdr]
    rfl
  have hno' : ¬ Refused b (o.withType .ioc) := by
    rintro (h0 | ⟨hf, -⟩)
    · exact hno (Or.inl h0)
    · exact absurd hf (by simp [Order.withType])
  have hrest : ¬ Rests b o := fun hr => by simp [hr.1] at ht
  have hrest' : ¬ Rests b (o.withType .ioc) := fun hr => by simp [Rests, Order.withType] at hr
  have h1 : submitOrder b o = (fills b o, matched b o) := by
    rw [submitOrder_eq h, if_neg hno, if_neg hrest]
  refine ⟨?_, h1⟩
  rw [h1, submitOrder_eq h, if_neg hno', if_neg hrest', hfills, hmatched]

/-- **Fill or kill**: the order is turned away and the book kept as it was, or all of it is
filled with the trades and the book of the same IOC order.  It rests in neither case. -/
theorem submitOrder_fok {b : OrderBook P} (hb : Reachable b) (o : Order P)
    (ht : o.type = .fok) :
    (submitOrder b o = ([], b)
        ∨ ((submitOrder b o).1.map fun t => t.quantity.toNat).sum = o.qty
          ∧ submitOrder b o = submitOrder b (o.withType .ioc))
      ∧ (submitOrder b o).2.side o.side = b.side o.side := by
  by_cases hr : Refused b o
  · have heq : submitOrder b o = ([], b) := by rw [submitOrder_eq hb.wf, if_pos hr]
    exact ⟨Or.inl heq, by rw [heq]⟩
  · obtain ⟨hioc, heq⟩ := submitOrder_fok_eq_ioc hb.wf ht hr
    have hfull : canFullyFill b o.side o.price o.quantity = true := by
      by_contra hf
      exact hr (Or.inr ⟨ht, by simpa using hf⟩)
    have hle := le_total_eligible hb.wf (by simp [ht]) hfull
    refine ⟨Or.inr ⟨?_, hioc⟩, ?_⟩
    · rw [heq, sum_fills, min_eq_left hle]
    · rw [heq, side_matched]

/-- A fill-or-kill SELL of 9 at 98 takes 4 at 99 and 5 at 98. -/
theorem submitOrder_fok_sample :
    ((submitOrder (after sampleCalls) ⟨9, .sell, 98, 9, 10, .fok⟩).1.map
      fun t => t.quantity.toNat).sum = 9 := by
  have h := submitOrder_fok ⟨sampleCalls, rfl⟩ ⟨9, .sell, 98, 9, 10, .fok⟩ rfl
  rcases h.1 with h0 | h1
  · exact absurd h0 (by decide)
  · exact h1.1

end Leviathan
