import Leviathan.Book.FillOrKill

/-!
The fill-or-kill preview in closed form, and the orders it wrongly kills.

The running sum `available` of `canFullyFillFromMap_` is a 64-bit word.  `previewLevels_eq`
flattens its two loops into one over the orders in reach, and `canFullyFill_iff` is what that
loop decides: some prefix of these orders has an exact sum whose remainder modulo `2^64` is at
least the quantity asked for.  Where no sum wraps this is the comparison with the whole sum
(`canFullyFill_iff_of_lt`).  Where one does, the preview can deny an order that the book covers
many times over; `submitOrder_fok_killed_iff` says exactly when it does not.
-/

namespace Leviathan

open Allotment

variable {P : Type*}

lemma previewQueue_append (needed available : UInt64) (q q' : List (Order P)) :
    previewQueue needed available (q ++ q')
      = (previewQueue needed available q).bind fun a => previewQueue needed a q' := by
  induction q generalizing available with
  | nil => rfl
  | cons o q ih =>
      rw [List.cons_append]
      simp only [previewQueue]
      split_ifs
      · rfl
      · exact ih _

/-- The two loops of the preview are one loop over the orders in front of the first level that
does not cross. -/
lemma previewLevels_eq (crosses : P → Bool) (needed available : UInt64) (m : SideMap P) :
    previewLevels crosses needed available m
      = (previewQueue needed available (orders (m.takeWhile fun l => crosses l.1))).isNone := by
  induction m generalizing available with
  | nil => rfl
  | cons l m ih =>
      obtain ⟨p, q⟩ := l
      rw [previewLevels]
      by_cases hc : crosses p = true
      · have htake : List.takeWhile (fun l => crosses l.1) ((p, q) :: m)
            = (p, q) :: m.takeWhile fun l => crosses l.1 := by simp [hc]
        rw [if_pos hc, htake, orders_cons, previewQueue_append]
        cases previewQueue needed available q with
        | none => rfl
        | some a => exact ih a
      · have htake : List.takeWhile (fun l => crosses l.1) ((p, q) :: m) = [] := by simp [hc]
        rw [if_neg hc, htake]
        rfl

/-- The running sum of the preview is the exact prefix sum, reduced to a word. -/
lemma previewQueue_eq_none (needed available : UInt64) (q : List (Order P)) :
    previewQueue needed available q = none ↔ ∃ i < q.length,
      needed.toNat ≤ (available.toNat + total Order.qty (q.take (i + 1))) % 2 ^ 64 := by
  induction q generalizing available with
  | nil => simp [previewQueue]
  | cons o q ih =>
      have hword : (available + o.quantity).toNat = (available.toNat + o.qty) % 2 ^ 64 :=
        UInt64.toNat_add _ _
      have hfirst : needed ≤ available + o.quantity
          ↔ needed.toNat ≤ (available.toNat + o.qty) % 2 ^ 64 := by
        rw [UInt64.le_iff_toNat_le, hword]
      have hrest : ∀ i, ((available + o.quantity).toNat + total Order.qty (q.take (i + 1))) % 2 ^ 64
          = (available.toNat + total Order.qty ((o :: q).take (i + 1 + 1))) % 2 ^ 64 := by
        intro i
        rw [hword, Nat.mod_add_mod, List.take_succ_cons, total_cons, Nat.add_assoc]
      have hsplit : (∃ i < (o :: q).length, needed.toNat
            ≤ (available.toNat + total Order.qty ((o :: q).take (i + 1))) % 2 ^ 64)
          ↔ needed ≤ available + o.quantity ∨ ∃ i < q.length, needed.toNat
            ≤ ((available + o.quantity).toNat + total Order.qty (q.take (i + 1))) % 2 ^ 64 := by
        simp only [List.length_cons, Nat.exists_lt_succ_left, hrest]
        rw [hfirst]
        simp
      rw [hsplit, ← ih]
      by_cases hle : needed ≤ available + o.quantity
      · simp [previewQueue, hle]
      · simp [previewQueue, hle]

variable [LinearOrder P]

/-- **What the preview decides**: a prefix of the orders in reach whose sum, reduced to a word,
is at least the quantity asked for. -/
lemma canFullyFill_iff {b : OrderBook P} (h : BookWF b) {o : Order P} (ht : o.type ≠ .market) :
    canFullyFill b o.side o.price o.quantity = true ↔ ∃ i < (eligible b o).length,
      o.qty ≤ total Order.qty ((eligible b o).take (i + 1)) % 2 ^ 64 := by
  have hcross : (fun l : P × List (Order P) => decide (o.side.Within l.1 o.price))
      = fun l => decide (o.Crosses l.1) := by
    funext l
    rw [Bool.eq_iff_iff]
    simp [Order.Crosses, ht]
  obtain ⟨htake, -, helig⟩ := crossing_levels h o
  rw [canFullyFill_eq, previewLevels_eq, hcross, htake, helig, Option.isNone_iff_eq_none,
    previewQueue_eq_none]
  simp only [UInt64.toNat_zero, Nat.zero_add, Order.qty]

/-- Where no sum of the orders in reach wraps, the preview compares with all of it. -/
lemma canFullyFill_iff_of_lt {b : OrderBook P} (h : BookWF b) {o : Order P}
    (ht : o.type ≠ .market) (hq : o.quantity ≠ 0)
    (hlt : total Order.qty (eligible b o) < 2 ^ 64) :
    canFullyFill b o.side o.price o.quantity = true ↔ o.qty ≤ total Order.qty (eligible b o) := by
  refine ⟨le_total_eligible h ht, fun hle => ?_⟩
  have hpos : o.qty ≠ 0 := Order.quantity_ne_zero_iff.mp hq
  have hne : (eligible b o).length ≠ 0 := by
    intro h0
    rw [List.eq_nil_of_length_eq_zero h0, total_nil] at hle
    omega
  refine (canFullyFill_iff h ht).mpr ⟨(eligible b o).length - 1, by omega, ?_⟩
  rwa [show (eligible b o).length - 1 + 1 = (eligible b o).length by omega, List.take_length,
    Nat.mod_eq_of_lt hlt]

/-! ### The orders that are killed -/

/-- Some prefix of the orders in reach has a sum that is at least the quantity of the order even
after it is reduced modulo `2^64`. -/
def SumReaches (b : OrderBook P) (o : Order P) : Prop :=
  ∃ i < (eligible b o).length, o.qty ≤ total Order.qty ((eligible b o).take (i + 1)) % 2 ^ 64

/-- A fill-or-kill order fills completely or returns no trade, and the sums decide which. -/
lemma fok_trades {b : OrderBook P} (h : BookWF b) {o : Order P} (ht : o.type = .fok)
    (hq : o.quantity ≠ 0) :
    ((submitOrder b o).1 = [] ↔ ¬ SumReaches b o)
      ∧ (((submitOrder b o).1.map fun t => t.quantity.toNat).sum = o.qty ↔ SumReaches b o) := by
  have hnm : o.type ≠ .market := by simp [ht]
  have hpos : o.qty ≠ 0 := Order.quantity_ne_zero_iff.mp hq
  have hcan : canFullyFill b o.side o.price o.quantity = true ↔ SumReaches b o :=
    canFullyFill_iff h hnm
  by_cases hs : SumReaches b o
  · have hr : ¬ Refused b o := by
      rintro (h0 | ⟨-, hf⟩)
      · exact hq h0
      · rw [hcan.mpr hs] at hf
        simp at hf
    have hsum : ((submitOrder b o).1.map fun t => t.quantity.toNat).sum = o.qty := by
      rw [(submitOrder_fok_eq_ioc h ht hr).2, sum_fills,
        min_eq_left (le_total_eligible h hnm (hcan.mpr hs))]
    refine ⟨iff_of_false (fun hnil => ?_) (not_not_intro hs), iff_of_true hsum hs⟩
    rw [hnil, List.map_nil, List.sum_nil] at hsum
    omega
  · have hr : Refused b o := by
      refine Or.inr ⟨ht, ?_⟩
      cases hf : canFullyFill b o.side o.price o.quantity with
      | false => rfl
      | true => exact absurd (hcan.mp hf) hs
    have hnil : (submitOrder b o).1 = [] := by rw [submitOrder_eq h, if_pos hr]
    refine ⟨iff_of_true hnil hs, iff_of_false (fun hsum => ?_) hs⟩
    rw [hnil, List.map_nil, List.sum_nil] at hsum
    omega

/-- What the same order fills as IOC. -/
lemma sum_ioc {b : OrderBook P} (h : BookWF b) {o : Order P} (ht : o.type = .fok)
    (hq : o.quantity ≠ 0) :
    ((submitOrder b (o.withType .ioc)).1.map fun t => t.quantity.toNat).sum
      = min o.qty (total Order.qty (eligible b o)) := by
  have hr : ¬ Refused b (o.withType .ioc) := by
    rintro (h0 | ⟨hf, -⟩)
    · exact hq h0
    · simp [Order.withType] at hf
  have helig : eligible b (o.withType .ioc) = eligible b o := by
    refine List.filter_congr fun m _ => ?_
    simp [Order.Crosses, Order.withType, ht]
  rw [submitOrder_eq h, if_neg hr, sum_fills, helig]
  rfl

/-- **When a fill-or-kill order is killed only for lack of liquidity**: a killed order asked for
more than the orders in reach hold, and a complete fill as IOC is one as FOK, exactly when a
book that covers the order covers it with a prefix sum that still does so as a word. -/
theorem submitOrder_fok_killed_iff {b : OrderBook P} (hb : Reachable b) (o : Order P)
    (ht : o.type = .fok) (hq : o.quantity ≠ 0) :
    (((submitOrder b o).1 = [] → total Order.qty (eligible b o) < o.qty)
        ↔ (o.qty ≤ total Order.qty (eligible b o) → SumReaches b o))
      ∧ ((((submitOrder b (o.withType .ioc)).1.map fun t => t.quantity.toNat).sum = o.qty →
            ((submitOrder b o).1.map fun t => t.quantity.toNat).sum = o.qty)
        ↔ (o.qty ≤ total Order.qty (eligible b o) → SumReaches b o)) := by
  obtain ⟨hnil, hfull⟩ := fok_trades hb.wf ht hq
  rw [sum_ioc hb.wf ht hq, min_eq_left_iff, hfull]
  refine ⟨?_, Iff.rfl⟩
  rw [hnil, ← not_le]
  exact not_imp_not

/-- The two bids of the sample hold ten; a fill-or-kill order for eleven of them is killed. -/
theorem submitOrder_fok_killed_iff_sample :
    (submitOrder (after sampleCalls) ⟨9, .sell, 98, 11, 10, .fok⟩).1 = []
      ∧ total Order.qty (eligible (after sampleCalls) ⟨9, .sell, 98, 11, 10, .fok⟩) < 11 := by
  have hkilled : (submitOrder (after sampleCalls) ⟨9, .sell, 98, 11, 10, .fok⟩).1 = [] := by decide
  have h := submitOrder_fok_killed_iff ⟨sampleCalls, rfl⟩ ⟨9, .sell, 98, 11, 10, .fok⟩ rfl
    (by decide)
  exact ⟨hkilled, h.1.mpr (fun hle => absurd hle (by decide)) hkilled⟩

/-- A book of two asks of `2^63` at 100. -/
def wrappingCalls : List (Call ℤ) :=
  [.addOrder ⟨1, .sell, 100, 0x8000000000000000, 0, .limit⟩,
   .addOrder ⟨2, .sell, 100, 0x8000000000000000, 1, .limit⟩]

/-- The preview counts `2^63`, then zero, and denies the order that both asks together cover. -/
theorem fok_killed_in_covered_book :
    (submitOrder (after wrappingCalls) ⟨9, .buy, 100, 0x8000000000000001, 2, .fok⟩).1 = []
      ∧ ¬ total Order.qty
          (eligible (after wrappingCalls) ⟨9, .buy, 100, 0x8000000000000001, 2, .fok⟩)
        < 0x8000000000000001 := by
  decide +kernel

end Leviathan
