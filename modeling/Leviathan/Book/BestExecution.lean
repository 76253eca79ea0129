import Leviathan.Book.FillOrKill

/-!
How an order is executed, against every other way and under every other type.

* `best_execution`: an incoming order that is not killed trades as much as it can, and of all the
  ways to take as much from the orders it crosses its own trades are the best for it, at any value
  of the prices that goes with the order in which they are matched: a buy pays the least, a sell is
  paid the most, and no price is reached before every better one is taken up.
* `order_types`: a limit cuts the trades of the MARKET order, and of every wider limit; LIMIT is IOC
  with the remainder added.
-/

namespace Leviathan

open Allotment

variable {P : Type*} [LinearOrder P]

/-- The orders in reach stand in the order of priority. -/
lemma eligible_sorted {b : OrderBook P} (h : BookWF b) (o : Order P) :
    (eligible b o).Pairwise fun x y => ¬ OrderBefore o.side.opposite y x :=
  (h o.side.opposite).orders_sorted.filter _

section Worth

variable {M : Type*} [AddCommMonoid M] (v : P → M)

/-- What trades are worth, at a value for a unit at each price. -/
def tradesWorth (ts : List (Trade P)) : M := (ts.map fun t => t.quantity.toNat • v t.price).sum

lemma tradesWorth_fills (b : OrderBook P) (o : Order P) :
    tradesWorth v (fills b o)
      = worth (fun m => v m.price) (allot Order.qty o.qty (eligible b o)) := by
  rw [tradesWorth, worth, fills, List.map_map]
  refine congrArg List.sum (List.map_congr_left fun f hf => ?_)
  show (o.tradeWith f.1 f.2).quantity.toNat • v (o.tradeWith f.1 f.2).price = _
  rw [toNat_quantity_of_mem_allot hf, Order.tradeWith_price]

end Worth

/-- **Best execution.**  Let `amounts` be any way to take from each order in reach at most what it
holds.  One that is within the quantity of an order which is not fill-or-kill takes no more than the
order trades; and one that takes as much as the order trades is worth at least as much, at every
value that does not fall from a price to one with less priority. -/
theorem best_execution {M : Type*} [AddCommMonoid M] [PartialOrder M] [IsOrderedAddMonoid M]
    {b : OrderBook P} (hb : Reachable b) (o : Order P) (v : P → M)
    (hv : ∀ p q, o.side.opposite.before p q → v p ≤ v q) (amounts : List ℕ)
    (ha : List.Forall₂ (fun (m : Order P) n => n ≤ m.qty) (eligible b o) amounts) :
    let ts := (submitOrder b o).1
    let traded := (ts.map fun t => t.quantity.toNat).sum
    (o.type ≠ .fok → amounts.sum ≤ o.qty → amounts.sum ≤ traded)
      ∧ (amounts.sum = traded →
          tradesWorth v ts ≤ worth (fun m => v m.price) ((eligible b o).zip amounts)) := by
  intro ts traded
  have hle : amounts.sum ≤ total Order.qty (eligible b o) := sum_le_total Order.qty ha
  have hsorted : (eligible b o).Pairwise fun x y => v x.price ≤ v y.price := by
    refine (eligible_sorted hb.wf o).imp fun {x y} hxy => ?_
    rcases trichotomous_of o.side.opposite.before x.price y.price with hlt | heq | hgt
    · exact hv _ _ hlt
    · exact (congrArg v heq).le
    · exact absurd hgt hxy
  have hfills : ∀ Q, amounts.sum = min Q (total Order.qty (eligible b o)) →
      worth (fun m => v m.price) (allot Order.qty Q (eligible b o))
        ≤ worth (fun m => v m.price) ((eligible b o).zip amounts) := fun Q hsum =>
    worth_allot_le Order.qty _ ha hsorted hsum
  by_cases hr : Refused b o
  · have hts : ts = [] := congrArg Prod.fst ((submitOrder_eq hb.wf o).trans (if_pos hr))
    have htraded : traded = 0 := by
      show (ts.map fun t => t.quantity.toNat).sum = 0
      rw [hts]
      rfl
    refine ⟨fun ht hq => ?_, fun hsum => ?_⟩
    · have hzero : o.qty = 0 := by
        obtain h0 | ⟨hfok, -⟩ := hr
        · rw [Order.qty, h0]
          rfl
        · exact absurd hfok ht
      omega
    · rw [hts]
      have h := hfills 0 (by omega)
      rwa [allot_zero] at h
  · have hts : ts = fills b o := by
      show (submitOrder b o).1 = fills b o
      rw [submitOrder_eq hb.wf, if_neg hr]
    have htraded : traded = min o.qty (total Order.qty (eligible b o)) := by
      show (ts.map fun t => t.quantity.toNat).sum = _
      rw [hts, sum_fills]
    refine ⟨fun _ hq => by omega, fun hsum => ?_⟩
    rw [hts, tradesWorth_fills]
    exact hfills o.qty (hsum.trans htraded)

/-- A buy of 8 pays 811, the 5 asked at 101 first; to take one of these and 7 behind costs 815. -/
theorem best_execution_sample :
    let b := after sampleCalls
    let o : Order ℤ := ⟨9, .buy, 103, 8, 10, .ioc⟩
    tradesWorth id (submitOrder b o).1 = 811
      ∧ worth (fun m : Order ℤ => id m.price) ((eligible b o).zip [1, 0, 7]) = 815
      ∧ tradesWorth id (submitOrder b o).1
        ≤ worth (fun m : Order ℤ => id m.price) ((eligible b o).zip [1, 0, 7]) := by
  intro b o
  refine ⟨by decide, by decide, ?_⟩
  exact (best_execution ⟨sampleCalls, rfl⟩ o id (fun p q h => h.le) [1, 0, 7] (by decide)).2
    (by decide)

/-! ### Limits and types -/

/-- The order at another limit. -/
def Order.withPrice (o : Order P) (p : P) : Order P := { o with price := p }

section Types

variable {b : OrderBook P} {o o' : Order P}

/-- **A narrower order** fills as the wider one does, as far as it crosses. -/
lemma fills_narrower (h : BookWF b) (hsame : o' = (o.withPrice o'.price).withType o'.type)
    (hcross : ∀ p, o'.Crosses p → o.Crosses p) :
    fills b o' = (fills b o).filter fun t => o'.Crosses t.price := by
  have hside : o'.side = o.side := by rw [hsame]; rfl
  have hqty : o'.qty = o.qty := by rw [hsame]; rfl
  have htrade : ∀ f : Order P × ℕ, o'.tradeWith f.1 f.2 = o.tradeWith f.1 f.2 := fun f => by
    rw [hsame]
    rfl
  -- the wider order meets the orders of the narrower one first
  have heligible : eligible b o
      = eligible b o' ++ (ineligible b o').filter fun m => o.Crosses m.price := by
    have hsplit := eligible_append_ineligible h o'
    rw [hside] at hsplit
    have hself : (eligible b o').filter (fun m => o.Crosses m.price) = eligible b o' := by
      refine List.filter_eq_self.mpr fun m hm => decide_eq_true (hcross m.price ?_)
      simpa using (List.mem_filter.mp hm).2
    rw [eligible, hsplit, List.filter_append, hself]
  have hin : ∀ f ∈ allot Order.qty o.qty (eligible b o'),
      o'.Crosses (o.tradeWith f.1 f.2).price := by
    intro f hf
    rw [Order.tradeWith_price]
    simpa using (List.mem_filter.mp (mem_of_mem_allot _ hf)).2
  have hout : ∀ Q, ∀ f ∈ allot Order.qty Q ((ineligible b o').filter fun m => o.Crosses m.price),
      ¬ o'.Crosses (o.tradeWith f.1 f.2).price := by
    intro Q f hf
    rw [Order.tradeWith_price]
    simpa using (List.mem_filter.mp (List.mem_of_mem_filter (mem_of_mem_allot _ hf))).2
  simp only [fills, heligible, hqty, htrade]
  rw [allot_append, List.map_append, List.filter_append, List.filter_eq_self.mpr,
    List.filter_eq_nil_iff.mpr, List.append_nil]
  · intro t ht
    obtain ⟨f, hf, rfl⟩ := List.mem_map.mp ht
    simpa using hout _ f hf
  · intro t ht
    obtain ⟨f, hf, rfl⟩ := List.mem_map.mp ht
    simpa using hin f hf

/-- The matching of an order under another type that crosses the same prices. -/
lemma matched_withType {t : OrderType} (hcross : ∀ p, (o.withType t).Crosses p ↔ o.Crosses p) :
    fills b (o.withType t) = fills b o ∧ matched b (o.withType t) = matched b o := by
  have heligible : eligible b (o.withType t) = eligible b o :=
    List.filter_congr fun m _ => decide_eq_decide.mpr (hcross m.price)
  have hdrained : drained b (o.withType t) = drained b o := by
    simp only [drained, hcross]
    rfl
  refine ⟨?_, ?_⟩
  · rw [fills, fills, heligible]
    rfl
  · rw [matched, matched, heligible, hdrained]
    rfl

/-- The trades of an order that is not fill-or-kill are its fills. -/
lemma trades_of_not_fok (h : BookWF b) (ht : o.type ≠ .fok) :
    (submitOrder b o).1 = fills b o := by
  rw [submitOrder_eq h]
  by_cases hr : Refused b o
  · rw [if_pos hr]
    obtain h0 | ⟨hfok, -⟩ := hr
    · rw [fills, Order.qty, h0, UInt64.toNat_zero, allot_zero, List.map_nil]
    · exact absurd hfok ht
  · rw [if_neg hr]

/-- A LIMIT order is the IOC order with its remainder added. -/
lemma submitOrder_limit (h : BookWF b) (hlimit : o.type = .limit) :
    let r := submitOrder b (o.withType .ioc)
    let rest := o.qty - (r.1.map fun t => t.quantity.toNat).sum
    submitOrder b o = (r.1, if rest = 0 then r.2 else addOrder r.2 (o.cutTo rest)) := by
  intro r rest
  by_cases hq : o.quantity = 0
  · have hnone : ∀ o' : Order P, o'.quantity = 0 → submitOrder b o' = ([], b) := fun o' h' =>
      (submitOrder_eq h o').trans (if_pos (Or.inl h'))
    have hr : r = ([], b) := hnone (o.withType .ioc) hq
    have hrest : rest = 0 := by
      show o.qty - _ = 0
      rw [Order.qty, hq]
      exact Nat.zero_sub _
    rw [hnone o hq, hr, if_pos hrest]
  · obtain ⟨hfills, hmatched⟩ := matched_withType (b := b) (o := o) (t := .ioc) fun x => by
      simp [Order.Crosses, Order.withType, hlimit]
    have hrefused : ∀ {o' : Order P}, o'.quantity ≠ 0 → o'.type ≠ .fok → ¬ Refused b o' :=
      fun hq' hfok hr => hr.elim hq' fun hr => hfok hr.1
    have hr : r = (fills b o, matched b o) := by
      show submitOrder b (o.withType .ioc) = _
      have hrefused' : ¬ Refused b (o.withType .ioc) := hrefused hq OrderType.noConfusion
      have hrests : ¬ Rests b (o.withType .ioc) := fun hrests => OrderType.noConfusion hrests.1
      rw [submitOrder_eq h, if_neg hrefused', if_neg hrests, hfills, hmatched]
    have hrest : rest = o.qty - total Order.qty (eligible b o) := by
      show o.qty - (r.1.map fun t => t.quantity.toNat).sum = _
      rw [hr, sum_fills]
      omega
    rw [submitOrder_eq h, if_neg (hrefused hq (by simp [hlimit])), hr, hrest]
    by_cases hrests : Rests b o
    · have hlt := hrests.2
      rw [if_pos hrests, if_neg (by omega)]
      rfl
    · have hle : o.qty ≤ total Order.qty (eligible b o) :=
        not_lt.mp fun hlt => hrests ⟨hlimit, hlt⟩
      rw [if_neg hrests, if_pos (Nat.sub_eq_zero_of_le hle)]

end Types

/-- **Limits and types.**  On every reachable book: a LIMIT or IOC order trades what the same MARKET
order trades, as far as it is within the limit; with a narrower limit it trades what it trades with
the wider one, as far as it is within the narrower; and a LIMIT order is the IOC order, with what
this leaves of it added to the book. -/
theorem order_types {b : OrderBook P} (hb : Reachable b) (o : Order P)
    (ht : o.type = .limit ∨ o.type = .ioc) :
    ((submitOrder b o).1
        = (submitOrder b (o.withType .market)).1.filter fun t => o.side.Within t.price o.price)
      ∧ (∀ p, o.side.Within p o.price → (submitOrder b (o.withPrice p)).1
        = (submitOrder b o).1.filter fun t => o.side.Within t.price p)
      ∧ (o.type = .limit →
          let r := submitOrder b (o.withType .ioc)
          let rest := o.qty - (r.1.map fun t => t.quantity.toNat).sum
          submitOrder b o = (r.1, if rest = 0 then r.2 else addOrder r.2 (o.cutTo rest))) := by
  have hmarket : o.type ≠ .market := by rcases ht with ht | ht <;> simp [ht]
  have hfok : o.type ≠ .fok := by rcases ht with ht | ht <;> simp [ht]
  have hcross : ∀ (p x : P), (o.withPrice p).Crosses x ↔ o.side.Within x p := fun p x =>
    or_iff_right hmarket
  have hmarketed : o = ((o.withType .market).withPrice o.price).withType o.type := rfl
  refine ⟨?_, fun p hp => ?_, fun hlimit => ?_⟩
  · rw [trades_of_not_fok hb.wf hfok,
      trades_of_not_fok hb.wf (show (o.withType .market).type ≠ .fok by simp [Order.withType]),
      fills_narrower hb.wf hmarketed fun x _ => .inl rfl]
    exact List.filter_congr fun t _ => decide_eq_decide.mpr (hcross o.price t.price)
  · have hwider : ∀ x, (o.withPrice p).Crosses x → o.Crosses x := by
      intro x hx
      have hx := (hcross p x).mp hx
      refine (hcross o.price x).mpr ?_
      cases hside : o.side with
      | buy =>
          rw [hside] at hx hp
          exact le_trans hx hp
      | sell =>
          rw [hside] at hx hp
          exact le_trans hp hx
    have hpriced : o.withPrice p = (o.withPrice (o.withPrice p).price).withType
        (o.withPrice p).type := rfl
    rw [trades_of_not_fok hb.wf hfok, trades_of_not_fok (o := o.withPrice p) hb.wf hfok,
      fills_narrower hb.wf hpriced hwider]
    exact List.filter_congr fun t _ => decide_eq_decide.mpr (hcross p t.price)
  · exact submitOrder_limit hb.wf hlimit

/-- A buy of 8 at 101 gets those of the three trades of a buy at 102 that are at 101. -/
theorem order_types_sample :
    let o : Order ℤ := ⟨9, .buy, 102, 8, 10, .limit⟩
    (submitOrder (after sampleCalls) o).1.length = 3
      ∧ (submitOrder (after sampleCalls) (o.withPrice 101)).1
        = (submitOrder (after sampleCalls) o).1.filter fun t => t.price ≤ 101 := by
  intro o
  exact ⟨by decide, (order_types ⟨sampleCalls, rfl⟩ o (.inl rfl)).2.1 101 (by decide)⟩

end Leviathan
