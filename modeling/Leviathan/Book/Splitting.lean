import Leviathan.Book.Index
import Leviathan.Book.Priority

/-!
A taker in two parts.

An order that never rests leaves of the book what the demand of its quantity leaves, so two of
them after each other leave what one of both quantities leaves (`Allotment.keep_keep`), wherever
in the book the first one ends: inside an order, behind one, in front of an order without
quantity or beyond all that it can meet.

* `SameReach o o'`: the two orders cross the same prices of the same side.
* `matched_matched`: two loops after each other are one, on levels and index.
* `split_taker`: the same for the calls, with what they trade by maker and by price.
-/

namespace Leviathan

open Allotment

variable {P : Type*}

/-- The resting party of a trade of an incoming order of a side. -/
def Trade.makerId (s : Side) (t : Trade P) : UInt64 :=
  match s with
  | .buy => t.sellOrderId
  | .sell => t.buyOrderId

/-- The quantity traded, by takers of a side, at those makers and prices that pass the test. -/
def tradedWhere (s : Side) (c : UInt64 → P → Bool) (ts : List (Trade P)) : ℕ :=
  (ts.map fun t => if c (t.makerId s) t.price then t.quantity.toNat else 0).sum

lemma tradedWhere_append (s : Side) (c : UInt64 → P → Bool) (ts ts' : List (Trade P)) :
    tradedWhere s c (ts ++ ts') = tradedWhere s c ts + tradedWhere s c ts' := by
  simp [tradedWhere]

lemma eraseIds_append (l l' : List (Order P)) (ix : OrderIndex P) :
    eraseIds (l ++ l') ix = eraseIds l' (eraseIds l ix) := List.foldl_append

/-- The index sees of the orders that leave it their ids. -/
lemma eraseIds_congr {l l' : List (Order P)} (h : l.map Order.id = l'.map Order.id)
    (ix : OrderIndex P) : eraseIds l ix = eraseIds l' ix := by
  have hids : ∀ l : List (Order P),
      eraseIds l ix = (l.map Order.id).foldl (fun ix id => ix.erase id) ix := fun l => by
    rw [List.foldl_map]
    rfl
  rw [hids, hids, h]

variable [LinearOrder P]

/-- The two orders are on one side and cross the same prices. -/
structure SameReach (o o' : Order P) : Prop where
  side : o'.side = o.side
  crosses : ∀ p, o'.Crosses p ↔ o.Crosses p

namespace SameReach

variable {b : OrderBook P} {o o' : Order P}

lemma eligible (h : SameReach o o') : eligible b o' = eligible b o := by
  rw [Leviathan.eligible, Leviathan.eligible, h.side]
  exact List.filter_congr fun m _ => by simp only [h.crosses]

lemma ineligible (h : SameReach o o') : ineligible b o' = ineligible b o := by
  rw [Leviathan.ineligible, Leviathan.ineligible, h.side]
  exact List.filter_congr fun m _ => by simp only [h.crosses]

/-- The second order finds what the first one has left of the orders both can meet. -/
lemma reach_matched (hwf : BookWF b) (h : SameReach o o') :
    Leviathan.eligible (matched b o) o' = keep Order.qty Order.cutTo o.qty (Leviathan.eligible b o)
      ∧ Leviathan.ineligible (matched b o) o' = Leviathan.ineligible b o := by
  have hleft : ∀ x ∈ keep Order.qty Order.cutTo o.qty (Leviathan.eligible b o),
      o.Crosses x.price := by
    intro x hx
    rcases mem_keep _ _ hx with hx | ⟨a, ha, n, rfl⟩
    · simpa using (List.mem_filter.mp hx).2
    · simpa using (List.mem_filter.mp ha).2
  have hbeyond : ∀ x ∈ Leviathan.ineligible b o, ¬ o.Crosses x.price := fun x hx => by
    simpa using (List.mem_filter.mp hx).2
  rw [h.eligible, h.ineligible]
  constructor
  · rw [Leviathan.eligible, resting_matched_opposite hwf, List.filter_append,
      List.filter_eq_self.mpr (by simpa using hleft),
      List.filter_eq_nil_iff.mpr (by simpa using hbeyond), List.append_nil]
  · rw [Leviathan.ineligible, resting_matched_opposite hwf, List.filter_append,
      List.filter_eq_nil_iff.mpr (by simpa using hleft),
      List.filter_eq_self.mpr (by simpa using hbeyond), List.nil_append]

end SameReach

/-- **Two loops after each other** are one, for the quantities together. -/
lemma matched_matched {b : OrderBook P} (hwf : BookWF b) {o₁ o₂ o : Order P}
    (h₂ : SameReach o₁ o₂) (h : SameReach o₁ o) (hq : o₁.qty + o₂.qty = o.qty) :
    matched (matched b o₁) o₂ = matched b o := by
  obtain ⟨helig, hinel⟩ := h₂.reach_matched hwf
  refine OrderBook.ext_side (fun s => ?_) ?_
  · refine (wf_matched (wf_matched hwf o₁) o₂ s).ext (wf_matched hwf o s) ?_
    change (matched (matched b o₁) o₂).resting s = (matched b o).resting s
    rcases o₁.side.eq_or_eq_opposite s with rfl | rfl
    · have hown : ∀ (b : OrderBook P) {x : Order P}, x.side = o₁.side →
          (matched b x).resting o₁.side = b.resting o₁.side := fun b x hx => by
        rw [← hx]
        exact OrderBook.resting_congr (side_matched b x)
      rw [hown _ h₂.side, hown _ rfl, hown _ h.side]
    · have hsecond := resting_matched_opposite (wf_matched hwf o₁) o₂
      have hwhole := resting_matched_opposite hwf o
      rw [h₂.side, helig, hinel, keep_keep Order.qty Order.cutTo (fun _ _ => Order.cutTo_qty)
        (fun _ _ _ => rfl), hq] at hsecond
      rw [h.side, h.eligible, h.ineligible] at hwhole
      rw [hsecond, hwhole]
  · show eraseIds (usedUp o₂.qty (eligible (matched b o₁) o₂))
        (eraseIds (usedUp o₁.qty (eligible b o₁)) b.orderIndex)
      = eraseIds (usedUp o.qty (eligible b o)) b.orderIndex
    rw [← eraseIds_append, helig, h.eligible]
    refine eraseIds_congr ?_ _
    -- the second loop uses up the orders behind those the first one has used up
    have hids := map_keep Order.qty Order.cutTo Order.id (fun _ _ => rfl) o₁.qty (eligible b o₁)
    have hspent := spent_keep Order.qty Order.cutTo (fun _ _ => Order.cutTo_qty) o₁.qty o₂.qty
      (eligible b o₁)
    rw [usedUp, usedUp, usedUp, ← hq, ← hspent, List.take_add, List.map_append, List.map_append]
    congr 1
    rw [List.map_take, hids, List.map_take]

/-- What the fills of an order trade, maker by maker. -/
lemma tradedWhere_fills (b : OrderBook P) (o : Order P) (c : UInt64 → P → Bool) :
    tradedWhere o.side c (fills b o)
      = ((allot Order.qty o.qty (eligible b o)).map fun f =>
          if c f.1.id f.1.price then f.2 else 0).sum := by
  rw [tradedWhere, fills, List.map_map]
  refine congrArg List.sum (List.map_congr_left fun f hf => ?_)
  have hqty := toNat_quantity_of_mem_allot hf
  have hmaker : (o.tradeWith f.1 f.2).makerId o.side = f.1.id := by
    rw [Order.tradeWith]
    cases o.side <;> rfl
  rw [Function.comp_apply, hmaker, Order.tradeWith_price, hqty]

/-- The fills of two orders after each other are those of one, by maker and by price. -/
lemma tradedWhere_split {b : OrderBook P} (hwf : BookWF b) {o₁ o₂ o : Order P}
    (h₂ : SameReach o₁ o₂) (h : SameReach o₁ o) (hq : o₁.qty + o₂.qty = o.qty)
    (c : UInt64 → P → Bool) :
    tradedWhere o₁.side c (fills b o₁ ++ fills (matched b o₁) o₂)
      = tradedWhere o₁.side c (fills b o) := by
  have hfirst := tradedWhere_fills b o₁ c
  have hsecond := tradedWhere_fills (matched b o₁) o₂ c
  have hwhole := tradedWhere_fills b o c
  rw [h₂.side, (h₂.reach_matched hwf).1] at hsecond
  rw [h.side, h.eligible, ← hq] at hwhole
  rw [tradedWhere_append, hfirst, hsecond, hwhole]
  exact sum_allot_keep Order.qty Order.cutTo (fun _ _ => Order.cutTo_qty) (fun _ _ _ => rfl)
    (fun a => c a.id a.price) (fun _ _ => rfl) _ _ _

/-- An order that never rests and needs no preview leaves what its loop leaves. -/
lemma submitOrder_of_never_rests {b : OrderBook P} (hwf : BookWF b) {o : Order P}
    (hq : 0 < o.qty) (ht : o.type = .ioc ∨ o.type = .market) :
    submitOrder b o = (fills b o, matched b o) := by
  have hrefused : ¬ Refused b o := not_refused hq (by rcases ht with ht | ht <;> simp [ht])
  have hrests : ¬ Rests b o := by
    rintro ⟨hl, -⟩
    rcases ht with ht | ht <;> simp [ht] at hl
  rw [submitOrder_eq hwf, if_neg hrefused, if_neg hrests]

/-- **Splitting a taker changes nothing.**  On every reachable book an IOC order for `q₁` and then
one for `q₂`, of one id, side and price, leave exactly the book that one for `q₁ + q₂` leaves, and
trade the same quantity with each maker and at each price; so do MARKET orders, whatever prices
they carry. -/
theorem split_taker {b : OrderBook P} (hb : Reachable b) (id : UInt64) (s : Side) (p p₁ p₂ : P)
    {q₁ q₂ : UInt64} (h₁ : q₁ ≠ 0) (h₂ : q₂ ≠ 0) (hlt : q₁.toNat + q₂.toNat < 2 ^ 64)
    {type : OrderType} (ht : type = .ioc ∧ p₁ = p ∧ p₂ = p ∨ type = .market) (t t₁ t₂ : UInt64) :
    let first := submitOrder b ⟨id, s, p₁, q₁, t₁, type⟩
    let second := submitOrder first.2 ⟨id, s, p₂, q₂, t₂, type⟩
    let whole := submitOrder b ⟨id, s, p, q₁ + q₂, t, type⟩
    second.2 = whole.2
      ∧ (∀ maker, tradedWhere s (fun i _ => i = maker) (first.1 ++ second.1)
          = tradedWhere s (fun i _ => i = maker) whole.1)
      ∧ ∀ price, tradedWhere s (fun _ x => x = price) (first.1 ++ second.1)
          = tradedWhere s (fun _ x => x = price) whole.1 := by
  intro first second whole
  have hnever : type = .ioc ∨ type = .market := ht.imp And.left fun h => h
  let o₁ : Order P := ⟨id, s, p₁, q₁, t₁, type⟩
  let o₂ : Order P := ⟨id, s, p₂, q₂, t₂, type⟩
  let o : Order P := ⟨id, s, p, q₁ + q₂, t, type⟩
  have hreach₂ : SameReach o₁ o₂ := by
    refine ⟨rfl, fun x => ?_⟩
    rcases ht with ⟨-, rfl, rfl⟩ | ht
    · exact Iff.rfl
    · exact iff_of_true (Or.inl ht) (Or.inl ht)
  have hreach : SameReach o₁ o := by
    refine ⟨rfl, fun x => ?_⟩
    rcases ht with ⟨-, rfl, -⟩ | ht
    · exact Iff.rfl
    · exact iff_of_true (Or.inl ht) (Or.inl ht)
  have hqty : o₁.qty + o₂.qty = o.qty := by
    show q₁.toNat + q₂.toNat = (q₁ + q₂).toNat
    rw [UInt64.toNat_add]
    exact (Nat.mod_eq_of_lt hlt).symm
  have hpos₁ : 0 < o₁.qty := Nat.pos_of_ne_zero (Order.quantity_ne_zero_iff.mp h₁)
  have hpos₂ : 0 < o₂.qty := Nat.pos_of_ne_zero (Order.quantity_ne_zero_iff.mp h₂)
  have hpos : 0 < o.qty := hqty ▸ Nat.add_pos_left hpos₁ _
  have hfirst : first = (fills b o₁, matched b o₁) :=
    submitOrder_of_never_rests hb.wf hpos₁ hnever
  have hsecond : second = (fills (matched b o₁) o₂, matched (matched b o₁) o₂) := by
    show submitOrder first.2 o₂ = _
    rw [hfirst]
    exact submitOrder_of_never_rests (wf_matched hb.wf o₁) hpos₂ hnever
  have hwhole : whole = (fills b o, matched b o) :=
    submitOrder_of_never_rests hb.wf hpos hnever
  rw [hfirst, hsecond, hwhole]
  exact ⟨matched_matched hb.wf hreach₂ hreach hqty,
    fun maker => tradedWhere_split hb.wf hreach₂ hreach hqty _,
    fun price => tradedWhere_split hb.wf hreach₂ hreach hqty _⟩

/-- Five of the eight units fill the first ask of the sample, and the second order goes on with
the ask without quantity. -/
theorem split_taker_sample :
    let first := submitOrder (after sampleCalls) ⟨9, .buy, 102, 5, 10, .ioc⟩
    (submitOrder first.2 ⟨9, .buy, 102, 3, 11, .ioc⟩).2
      = (submitOrder (after sampleCalls) ⟨9, .buy, 102, 5 + 3, 12, .ioc⟩).2 :=
  (split_taker ⟨sampleCalls, rfl⟩ 9 .buy 102 102 102 (by decide) (by decide) (by decide)
    (Or.inl ⟨rfl, rfl, rfl⟩) 12 10 11).1

end Leviathan
