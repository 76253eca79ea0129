import Leviathan.Book.Matching

/-!
The public operations of the book, said once for both sides.

The source writes every operation out for BUY and for SELL.  Here each is read as one
statement about `OrderBook.side`, and on a book in good order (`BookWF`) as a statement
about the two lists of resting orders:

* `resting_addOrder`: an ordered insertion on the order's own side;
* `cancelOrder_cases`: the removal of one located order, or nothing;
* `submitOrder_eq`: the fills of the incoming quantity along the orders it crosses
  (`eligible`), the opposite side drained by them (`matched`), and the remainder of a LIMIT
  order added on its own side;
* `modifyOrder_cases`: the four ways through `modifyOrder`.
-/

namespace Leviathan

open Allotment

variable {P : Type*} [LinearOrder P]

/-! ### The source's branches by side -/

omit [LinearOrder P] in
lemma addOrder_eq [LT P] [DecidableLT P] (b : OrderBook P) (o : Order P) :
    addOrder b o
      = (b.setSide o.side (pushBack o.side o (b.side o.side))).setIndex
          (b.orderIndex.insert o.id ⟨o.side, o.price⟩) := by
  rw [addOrder]
  cases o.side <;> rfl

omit [LinearOrder P] in
lemma cancelOrder_eq [LT P] [DecidableLT P] (b : OrderBook P) (id : UInt64) :
    cancelOrder b id =
      match b.orderIndex.lookup id with
      | none => (false, b)
      | some ⟨s, p⟩ =>
          match eraseFromSide s (b.side s) p id with
          | none => (false, b)
          | some m => (true, (b.setSide s m).setIndex (b.orderIndex.erase id)) := by
  rw [cancelOrder]
  cases b.orderIndex.lookup id with
  | none => rfl
  | some loc =>
      obtain ⟨s, p⟩ := loc
      cases s <;> rfl

omit [LinearOrder P] in
lemma getDepth_eq (maxSize : ℕ) (b : OrderBook P) (s : Side) (maxLevels : UInt64) :
    getDepth maxSize b s maxLevels = depthFromMap maxSize (b.side s) maxLevels := by
  cases s <;> rfl

/-- A price within the limit of an incoming order of a side. -/
def Side.Within : Side → P → P → Prop
  | .buy, p, limit => p ≤ limit
  | .sell, p, limit => limit ≤ p

instance (s : Side) (p limit : P) : Decidable (s.Within p limit) :=
  match s with
  | .buy => inferInstanceAs (Decidable (p ≤ limit))
  | .sell => inferInstanceAs (Decidable (limit ≤ p))

/-- The crossing test of an incoming order against a price, skipped for MARKET orders. -/
def Order.Crosses (o : Order P) (p : P) : Prop := o.type = .market ∨ o.side.Within p o.price

instance (o : Order P) (p : P) : Decidable (o.Crosses p) :=
  inferInstanceAs (Decidable (o.type = .market ∨ o.side.Within p o.price))

/-- The trade of an incoming order with a maker. -/
def Order.tradeWith (incoming maker : Order P) (n : ℕ) : Trade P :=
  match incoming.side with
  | .buy => ⟨incoming.id, maker.id, maker.price, UInt64.ofNat n, incoming.timestamp⟩
  | .sell => ⟨maker.id, incoming.id, maker.price, UInt64.ofNat n, incoming.timestamp⟩

omit [LinearOrder P] in
lemma Order.tradeWith_price (o m : Order P) (n : ℕ) : (o.tradeWith m n).price = m.price := by
  rw [Order.tradeWith]
  cases o.side <;> rfl

omit [LinearOrder P] in
lemma Order.tradeWith_quantity (o m : Order P) (n : ℕ) :
    (o.tradeWith m n).quantity = UInt64.ofNat n := by
  rw [Order.tradeWith]
  cases o.side <;> rfl

/-- The resting orders an incoming order can meet: the opposite side, best price first and in
queue order, cut to the prices that cross. -/
def eligible (b : OrderBook P) (o : Order P) : List (Order P) :=
  (b.resting o.side.opposite).filter fun m => o.Crosses m.price

/-- The fills of an incoming order. -/
def fills (b : OrderBook P) (o : Order P) : List (Trade P) :=
  (allot Order.qty o.qty (eligible b o)).map fun f => o.tradeWith f.1 f.2

/-- No fill is larger than a word, so the exact amount of a fill is the quantity of its
trade. -/
lemma toNat_quantity_of_mem_allot {b : OrderBook P} {o : Order P} {f : Order P × ℕ}
    (hf : f ∈ allot Order.qty o.qty (eligible b o)) :
    (o.tradeWith f.1 f.2).quantity.toNat = f.2 := by
  have hle := snd_le_of_mem_allot _ hf
  have hlt := f.1.qty_lt
  rw [Order.tradeWith_quantity, UInt64.toNat_ofNat']
  exact Nat.mod_eq_of_lt (by omega)

/-- The opposite side after an incoming order. -/
def drained (b : OrderBook P) (o : Order P) : SideMap P :=
  drain Order.qty Order.cutTo o.qty
      ((b.side o.side.opposite).filter fun l => o.Crosses l.1)
    ++ (b.side o.side.opposite).filter fun l => ¬ o.Crosses l.1

/-- The book after the matching loop of an incoming order. -/
def matched (b : OrderBook P) (o : Order P) : OrderBook P :=
  (b.setSide o.side.opposite (drained b o)).setIndex
    (eraseIds (usedUp o.qty (eligible b o)) b.orderIndex)

/-! ### Books in good order -/

/-- Both sides of the book are in good order. -/
def BookWF (b : OrderBook P) : Prop := ∀ s, SideWF s (b.side s)

lemma BookWF.empty : BookWF (OrderBook.empty : OrderBook P) := fun s => by
  cases s <;> exact SideWF.nil _

lemma BookWF.setIndex {b : OrderBook P} (h : BookWF b) (ix : OrderIndex P) :
    BookWF (b.setIndex ix) := fun s => by
  rw [OrderBook.side_setIndex]
  exact h s

lemma BookWF.setSide {b : OrderBook P} (h : BookWF b) {s : Side} {m : SideMap P}
    (hm : SideWF s m) : BookWF (b.setSide s m) := fun t => by
  by_cases ht : t = s
  · subst ht
    rwa [OrderBook.side_setSide]
  · rw [OrderBook.side_setSide_of_ne b m ht]
    exact h t

/-! ### addOrder -/

lemma wf_addOrder {b : OrderBook P} (h : BookWF b) (o : Order P) : BookWF (addOrder b o) := by
  rw [addOrder_eq]
  exact (h.setSide (orders_pushBack (h o.side) rfl).1).setIndex _

lemma resting_addOrder_self {b : OrderBook P} (h : BookWF b) (o : Order P) :
    (addOrder b o).resting o.side = (b.resting o.side).orderedInsert (OrderBefore o.side) o := by
  rw [addOrder_eq, OrderBook.resting, OrderBook.side_setIndex, OrderBook.side_setSide,
    (orders_pushBack (h o.side) rfl).2]
  rfl

lemma side_addOrder_of_ne (b : OrderBook P) {o : Order P} {s : Side} (hs : s ≠ o.side) :
    (addOrder b o).side s = b.side s := by
  rw [addOrder_eq, OrderBook.side_setIndex, OrderBook.side_setSide_of_ne _ _ hs]

@[simp] lemma orderIndex_addOrder (b : OrderBook P) (o : Order P) :
    (addOrder b o).orderIndex = b.orderIndex.insert o.id ⟨o.side, o.price⟩ := by
  rw [addOrder_eq, OrderBook.orderIndex_setIndex]

/-! ### cancelOrder -/

/-- A successful removal of the order `o` that the index locates on side `s`. -/
structure Removed (b b' : OrderBook P) (s : Side) (o : Order P) (before after : List (Order P)) :
    Prop where
  lookup : b.orderIndex.lookup o.id = some ⟨s, o.price⟩
  found : findOrderInDeque s (b.side s) o.price o.id = some o
  located : Located s (b.side s) o.price o.id o before after
  wf : BookWF b'
  resting' : b'.resting s = before ++ after
  other : b'.side s.opposite = b.side s.opposite
  index : b'.orderIndex = b.orderIndex.erase o.id

lemma Removed.resting {b b' : OrderBook P} {s : Side} {o : Order P} {before after : List (Order P)}
    (h : Removed b b' s o before after) : b.resting s = before ++ o :: after :=
  h.located.orders_eq

/-- **Cancelling** removes the order the index locates, or finds none there and changes
nothing. -/
lemma cancelOrder_cases {b : OrderBook P} (h : BookWF b) (id : UInt64) :
    (cancelOrder b id = (false, b)
        ∧ ∀ s p, b.orderIndex.lookup id = some ⟨s, p⟩ →
          ∀ o ∈ b.resting s, ¬ (o.id = id ∧ o.price = p))
      ∨ ∃ s o before after, o.id = id ∧ (cancelOrder b id).1 = true
          ∧ Removed b (cancelOrder b id).2 s o before after := by
  rw [cancelOrder_eq]
  cases hix : b.orderIndex.lookup id with
  | none =>
      refine Or.inl ⟨rfl, ?_⟩
      intro s p hsp
      simp at hsp
  | some loc =>
      obtain ⟨s, p⟩ := loc
      cases hf : findOrderInDeque s (b.side s) p id with
      | none =>
          obtain ⟨hnone, hers⟩ := (h s).findOrderInDeque_eq_none p id
          refine Or.inl ⟨by simp only [hers hf], ?_⟩
          intro s' p' hsp
          obtain ⟨rfl, rfl⟩ : s = s' ∧ p = p' := by simpa using hsp
          exact hnone.mp hf
      | some o =>
          obtain ⟨before, after, hloc⟩ := (h s).located hf
          obtain ⟨m', hm', hwf, hord⟩ := hloc.erase
          obtain rfl := hloc.id_eq
          obtain rfl := hloc.price_eq
          refine Or.inr ⟨s, o, before, after, rfl, by simp only [hm'], ?_⟩
          simp only [hm']
          exact
            { lookup := hix
              found := hf
              located := hloc
              wf := (h.setSide hwf).setIndex _
              resting' := by
                rw [OrderBook.resting, OrderBook.side_setIndex, OrderBook.side_setSide, hord]
              other := by
                rw [OrderBook.side_setIndex, OrderBook.side_setSide_opposite]
              index := rfl }

lemma wf_cancelOrder {b : OrderBook P} (h : BookWF b) (id : UInt64) :
    BookWF (cancelOrder b id).2 := by
  rcases cancelOrder_cases h id with ⟨heq, -⟩ | ⟨s, o, before, after, -, -, hr⟩
  · rwa [heq]
  · exact hr.wf

/-! ### submitOrder -/

/-- The crossing test is closed toward the best price. -/
lemma Order.Crosses.of_before {o : Order P} {p q : P} (hq : o.Crosses q)
    (hpq : o.side.opposite.before p q) : o.Crosses p := by
  rcases hq with hm | hq
  · exact Or.inl hm
  · refine Or.inr ?_
    cases hs : o.side <;> simp only [hs, Side.opposite, Side.before, Side.Within] at hq hpq ⊢
    · exact hpq.le.trans hq
    · exact hq.trans hpq.le

/-- The levels that cross are the first ones, and their orders the ones that cross. -/
lemma crossing_levels {b : OrderBook P} (h : BookWF b) (o : Order P) :
    (b.side o.side.opposite).takeWhile (fun l => o.Crosses l.1)
        = (b.side o.side.opposite).filter (fun l => o.Crosses l.1)
      ∧ (b.side o.side.opposite).dropWhile (fun l => o.Crosses l.1)
        = (b.side o.side.opposite).filter (fun l => ¬ o.Crosses l.1)
      ∧ orders ((b.side o.side.opposite).filter fun l => o.Crosses l.1) = eligible b o := by
  have hwf := h o.side.opposite
  have hmono : (b.side o.side.opposite).Pairwise fun l l' =>
      decide (o.Crosses l'.1) = true → decide (o.Crosses l.1) = true :=
    List.Pairwise.imp (fun hab hc => by
      simp only [decide_eq_true_eq] at hc ⊢
      exact hc.of_before hab) hwf.sorted
  obtain ⟨htake, hdrop⟩ := OrderedMap.takeWhile_eq_filter hmono
  exact ⟨htake, by simpa using hdrop, hwf.orders_filter fun p => o.Crosses p⟩

/-- The two copies of the matching loop, by the incoming side. -/
def matchSide (s : Side) : Bool → Matching P → Matching P :=
  match s with
  | .buy => matchBuy
  | .sell => matchSell

lemma submitOrder_by_side (b : OrderBook P) (o : Order P) :
    submitOrder b o =
      if o.quantity = 0 then ([], b)
      else if o.type = .fok ∧ !canFullyFill b o.side o.price o.quantity then ([], b)
      else
        let s := matchSide o.side (decide (o.type = .market))
          ⟨o, b.side o.side.opposite, b.orderIndex, []⟩
        let b' := (b.setSide o.side.opposite s.levels).setIndex s.orderIndex
        (s.trades, if s.incoming.quantity ≠ 0 ∧ !decide (o.type ≠ .limit) then
          addOrder b' s.incoming else b') := by
  rw [submitOrder]
  cases o.side <;> rfl

/-- What the matching loop of an incoming order leaves. -/
lemma matchSide_eq {b : OrderBook P} (h : BookWF b) (o : Order P) :
    matchSide o.side (decide (o.type = .market)) ⟨o, b.side o.side.opposite, b.orderIndex, []⟩
      = { incoming := o.cutTo (o.qty - total Order.qty (eligible b o))
          levels := drained b o
          orderIndex := eraseIds (usedUp o.qty (eligible b o)) b.orderIndex
          trades := fills b o } := by
  obtain ⟨htake, hdrop, helig⟩ := crossing_levels h o
  have hne : ∀ l ∈ b.side o.side.opposite, l.2 ≠ [] := (h o.side.opposite).ne_nil
  -- a loop whose break test is the negation of the crossing test settles into these values
  have key : ∀ (stops : P → P → Bool) (record : Order P → Order P → UInt64 → Trade P),
      (∀ i r q n, record (i.setQuantity n) r q = record i r q) →
      (∀ l : P × List (Order P),
        Passes stops (decide (o.type = .market)) o.price l = decide (o.Crosses l.1)) →
      (∀ m n, record o m (UInt64.ofNat n) = o.tradeWith m n) →
      matchLoop stops record (decide (o.type = .market))
          ⟨o, b.side o.side.opposite, b.orderIndex, []⟩
        = { incoming := o.cutTo (o.qty - total Order.qty (eligible b o))
            levels := drained b o
            orderIndex := eraseIds (usedUp o.qty (eligible b o)) b.orderIndex
            trades := fills b o } := by
    intro stops record hrec hpass htrade
    have hpass : Passes stops (decide (o.type = .market)) o.price
        = fun l => decide (o.Crosses l.1) := funext hpass
    have hreach : Matching.reach stops (decide (o.type = .market))
        ⟨o, b.side o.side.opposite, b.orderIndex, []⟩ = eligible b o := by
      rw [Matching.reach, hpass, htake, helig]
    rw [matchLoop_eq hrec _ hne]
    ext1
    · simp only [Matching.settled, hreach]
    · simp only [Matching.settled, hpass, htake, hdrop, drained]
    · simp only [Matching.settled, hreach]
    · simp only [Matching.settled, hreach, recordAll, htrade, fills, List.nil_append]
  have hcross : ∀ p, o.Crosses p ↔ o.type = .market ∨ o.side.Within p o.price :=
    fun p => Iff.rfl
  cases hs : o.side with
  | buy =>
      rw [hs] at key hcross
      refine key _ _ (fun _ _ _ _ => rfl) (fun l => ?_) (fun m n => ?_)
      · rw [Bool.eq_iff_iff]
        simp [Passes, hcross, Side.Within, or_iff_not_imp_left]
      · simp [Order.tradeWith, hs]
  | sell =>
      rw [hs] at key hcross
      refine key _ _ (fun _ _ _ _ => rfl) (fun l => ?_) (fun m n => ?_)
      · rw [Bool.eq_iff_iff]
        simp [Passes, hcross, Side.Within, or_iff_not_imp_left]
      · simp [Order.tradeWith, hs]

/-- The order is turned away: no quantity, or a fill-or-kill order the preview denies. -/
def Refused (b : OrderBook P) (o : Order P) : Prop :=
  o.quantity = 0 ∨ o.type = .fok ∧ canFullyFill b o.side o.price o.quantity = false

instance (b : OrderBook P) (o : Order P) : Decidable (Refused b o) :=
  inferInstanceAs (Decidable (_ ∨ _ ∧ _))

/-- A LIMIT order that the orders it crosses do not cover. -/
def Rests (b : OrderBook P) (o : Order P) : Prop :=
  o.type = .limit ∧ total Order.qty (eligible b o) < o.qty

instance (b : OrderBook P) (o : Order P) : Decidable (Rests b o) :=
  inferInstanceAs (Decidable (_ ∧ _))

/-- When a remainder rests, the orders it crossed are all gone. -/
lemma Rests.keep_eligible {b : OrderBook P} {o : Order P} (h : Rests b o) :
    keep Order.qty Order.cutTo o.qty (eligible b o) = [] := by
  obtain ⟨-, hlt⟩ := h
  exact (spent_of_total_le Order.qty Order.cutTo (by omega) hlt).2

/-- What is left of an order that the orders it crosses do not cover. -/
def remainder (b : OrderBook P) (o : Order P) : Order P :=
  o.cutTo (o.qty - total Order.qty (eligible b o))

/-- **Submitting** an order: refused without effect, or filled along the orders it crosses,
a LIMIT order resting with what they did not cover. -/
theorem submitOrder_eq {b : OrderBook P} (h : BookWF b) (o : Order P) :
    submitOrder b o =
      if Refused b o then ([], b)
      else (fills b o,
        if Rests b o then addOrder (matched b o) (remainder b o) else matched b o) := by
  have hrest : (o.cutTo (o.qty - total Order.qty (eligible b o))).quantity ≠ 0
      ↔ total Order.qty (eligible b o) < o.qty := by
    rw [Order.quantity_ne_zero_iff, Order.cutTo_qty (Nat.sub_le _ _)]
    omega
  rw [submitOrder_by_side, matchSide_eq h]
  by_cases hq : o.quantity = 0
  · have hr : Refused b o := Or.inl hq
    rw [if_pos hq, if_pos hr]
  by_cases hf : o.type = .fok ∧ !canFullyFill b o.side o.price o.quantity
  · have hr : Refused b o := Or.inr (by simpa using hf)
    rw [if_neg hq, if_pos hf, if_pos hr]
  · have hr : ¬ Refused b o := by
      rintro (hr | hr)
      · exact hq hr
      · exact hf (by simpa using hr)
    rw [if_neg hq, if_neg hf, if_neg hr]
    have hcond : ((o.cutTo (o.qty - total Order.qty (eligible b o))).quantity ≠ 0
        ∧ (!decide (o.type ≠ .limit)) = true) ↔ Rests b o := by
      rw [hrest, Rests, and_comm]
      simp
    simp only [hcond, remainder]
    rfl

/-! ### The book after the matching loop -/

/-- The orders an incoming order cannot meet. -/
def ineligible (b : OrderBook P) (o : Order P) : List (Order P) :=
  (b.resting o.side.opposite).filter fun m => ¬ o.Crosses m.price

lemma eligible_append_ineligible {b : OrderBook P} (h : BookWF b) (o : Order P) :
    b.resting o.side.opposite = eligible b o ++ ineligible b o := by
  obtain ⟨htake, hdrop, helig⟩ := crossing_levels h o
  have hinel : orders ((b.side o.side.opposite).filter fun l => ¬ o.Crosses l.1)
      = ineligible b o := (h o.side.opposite).orders_filter fun p => ¬ o.Crosses p
  have hsplit := List.takeWhile_append_dropWhile (p := fun l => decide (o.Crosses l.1))
    (l := b.side o.side.opposite)
  rw [← helig, ← hinel, ← orders_append, ← htake, ← hdrop, hsplit]
  rfl

/-- The opposite side after an incoming order, in the flat view. -/
lemma orders_drained {b : OrderBook P} (h : BookWF b) (o : Order P) :
    orders (drained b o)
      = keep Order.qty Order.cutTo o.qty (eligible b o) ++ ineligible b o := by
  have hinel : orders ((b.side o.side.opposite).filter fun l => ¬ o.Crosses l.1)
      = ineligible b o := (h o.side.opposite).orders_filter fun p => ¬ o.Crosses p
  rw [drained, orders_append, hinel, ← (crossing_levels h o).2.2]
  exact congrArg (· ++ _) (drain_flatMap _ _ _ _)

/-- Draining leaves a side in good order. -/
lemma wf_drained {b : OrderBook P} (h : BookWF b) (o : Order P) :
    SideWF o.side.opposite (drained b o) := by
  have hwf := h o.side.opposite
  obtain ⟨htake, hdrop, -⟩ := crossing_levels h o
  have hsplit := List.takeWhile_append_dropWhile (p := fun l => decide (o.Crosses l.1))
    (l := b.side o.side.opposite)
  refine ⟨OrderedMap.Sorted.of_keys _ hwf.sorted ?_, ?_, ?_⟩
  · rw [drained, ← htake, ← hdrop, List.map_append]
    conv_rhs => rw [← hsplit, List.map_append]
    exact (drain_keys _ _ _ _).append (List.Sublist.refl _)
  · intro l hl
    rcases List.mem_append.mp hl with hl | hl
    · exact drain_ne_nil _ _ hl
    · exact hwf.ne_nil l (List.mem_of_mem_filter hl)
  · intro l hl
    rcases List.mem_append.mp hl with hl | hl
    · obtain ⟨q, R, hq, hkeep⟩ := exists_keep_of_mem_drain _ _ hl
      have hhome := hwf.home _ (List.mem_of_mem_filter hq)
      intro a ha
      rw [hkeep] at ha
      rcases mem_keep _ _ ha with ha | ⟨a', ha', n, rfl⟩
      · exact hhome a ha
      · exact hhome a' ha'
    · exact hwf.home l (List.mem_of_mem_filter hl)

section Matched

variable {b : OrderBook P} (h : BookWF b) (o : Order P)

include h in
lemma wf_matched : BookWF (matched b o) := (h.setSide (wf_drained h o)).setIndex _

include h in
lemma resting_matched_opposite : (matched b o).resting o.side.opposite
    = keep Order.qty Order.cutTo o.qty (eligible b o) ++ ineligible b o := by
  rw [matched, OrderBook.resting, OrderBook.side_setIndex, OrderBook.side_setSide,
    orders_drained h o]

@[simp] lemma side_matched (b : OrderBook P) (o : Order P) :
    (matched b o).side o.side = b.side o.side := by
  rw [matched, OrderBook.side_setIndex, OrderBook.side_opposite_setSide]

@[simp] lemma side_matched_opposite (b : OrderBook P) (o : Order P) :
    (matched b o).side o.side.opposite = drained b o := by
  rw [matched, OrderBook.side_setIndex, OrderBook.side_setSide]

end Matched

lemma wf_submitOrder {b : OrderBook P} (h : BookWF b) (o : Order P) :
    BookWF (submitOrder b o).2 := by
  rw [submitOrder_eq h]
  split_ifs
  · exact h
  · exact wf_addOrder (wf_matched h o) _
  · exact wf_matched h o

/-! ### modifyOrder -/

omit [LinearOrder P] in
lemma modifyOrder_by_side [LT P] [DecidableLT P] [LE P] [DecidableLE P] [BEq P]
    (b : OrderBook P) (counter id : UInt64) (p : P) (q : UInt64) :
    modifyOrder b counter id p q =
      match b.orderIndex.lookup id with
      | none => (none, b, counter)
      | some ⟨s, price⟩ =>
          if q = 0 then
            (if (cancelOrder b id).1 then some [] else none, (cancelOrder b id).2, counter)
          else
            match findOrderInDeque s (b.side s) price id with
            | none => (none, b, counter)
            | some order =>
                if p == price ∧ q ≤ order.quantity then
                  (some [], b.setSide s (writeQuantity s (b.side s) price id q), counter)
                else
                  let r := submitOrder (cancelOrder b id).2 ⟨id, s, p, q, counter, .limit⟩
                  (some r.1, r.2, counter + 1) := by
  rw [modifyOrder]
  cases b.orderIndex.lookup id with
  | none => rfl
  | some loc =>
      obtain ⟨s, price⟩ := loc
      cases s <;> rfl

lemma modifyOrder_eq (b : OrderBook P) (counter id : UInt64) (p : P) (q : UInt64) :
    modifyOrder b counter id p q =
      match b.orderIndex.lookup id with
      | none => (none, b, counter)
      | some ⟨s, price⟩ =>
          if q = 0 then
            (if (cancelOrder b id).1 then some [] else none, (cancelOrder b id).2, counter)
          else
            match findOrderInDeque s (b.side s) price id with
            | none => (none, b, counter)
            | some order =>
                if p = price ∧ q ≤ order.quantity then
                  (some [], b.setSide s (writeQuantity s (b.side s) price id q), counter)
                else
                  let r := submitOrder (cancelOrder b id).2 ⟨id, s, p, q, counter, .limit⟩
                  (some r.1, r.2, counter + 1) := by
  rw [modifyOrder_by_side]
  simp only [beq_iff_eq]

/-- The quantity of the located order `o` on side `s` rewritten to `q`, and nothing else. -/
structure Rewritten (b b' : OrderBook P) (s : Side) (o : Order P) (q : UInt64)
    (before after : List (Order P)) : Prop where
  wf : BookWF b'
  resting' : b'.resting s = before ++ o.setQuantity q :: after
  other : b'.side s.opposite = b.side s.opposite
  index : b'.orderIndex = b.orderIndex

/-- Modifying an order that a cancellation would find. -/
lemma Removed.modifyOrder_cases {b : OrderBook P} (h : BookWF b) {s : Side} {o : Order P}
    {before after : List (Order P)} (hc : (cancelOrder b o.id).1 = true)
    (hr : Removed b (cancelOrder b o.id).2 s o before after) (counter : UInt64) (p : P)
    (q : UInt64) :
    q = 0 ∧ modifyOrder b counter o.id p q = (some [], (cancelOrder b o.id).2, counter)
      ∨ q ≠ 0 ∧ p = o.price ∧ q ≤ o.quantity
        ∧ (∃ b', modifyOrder b counter o.id p q = (some [], b', counter)
          ∧ Rewritten b b' s o q before after)
      ∨ q ≠ 0 ∧ ¬ (p = o.price ∧ q ≤ o.quantity)
        ∧ modifyOrder b counter o.id p q =
          (some (submitOrder (cancelOrder b o.id).2 ⟨o.id, s, p, q, counter, .limit⟩).1,
            (submitOrder (cancelOrder b o.id).2 ⟨o.id, s, p, q, counter, .limit⟩).2,
            counter + 1) := by
  have heq := modifyOrder_eq b counter o.id p q
  simp only [hr.lookup, hr.found] at heq
  by_cases hq : q = 0
  · rw [if_pos hq, hc, if_pos rfl] at heq
    exact Or.inl ⟨hq, heq⟩
  · rw [if_neg hq] at heq
    by_cases hin : p = o.price ∧ q ≤ o.quantity
    · rw [if_pos hin] at heq
      refine Or.inr (Or.inl ⟨hq, hin.1, hin.2, _, heq, ?_⟩)
      obtain ⟨hwf, hord⟩ := hr.located.write q
      exact
        { wf := h.setSide hwf
          resting' := by rw [OrderBook.resting, OrderBook.side_setSide, hord]
          other := by rw [OrderBook.side_setSide_opposite]
          index := by rw [OrderBook.orderIndex_setSide] }
    · rw [if_neg hin] at heq
      exact Or.inr (Or.inr ⟨hq, hin, heq⟩)

/-- **Modifying**, the four ways: no order where the index points; a cancellation; a write
to the quantity in place; a cancellation and a LIMIT order submitted afresh. -/
lemma modifyOrder_cases {b : OrderBook P} (h : BookWF b) (counter id : UInt64) (p : P)
    (q : UInt64) :
    (modifyOrder b counter id p q = (none, b, counter)
        ∧ ∀ s price, b.orderIndex.lookup id = some ⟨s, price⟩ →
          ∀ o ∈ b.resting s, ¬ (o.id = id ∧ o.price = price))
      ∨ ∃ s o before after, o.id = id ∧ (cancelOrder b id).1 = true
          ∧ Removed b (cancelOrder b id).2 s o before after
          ∧ (q = 0 ∧ modifyOrder b counter id p q = (some [], (cancelOrder b id).2, counter)
            ∨ q ≠ 0 ∧ p = o.price ∧ q ≤ o.quantity
              ∧ (∃ b', modifyOrder b counter id p q = (some [], b', counter)
                ∧ Rewritten b b' s o q before after)
            ∨ q ≠ 0 ∧ ¬ (p = o.price ∧ q ≤ o.quantity)
              ∧ modifyOrder b counter id p q =
                (some (submitOrder (cancelOrder b id).2 ⟨id, s, p, q, counter, .limit⟩).1,
                  (submitOrder (cancelOrder b id).2 ⟨id, s, p, q, counter, .limit⟩).2,
                  counter + 1)) := by
  rcases cancelOrder_cases h id with ⟨hc, hnone⟩ | ⟨s, o, before, after, hid, hc, hr⟩
  · refine Or.inl ⟨?_, hnone⟩
    rw [modifyOrder_eq]
    cases hix : b.orderIndex.lookup id with
    | none => rfl
    | some loc =>
        obtain ⟨s, price⟩ := loc
        have hf : findOrderInDeque s (b.side s) price id = none :=
          ((h s).findOrderInDeque_eq_none price id).1.mpr (hnone s price hix)
        simp [hc, hf]
  · refine Or.inr ⟨s, o, before, after, hid, hc, hr, ?_⟩
    obtain rfl := hid
    exact hr.modifyOrder_cases h hc counter p q

lemma wf_modifyOrder {b : OrderBook P} (h : BookWF b) (counter id : UInt64) (p : P)
    (q : UInt64) : BookWF (modifyOrder b counter id p q).2.1 := by
  rcases modifyOrder_cases h counter id p q with ⟨heq, -⟩ | ⟨s, o, before, after, -, -, hr, hcase⟩
  · rwa [heq]
  · rcases hcase with ⟨-, heq⟩ | ⟨-, -, -, b', heq, hw⟩ | ⟨-, -, heq⟩
    · rw [heq]
      exact hr.wf
    · rw [heq]
      exact hw.wf
    · rw [heq]
      exact wf_submitOrder hr.wf _

end Leviathan
