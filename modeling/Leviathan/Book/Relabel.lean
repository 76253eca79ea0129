import Leviathan.Book.Preview

/-!
Books seen under other names for sides and prices.

A `Relabelling` renames the sides and maps the prices to those of another type.  Two books
related by it (`Relabelled`) stay so under every operation, as long as the map keeps what the
operation compares:

* an order is pushed to a level, or looked up in one, whose price lies among the others as its
  image does (`OrderedMap.Alike`);
* an incoming order crosses the images of the levels it crosses, and no others unless it is
  filled before it comes to them (`Relabelling.Meets`).

The two uses of this are a map that keeps all comparisons, and one that keeps only some.
-/

namespace Leviathan

open Allotment

variable {P P' : Type*}

/-- A renaming of the sides, each its own inverse, with a map of prices. -/
structure Relabelling (P P' : Type*) where
  side : Side → Side
  price : P → P'
  involutive : Function.Involutive side

/-- The sides kept, the prices mapped. -/
def repriced (f : P → P') : Relabelling P P' := ⟨id, f, fun _ => rfl⟩

namespace Relabelling

variable (ρ : Relabelling P P')

/-- An order on the renamed side, at the mapped price. -/
def order (o : Order P) : Order P' :=
  ⟨o.id, ρ.side o.side, ρ.price o.price, o.quantity, o.timestamp, o.type⟩

/-- The levels of a side, each at its mapped price and with its queue. -/
def levels (m : SideMap P) : SideMap P' := m.map (Prod.map ρ.price (List.map ρ.order))

/-- What the index has of a renamed order. -/
def location (loc : OrderLocation P) : OrderLocation P' := ⟨ρ.side loc.side, ρ.price loc.price⟩

/-- A trade names its buyer first, so it is turned around where the sides are. -/
def trade (t : Trade P) : Trade P' :=
  match ρ.side .buy with
  | .buy => ⟨t.buyOrderId, t.sellOrderId, ρ.price t.price, t.quantity, t.timestamp⟩
  | .sell => ⟨t.sellOrderId, t.buyOrderId, ρ.price t.price, t.quantity, t.timestamp⟩

/-- The call with its order renamed; ids and quantities stay. -/
def call : Call P → Call P'
  | .addOrder o => .addOrder (ρ.order o)
  | .submitOrder o => .submitOrder (ρ.order o)
  | .cancelOrder id => .cancelOrder id
  | .modifyOrder counter id p q => .modifyOrder counter id (ρ.price p) q

/-- What the renamed call returns. -/
def response : Response P → Response P'
  | .done => .done
  | .cancelled ok => .cancelled ok
  | .trades ts => .trades (ts.map ρ.trade)
  | .modified r => .modified (r.map (List.map ρ.trade))
  | .price p => .price (p.map ρ.price)
  | .count n => .count n

@[simp] lemma order_id (o : Order P) : (ρ.order o).id = o.id := rfl
@[simp] lemma order_side (o : Order P) : (ρ.order o).side = ρ.side o.side := rfl
@[simp] lemma order_price (o : Order P) : (ρ.order o).price = ρ.price o.price := rfl
@[simp] lemma order_quantity (o : Order P) : (ρ.order o).quantity = o.quantity := rfl
@[simp] lemma order_type (o : Order P) : (ρ.order o).type = o.type := rfl
@[simp] lemma order_timestamp (o : Order P) : (ρ.order o).timestamp = o.timestamp := rfl
@[simp] lemma order_qty (o : Order P) : (ρ.order o).qty = o.qty := rfl

lemma order_setQuantity (o : Order P) (q : UInt64) :
    ρ.order (o.setQuantity q) = (ρ.order o).setQuantity q := rfl

lemma side_injective : Function.Injective ρ.side := ρ.involutive.injective

lemma side_opposite (s : Side) : ρ.side s.opposite = (ρ.side s).opposite := by
  rcases (ρ.side s).eq_or_eq_opposite (ρ.side s.opposite) with h | h
  · exact absurd (ρ.side_injective h) s.opposite_ne
  · exact h

/-- The trade of the images is the image of the trade. -/
lemma tradeWith (o m : Order P) (n : ℕ) :
    (ρ.order o).tradeWith (ρ.order m) n = ρ.trade (o.tradeWith m n) := by
  have hsell : ρ.side .sell = (ρ.side .buy).opposite := ρ.side_opposite .buy
  rw [Order.tradeWith, trade, order_side, Order.tradeWith]
  cases o.side <;> cases hb : ρ.side .buy <;> simp [hb, hsell, Side.opposite]

lemma orders_levels (m : SideMap P) : orders (ρ.levels m) = (orders m).map ρ.order := by
  induction m with
  | nil => rfl
  | cons l m ih =>
      have h : ρ.levels (l :: m) = (ρ.price l.1, l.2.map ρ.order) :: ρ.levels m := rfl
      rw [h, orders_cons, ih, ← List.map_append]
      rfl

lemma levels_append (m m' : SideMap P) : ρ.levels (m ++ m') = ρ.levels m ++ ρ.levels m' :=
  List.map_append

end Relabelling

/-- **The books are the same up to the relabelling**: levels, queue order, quantities, index. -/
structure Relabelled (ρ : Relabelling P P') (b : OrderBook P) (b' : OrderBook P') : Prop where
  side : ∀ s, b'.side (ρ.side s) = ρ.levels (b.side s)
  index : ∀ id, b'.orderIndex.lookup id = (b.orderIndex.lookup id).map ρ.location

namespace Relabelled

variable {ρ : Relabelling P P'} {b : OrderBook P} {b' : OrderBook P'}

lemma empty (ρ : Relabelling P P') : Relabelled ρ OrderBook.empty OrderBook.empty := by
  refine ⟨fun s => ?_, fun id => rfl⟩
  cases s <;> cases ρ.side _ <;> rfl

/-- One side rewritten on both books. -/
lemma setSide (h : Relabelled ρ b b') (s : Side) (m : SideMap P) :
    Relabelled ρ (b.setSide s m) (b'.setSide (ρ.side s) (ρ.levels m)) := by
  refine ⟨fun t => ?_, fun id => ?_⟩
  · by_cases ht : t = s
    · subst ht
      rw [OrderBook.side_setSide, OrderBook.side_setSide]
    · have ht' : ρ.side t ≠ ρ.side s := fun heq => ht (ρ.side_injective heq)
      rw [OrderBook.side_setSide_of_ne _ _ ht, OrderBook.side_setSide_of_ne _ _ ht', h.side]
  · rw [OrderBook.orderIndex_setSide, OrderBook.orderIndex_setSide, h.index]

lemma setIndex (h : Relabelled ρ b b') {ix : OrderIndex P} {ix' : OrderIndex P'}
    (hix : ∀ id, ix'.lookup id = (ix.lookup id).map ρ.location) :
    Relabelled ρ (b.setIndex ix) (b'.setIndex ix') := by
  refine ⟨fun t => ?_, hix⟩
  rw [OrderBook.side_setIndex, OrderBook.side_setIndex, h.side]

end Relabelled

section Index

variable {ρ : Relabelling P P'} {ix : OrderIndex P} {ix' : OrderIndex P'}
  (h : ∀ id, ix'.lookup id = (ix.lookup id).map ρ.location)

include h

lemma lookup_insert_location (id : UInt64) (loc : OrderLocation P) (i : UInt64) :
    (ix'.insert id (ρ.location loc)).lookup i = ((ix.insert id loc).lookup i).map ρ.location := by
  by_cases hi : i = id
  · subst hi
    rw [Finmap.lookup_insert, Finmap.lookup_insert, Option.map_some]
  · rw [Finmap.lookup_insert_of_ne _ hi, Finmap.lookup_insert_of_ne _ hi, h]

lemma lookup_erase_location (id i : UInt64) :
    (ix'.erase id).lookup i = ((ix.erase id).lookup i).map ρ.location := by
  by_cases hi : i = id
  · subst hi
    rw [Finmap.lookup_erase, Finmap.lookup_erase, Option.map_none]
  · rw [Finmap.lookup_erase_ne hi, Finmap.lookup_erase_ne hi, h]

end Index

lemma lookup_eraseIds_location {ρ : Relabelling P P'} {ix : OrderIndex P} {ix' : OrderIndex P'}
    (h : ∀ id, ix'.lookup id = (ix.lookup id).map ρ.location) (l : List (Order P)) (i : UInt64) :
    (eraseIds (l.map ρ.order) ix').lookup i = ((eraseIds l ix).lookup i).map ρ.location := by
  induction l generalizing ix ix' with
  | nil => exact h i
  | cons o l ih => exact ih (lookup_erase_location h o.id)

/-! ### addOrder, cancelOrder and the lookups -/

variable [LinearOrder P] [LinearOrder P']

/-- The price lies among the levels of the side as its image does among theirs. -/
def Relabelling.Fits (ρ : Relabelling P P') (s : Side) (p : P) (m : SideMap P) : Prop :=
  OrderedMap.Alike s.before (ρ.side s).before ρ.price p m

section Levels

variable {ρ : Relabelling P P'} {s : Side} {p : P} {m : SideMap P}

lemma pushBack_levels {o : Order P} (h : ρ.Fits s o.price m) :
    pushBack (ρ.side s) (ρ.order o) (ρ.levels m) = ρ.levels (pushBack s o m) :=
  OrderedMap.alter_mapEntries (List.map ρ.order) (fun q => by simp) [] h

lemma eraseFromSide_levels (h : ρ.Fits s p m) (id : UInt64) :
    eraseFromSide (ρ.side s) (ρ.levels m) (ρ.price p) id
      = (eraseFromSide s m p id).map ρ.levels := by
  have hid : (fun o : Order P' => o.id == id) ∘ ρ.order = fun o => o.id == id := rfl
  have hfind : OrderedMap.find? (ρ.side s).before (ρ.price p) (ρ.levels m)
      = (OrderedMap.find? s.before p m).map (List.map ρ.order) := OrderedMap.find?_mapEntries _ h
  rw [eraseFromSide, eraseFromSide, hfind]
  cases OrderedMap.find? s.before p m with
  | none => rfl
  | some q =>
      simp only [Option.map_some, List.any_map, List.eraseP_map, hid]
      split_ifs
      · cases q.eraseP (·.id == id) with
        | nil => exact congrArg some (OrderedMap.erase_mapEntries _ h)
        | cons o q' =>
            exact congrArg some (OrderedMap.alter_mapEntries (List.map ρ.order)
              (u := fun _ => o :: q') (fun _ => rfl) [] h)
      · rfl

lemma findOrderInDeque_levels (h : ρ.Fits s p m) (id : UInt64) :
    findOrderInDeque (ρ.side s) (ρ.levels m) (ρ.price p) id
      = (findOrderInDeque s m p id).map ρ.order := by
  have hid : (fun o : Order P' => o.id == id) ∘ ρ.order = fun o => o.id == id := rfl
  have hfind : OrderedMap.find? (ρ.side s).before (ρ.price p) (ρ.levels m)
      = (OrderedMap.find? s.before p m).map (List.map ρ.order) := OrderedMap.find?_mapEntries _ h
  rw [findOrderInDeque, findOrderInDeque, hfind]
  cases OrderedMap.find? s.before p m with
  | none => rfl
  | some q => simp only [Option.map_some, List.find?_map, hid]

lemma writeQuantity_levels (h : ρ.Fits s p m) (id q : UInt64) :
    writeQuantity (ρ.side s) (ρ.levels m) (ρ.price p) id q
      = ρ.levels (writeQuantity s m p id q) := by
  refine OrderedMap.alter_mapEntries (List.map ρ.order) ?_ [] h
  intro l
  induction l with
  | nil => rfl
  | cons o l ih =>
      by_cases hid : o.id = id
      · simp [hid, ρ.order_setQuantity]
      · simpa [hid] using ih

end Levels

namespace Relabelled

variable {ρ : Relabelling P P'} {b : OrderBook P} {b' : OrderBook P'}

lemma addOrder (h : Relabelled ρ b b') {o : Order P} (ho : ρ.Fits o.side o.price (b.side o.side)) :
    Relabelled ρ (addOrder b o) (addOrder b' (ρ.order o)) := by
  rw [addOrder_eq, addOrder_eq, ρ.order_side, h.side, pushBack_levels ho]
  exact (h.setSide o.side _).setIndex (lookup_insert_location h.index o.id ⟨o.side, o.price⟩)

lemma cancelOrder (h : Relabelled ρ b b') {id : UInt64}
    (hid : ∀ s p, b.orderIndex.lookup id = some ⟨s, p⟩ → ρ.Fits s p (b.side s)) :
    (cancelOrder b' id).1 = (cancelOrder b id).1
      ∧ Relabelled ρ (Leviathan.cancelOrder b id).2 (Leviathan.cancelOrder b' id).2 := by
  rw [cancelOrder_eq, cancelOrder_eq, h.index]
  cases hl : b.orderIndex.lookup id with
  | none => exact ⟨rfl, h⟩
  | some loc =>
      obtain ⟨s, p⟩ := loc
      have hers := eraseFromSide_levels (hid s p hl) id
      simp only [Option.map_some, Relabelling.location, h.side, hers]
      cases eraseFromSide s (b.side s) p id with
      | none => exact ⟨rfl, h⟩
      | some m =>
          exact ⟨rfl, (h.setSide s m).setIndex (lookup_erase_location h.index id)⟩

end Relabelled

/-! ### submitOrder -/

/-- The order crosses the images of the levels it crosses, and no other level of the opposite side
unless it is filled before. -/
structure Relabelling.Meets (ρ : Relabelling P P') (b : OrderBook P) (o : Order P) : Prop where
  crosses : ∀ l ∈ b.side o.side.opposite, o.Crosses l.1 → (ρ.order o).Crosses (ρ.price l.1)
  beyond : (∀ l ∈ b.side o.side.opposite, (ρ.order o).Crosses (ρ.price l.1) → o.Crosses l.1)
    ∨ o.qty ≤ total Order.qty (eligible b o)

section Submit

variable {ρ : Relabelling P P'} {b : OrderBook P} {b' : OrderBook P'}

/-- The levels the image of an order crosses: those the order crosses, and then some that it does
not come to. -/
lemma Relabelled.crossing (h : Relabelled ρ b b') (hwf : BookWF b) (hwf' : BookWF b') {o : Order P}
    (hm : ρ.Meets b o) :
    ∃ X Y, (b'.side (ρ.order o).side.opposite).filter (fun l => (ρ.order o).Crosses l.1)
          = ρ.levels ((b.side o.side.opposite).filter fun l => o.Crosses l.1) ++ X
        ∧ (b'.side (ρ.order o).side.opposite).filter (fun l => ¬ (ρ.order o).Crosses l.1) = Y
        ∧ X ++ Y = ρ.levels ((b.side o.side.opposite).filter fun l => ¬ o.Crosses l.1)
        ∧ (∀ l ∈ X, l.2 ≠ []) ∧ (X = [] ∨ o.qty ≤ total Order.qty (eligible b o)) := by
  obtain ⟨htake, hdrop, -⟩ := crossing_levels hwf o
  obtain ⟨htake', hdrop', -⟩ := crossing_levels hwf' (ρ.order o)
  have hside : b'.side (ρ.order o).side.opposite = ρ.levels (b.side o.side.opposite) := by
    rw [ρ.order_side, ← ρ.side_opposite, h.side]
  have hne := (hwf' (ρ.order o).side.opposite).ne_nil
  have hsplit : b.side o.side.opposite
      = (b.side o.side.opposite).filter (fun l => o.Crosses l.1)
        ++ (b.side o.side.opposite).filter fun l => ¬ o.Crosses l.1 := by
    rw [← htake, ← hdrop, List.takeWhile_append_dropWhile]
  have hsplit' : (b'.side (ρ.order o).side.opposite).filter (fun l => (ρ.order o).Crosses l.1)
        ++ (b'.side (ρ.order o).side.opposite).filter (fun l => ¬ (ρ.order o).Crosses l.1)
      = b'.side (ρ.order o).side.opposite := by
    rw [← htake', ← hdrop', List.takeWhile_append_dropWhile]
  have himage : ∀ l ∈ ρ.levels ((b.side o.side.opposite).filter fun l => o.Crosses l.1),
      (ρ.order o).Crosses l.1 := by
    intro l hl
    obtain ⟨a, ha, rfl⟩ := List.mem_map.mp hl
    exact hm.crosses a (List.mem_of_mem_filter ha) (by simpa using (List.mem_filter.mp ha).2)
  have hcross : (b'.side (ρ.order o).side.opposite).filter (fun l => (ρ.order o).Crosses l.1)
      = ρ.levels ((b.side o.side.opposite).filter fun l => o.Crosses l.1)
        ++ (ρ.levels ((b.side o.side.opposite).filter fun l => ¬ o.Crosses l.1)).filter
          fun l => (ρ.order o).Crosses l.1 := by
    conv_lhs => rw [hside, hsplit, ρ.levels_append, List.filter_append]
    rw [List.filter_eq_self.mpr fun l hl => by simpa using himage l hl]
  refine ⟨_, _, hcross, rfl, ?_, ?_, ?_⟩
  · have heq := hsplit'
    rw [hcross, List.append_assoc] at heq
    refine List.append_cancel_left (heq.trans ?_)
    rw [hside, ← ρ.levels_append, ← hsplit]
  · intro l hl
    refine hne l ?_
    rw [hside, hsplit, ρ.levels_append]
    exact List.mem_append_right _ (List.mem_of_mem_filter hl)
  · refine hm.beyond.imp_left fun hback => List.filter_eq_nil_iff.mpr fun l hl => ?_
    obtain ⟨a, ha, rfl⟩ := List.mem_map.mp hl
    have hno : ¬ o.Crosses a.1 := by simpa using (List.mem_filter.mp ha).2
    simpa using fun hc => hno (hback a (List.mem_of_mem_filter ha) hc)

/-- What an order meets on the relabelled book: the images of what it meets, and behind them only
orders that its quantity does not reach. -/
structure SameFills (ρ : Relabelling P P') (b : OrderBook P) (b' : OrderBook P') (o : Order P) :
    Prop where
  fills : Leviathan.fills b' (ρ.order o) = (Leviathan.fills b o).map ρ.trade
  matched : Relabelled ρ (matched b o) (matched b' (ρ.order o))
  rests : Rests b' (ρ.order o) ↔ Rests b o
  remainder : Rests b o → Leviathan.remainder b' (ρ.order o) = ρ.order (Leviathan.remainder b o)

lemma Relabelled.sameFills (h : Relabelled ρ b b') (hwf : BookWF b) (hwf' : BookWF b')
    {o : Order P} (hm : ρ.Meets b o) : SameFills ρ b b' o := by
  obtain ⟨X, Y, hX, hY, hXY, hne, hcover⟩ := h.crossing hwf hwf' hm
  -- the quantity that comes to `X`
  have hzero : X = [] ∨ o.qty - total Order.qty (eligible b o) = 0 :=
    hcover.imp_right fun hle => by omega
  have helig : eligible b' (ρ.order o) = (eligible b o).map ρ.order ++ orders X := by
    rw [← (crossing_levels hwf' (ρ.order o)).2.2, hX, orders_append, ρ.orders_levels,
      (crossing_levels hwf o).2.2]
  have htotal : total Order.qty ((eligible b o).map ρ.order) = total Order.qty (eligible b o) :=
    total_map Order.qty ρ.order (fun _ => rfl) _
  have hallot : allot Order.qty o.qty (eligible b' (ρ.order o))
      = (allot Order.qty o.qty (eligible b o)).map (Prod.map ρ.order id) := by
    have hmap : allot Order.qty o.qty ((eligible b o).map ρ.order)
        = (allot Order.qty o.qty (eligible b o)).map (Prod.map ρ.order id) :=
      allot_map Order.qty ρ.order (fun _ => rfl) _ _
    rw [helig, allot_append, htotal, hmap]
    rcases hzero with rfl | hzero
    · simp
    · rw [hzero, allot_zero, List.append_nil]
  have hused :
      usedUp o.qty (eligible b' (ρ.order o)) = (usedUp o.qty (eligible b o)).map ρ.order := by
    have hmap : spent Order.qty o.qty ((eligible b o).map ρ.order)
        = spent Order.qty o.qty (eligible b o) := spent_map Order.qty ρ.order (fun _ => rfl) _ _
    have hnone : spent Order.qty (o.qty - total Order.qty (eligible b o)) (orders X) = 0 := by
      rcases hzero with rfl | hzero
      · exact spent_nil _ _
      · rw [hzero, spent_zero]
    have hle : spent Order.qty o.qty (eligible b o) ≤ ((eligible b o).map ρ.order).length := by
      rw [List.length_map]
      exact spent_le_length _ _ _
    rw [helig, usedUp, spent_append, htotal, hmap, hnone, Nat.add_zero,
      List.take_append_of_le_length hle, usedUp, List.map_take]
  have hdrained : drained b' (ρ.order o) = ρ.levels (drained b o) := by
    have hmap : drain Order.qty Order.cutTo o.qty
          (ρ.levels ((b.side o.side.opposite).filter fun l => o.Crosses l.1))
        = ρ.levels (drain Order.qty Order.cutTo o.qty
          ((b.side o.side.opposite).filter fun l => o.Crosses l.1)) :=
      drain_map Order.qty Order.cutTo ρ.price ρ.order (fun _ => rfl) (fun _ _ => rfl) _ _
    have hflat : total Order.qty ((ρ.levels
          ((b.side o.side.opposite).filter fun l => o.Crosses l.1)).flatMap Prod.snd)
        = total Order.qty (eligible b o) := by
      have horders := ρ.orders_levels ((b.side o.side.opposite).filter fun l => o.Crosses l.1)
      rw [(crossing_levels hwf o).2.2] at horders
      rw [← htotal, ← horders]
      rfl
    have hkeep : drain Order.qty Order.cutTo (o.qty - total Order.qty (eligible b o)) X = X := by
      rcases hzero with rfl | hzero
      · rfl
      · rw [hzero, drain_zero _ _ hne]
    rw [drained, hX, hY, ρ.order_qty, drain_append, hflat, hkeep, hmap, List.append_assoc, hXY,
      ← ρ.levels_append]
    rfl
  have hrests : Rests b' (ρ.order o) ↔ Rests b o := by
    rw [Rests, Rests, helig, total_append, htotal, ρ.order_type, ρ.order_qty]
    rcases hcover with rfl | hle
    · simp
    · constructor <;> rintro ⟨-, hlt⟩ <;> omega
  refine ⟨?_, ?_, hrests, ?_⟩
  · rw [Leviathan.fills, ρ.order_qty, hallot, Leviathan.fills, List.map_map, List.map_map]
    exact List.map_congr_left fun f _ => ρ.tradeWith o f.1 f.2
  · rw [Leviathan.matched, Leviathan.matched, hdrained, ρ.order_qty, hused, ρ.order_side,
      ← ρ.side_opposite]
    exact (h.setSide o.side.opposite _).setIndex (lookup_eraseIds_location h.index _)
  · intro hr
    have hX : X = [] := hcover.resolve_right fun hle => by
      have := hr.2
      omega
    rw [Leviathan.remainder, helig, hX, orders_nil, List.append_nil, htotal, ρ.order_qty]
    rfl

/-- **Submitting** an order to both books. -/
lemma Relabelled.submitOrder (h : Relabelled ρ b b') (hwf : BookWF b) (hwf' : BookWF b')
    {o : Order P} (hrefused : Refused b' (ρ.order o) ↔ Refused b o)
    (hm : ¬ Refused b o → ρ.Meets b o)
    (hfits : ¬ Refused b o → Rests b o → ρ.Fits o.side o.price (b.side o.side)) :
    (submitOrder b' (ρ.order o)).1 = (submitOrder b o).1.map ρ.trade
      ∧ Relabelled ρ (submitOrder b o).2 (submitOrder b' (ρ.order o)).2 := by
  rw [submitOrder_eq hwf, submitOrder_eq hwf']
  by_cases hr : Refused b o
  · rw [if_pos hr, if_pos (hrefused.mpr hr)]
    exact ⟨rfl, h⟩
  · obtain ⟨hfills, hmatched, hrests, hrem⟩ := h.sameFills hwf hwf' (hm hr)
    rw [if_neg hr, if_neg fun hc => hr (hrefused.mp hc)]
    refine ⟨hfills, ?_⟩
    by_cases hre : Rests b o
    · simp only [if_pos hre, if_pos (hrests.mpr hre)]
      rw [hrem hre]
      refine hmatched.addOrder ?_
      have hside : (Leviathan.matched b o).side (Leviathan.remainder b o).side = b.side o.side :=
        side_matched b o
      rw [hside]
      exact hfits hr hre
    · simp only [if_neg hre, if_neg fun hc => hre (hrests.mp hc)]
      exact hmatched

/-- A map that keeps the crossing tests keeps the preview. -/
lemma Relabelled.refused (h : Relabelled ρ b b') (hwf : BookWF b) (hwf' : BookWF b') {o : Order P}
    (hcross : ∀ l ∈ b.side o.side.opposite, (ρ.order o).Crosses (ρ.price l.1) ↔ o.Crosses l.1) :
    Refused b' (ρ.order o) ↔ Refused b o := by
  have hm : ρ.Meets b o := ⟨fun l hl => (hcross l hl).mpr, Or.inl fun l hl => (hcross l hl).mp⟩
  have helig : eligible b' (ρ.order o) = (eligible b o).map ρ.order := by
    rw [← (crossing_levels hwf' (ρ.order o)).2.2, ← (crossing_levels hwf o).2.2, ← ρ.orders_levels,
      ρ.order_side, ← ρ.side_opposite, h.side, Relabelling.levels, List.filter_map]
    refine congrArg orders (congrArg (List.map _) (List.filter_congr fun l hl => ?_))
    simpa using hcross l hl
  have hsum : SumReaches b' (ρ.order o) ↔ SumReaches b o := by
    rw [SumReaches, SumReaches, helig, List.length_map]
    refine exists_congr fun i => and_congr_right fun _ => ?_
    rw [← List.map_take, total_map Order.qty ρ.order (fun _ => rfl)]
    rfl
  have hfok : o.type = .fok →
      (canFullyFill b' (ρ.order o).side (ρ.order o).price (ρ.order o).quantity = false
        ↔ canFullyFill b o.side o.price o.quantity = false) := by
    intro ht
    have hnm : o.type ≠ .market := by simp [ht]
    have h1 : canFullyFill b o.side o.price o.quantity = true ↔ SumReaches b o :=
      canFullyFill_iff hwf hnm
    have h2 : canFullyFill b' (ρ.order o).side (ρ.order o).price (ρ.order o).quantity = true
        ↔ SumReaches b' (ρ.order o) := canFullyFill_iff hwf' hnm
    rw [← Bool.not_eq_true, ← Bool.not_eq_true, h1, h2, hsum]
  exact or_congr Iff.rfl (and_congr_right hfok)

/-- A submission along a map that keeps every comparison it makes. -/
lemma Relabelled.submitOrder_of_crosses (h : Relabelled ρ b b') (hwf : BookWF b)
    (hwf' : BookWF b') {o : Order P}
    (hcross : ∀ l ∈ b.side o.side.opposite, (ρ.order o).Crosses (ρ.price l.1) ↔ o.Crosses l.1)
    (hfits : ρ.Fits o.side o.price (b.side o.side)) :
    (Leviathan.submitOrder b' (ρ.order o)).1 = (Leviathan.submitOrder b o).1.map ρ.trade
      ∧ Relabelled ρ (Leviathan.submitOrder b o).2 (Leviathan.submitOrder b' (ρ.order o)).2 :=
  h.submitOrder hwf hwf' (h.refused hwf hwf' hcross)
    (fun _ => ⟨fun l hl => (hcross l hl).mpr, Or.inl fun l hl => (hcross l hl).mp⟩)
    fun _ _ => hfits

/-! ### modifyOrder -/

/-- **Modifying** an order in both books: the two take the same way as long as the map keeps the
comparison of the new price with the old, and the resubmission of the last way goes alike. -/
lemma Relabelled.modifyOrder (h : Relabelled ρ b b') {counter counter' id : UInt64} {p : P}
    {q : UInt64}
    (hid : ∀ s price, b.orderIndex.lookup id = some ⟨s, price⟩ → ρ.Fits s price (b.side s))
    (hp : ∀ s price order, b.orderIndex.lookup id = some ⟨s, price⟩ →
      findOrderInDeque s (b.side s) price id = some order → q ≠ 0 → q ≤ order.quantity →
        (ρ.price p = ρ.price price ↔ p = price))
    (hsubmit : ∀ s price order, b.orderIndex.lookup id = some ⟨s, price⟩ →
      findOrderInDeque s (b.side s) price id = some order → q ≠ 0 →
      ¬ (p = price ∧ q ≤ order.quantity) →
        (Leviathan.submitOrder (Leviathan.cancelOrder b' id).2
              ⟨id, ρ.side s, ρ.price p, q, counter', .limit⟩).1
            = (Leviathan.submitOrder (Leviathan.cancelOrder b id).2
              ⟨id, s, p, q, counter, .limit⟩).1.map ρ.trade
          ∧ Relabelled ρ (Leviathan.submitOrder (Leviathan.cancelOrder b id).2
              ⟨id, s, p, q, counter, .limit⟩).2
            (Leviathan.submitOrder (Leviathan.cancelOrder b' id).2
              ⟨id, ρ.side s, ρ.price p, q, counter', .limit⟩).2) :
    (modifyOrder b' counter' id (ρ.price p) q).1
        = (modifyOrder b counter id p q).1.map (List.map ρ.trade)
      ∧ Relabelled ρ (Leviathan.modifyOrder b counter id p q).2.1
        (Leviathan.modifyOrder b' counter' id (ρ.price p) q).2.1 := by
  obtain ⟨hok, hcancel⟩ := h.cancelOrder hid
  rw [modifyOrder_eq, modifyOrder_eq, h.index]
  cases hl : b.orderIndex.lookup id with
  | none => exact ⟨rfl, h⟩
  | some loc =>
      obtain ⟨s, price⟩ := loc
      have hfits := hid s price hl
      simp only [Option.map_some, Relabelling.location, h.side, findOrderInDeque_levels hfits]
      by_cases hq : q = 0
      · rw [if_pos hq, if_pos hq, hok]
        refine ⟨?_, hcancel⟩
        split_ifs <;> rfl
      · rw [if_neg hq, if_neg hq]
        cases hf : findOrderInDeque s (b.side s) price id with
        | none => exact ⟨rfl, h⟩
        | some order =>
            have hiff : ρ.price p = ρ.price price ∧ q ≤ (ρ.order order).quantity
                ↔ p = price ∧ q ≤ order.quantity := by
              rw [ρ.order_quantity]
              constructor
              · rintro ⟨heq, hle⟩
                exact ⟨(hp s price order hl hf hq hle).mp heq, hle⟩
              · rintro ⟨heq, hle⟩
                exact ⟨congrArg ρ.price heq, hle⟩
            simp only [Option.map_some, hiff]
            by_cases hin : p = price ∧ q ≤ order.quantity
            · rw [if_pos hin, if_pos hin, writeQuantity_levels hfits]
              exact ⟨rfl, h.setSide s _⟩
            · rw [if_neg hin, if_neg hin]
              obtain ⟨htr, hbook⟩ := hsubmit s price order hl hf hq hin
              exact ⟨congrArg some htr, hbook⟩

end Submit

end Leviathan
