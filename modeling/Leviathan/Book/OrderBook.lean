import Mathlib.Data.Finmap
import Leviathan.Foundations.OrderedMap
import Leviathan.Book.Order

/-!
`src/order_book.cpp`: the containers of an order book and the functions on them.

* **Containers.** A side of the book is a `SideMap`, the levels of a
  `std::map<double, std::deque<Order>>` in the order of the side's comparator
  (`Side.before`), so that `begin()` is the head of the list.  `order_index_` is a finite
  map from ids to locations.
* **Prices** are any type with decidable comparisons.  What is proved about the book takes
  a linear order; the definitions do not, so that they can also be read with a value on
  which every comparison is false.
* **The matching loop** is `matchStep`, one turn of the `while` loop, and `matchLoop`, its
  iteration; `matchBuy` and `matchSell` are the two copies the source writes out, with the
  comparison that breaks the loop and the record of a fill each has.  The loop stops
  because of `matchStep_measure`: a turn either removes a resting order or exhausts the
  incoming one.
* `front()` of an empty queue is undefined in the source; the turn stops the loop there.
-/

namespace Leviathan

/-- A side of the book: the price levels, best first, each with its queue. -/
abbrev SideMap (P : Type*) := List (P × List (Order P))

/-- `OrderBook::OrderLocation`. -/
structure OrderLocation (P : Type*) where
  side : Side
  price : P
  deriving DecidableEq, Repr

/-- `order_index_`. -/
abbrev OrderIndex (P : Type*) := Finmap fun _ : UInt64 => OrderLocation P

/-- `OrderBook`. -/
structure OrderBook (P : Type*) where
  bids : SideMap P
  asks : SideMap P
  orderIndex : OrderIndex P
  deriving DecidableEq

/-- `OrderBook::PriceLevel`. -/
structure PriceLevel (P : Type*) where
  price : P
  aggregateQuantity : UInt64
  orderCount : ℕ
  deriving DecidableEq, Repr

/-- The book a default-constructed `OrderBook` holds. -/
def OrderBook.empty {P : Type*} : OrderBook P := ⟨[], [], ∅⟩

variable {P : Type*}

section Prices

variable [LT P] [DecidableLT P]

/-- The comparator of a side's map: `std::greater` for bids, `std::less` for asks. -/
def Side.before : Side → P → P → Prop
  | .buy, a, b => b < a
  | .sell, a, b => a < b

instance (s : Side) : DecidableRel (s.before (P := P)) := fun a b =>
  match s with
  | .buy => inferInstanceAs (Decidable (b < a))
  | .sell => inferInstanceAs (Decidable (a < b))

/-! ### addOrder and cancelOrder -/

/-- `side_map[order.price].push_back(order)`. -/
def pushBack (s : Side) (order : Order P) (sideMap : SideMap P) : SideMap P :=
  OrderedMap.alter s.before order.price [] (· ++ [order]) sideMap

/-- `OrderBook::addOrder`. -/
def addOrder (book : OrderBook P) (order : Order P) : OrderBook P :=
  let orderIndex := book.orderIndex.insert order.id ⟨order.side, order.price⟩
  match order.side with
  | .buy => { book with bids := pushBack .buy order book.bids, orderIndex }
  | .sell => { book with asks := pushBack .sell order book.asks, orderIndex }

/-- `eraseFromSide`: the side without the first order of that id in that level, and
without the level if this empties it; `none` is the answer `false`. -/
def eraseFromSide (s : Side) (sideMap : SideMap P) (price : P) (orderId : UInt64) :
    Option (SideMap P) :=
  match OrderedMap.find? s.before price sideMap with
  | none => none
  | some q =>
      if q.any (·.id == orderId) then
        match q.eraseP (·.id == orderId) with
        | [] => some (OrderedMap.erase s.before price sideMap)
        | o :: q' => some (OrderedMap.alter s.before price [] (fun _ => o :: q') sideMap)
      else none

/-- `OrderBook::cancelOrder`. -/
def cancelOrder (book : OrderBook P) (orderId : UInt64) : Bool × OrderBook P :=
  match book.orderIndex.lookup orderId with
  | none => (false, book)
  | some ⟨.buy, price⟩ =>
      match eraseFromSide .buy book.bids price orderId with
      | none => (false, book)
      | some bids => (true, { book with bids, orderIndex := book.orderIndex.erase orderId })
  | some ⟨.sell, price⟩ =>
      match eraseFromSide .sell book.asks price orderId with
      | none => (false, book)
      | some asks => (true, { book with asks, orderIndex := book.orderIndex.erase orderId })

end Prices

/-! ### The queries -/

/-- `OrderBook::bestBid`. -/
def bestBid (book : OrderBook P) : Option P := book.bids.head?.map Prod.fst

/-- `OrderBook::bestAsk`. -/
def bestAsk (book : OrderBook P) : Option P := book.asks.head?.map Prod.fst

/-- `OrderBook::totalOrderCount`. -/
def totalOrderCount (book : OrderBook P) : ℕ := book.orderIndex.keys.card

/-- The aggregation of `depthFromMap`: `agg_qty` is a 64-bit word and wraps. -/
def aggregate (price : P) (q : List (Order P)) : PriceLevel P :=
  ⟨price, q.foldl (fun agg order => agg + order.quantity) 0, q.length⟩

/-- `depthFromMap`: `none` is the exception that `reserve` throws for more elements than `maxSize`,
the largest reservation that it grants, `max_size()` of the vector or less where memory is short. -/
def depthFromMap (maxSize : ℕ) (sideMap : SideMap P) (maxLevels : UInt64) :
    Option (List (PriceLevel P)) :=
  if maxSize < maxLevels.toNat then none
  else some ((sideMap.take maxLevels.toNat).map fun level => aggregate level.1 level.2)

/-- `OrderBook::getDepth`. -/
def getDepth (maxSize : ℕ) (book : OrderBook P) (side : Side) (maxLevels : UInt64) :
    Option (List (PriceLevel P)) :=
  match side with
  | .buy => depthFromMap maxSize book.bids maxLevels
  | .sell => depthFromMap maxSize book.asks maxLevels

/-! ### The fill-or-kill preview -/

/-- The inner loop of `canFullyFillFromMap_`, from the sum `available` on: `none` is the
early `return true`. -/
def previewQueue (needed : UInt64) : UInt64 → List (Order P) → Option UInt64
  | available, [] => some available
  | available, order :: q =>
      let available := available + order.quantity
      if needed ≤ available then none else previewQueue needed available q

/-- The outer loop of `canFullyFillFromMap_`. -/
def previewLevels (crosses : P → Bool) (needed : UInt64) : UInt64 → SideMap P → Bool
  | _, [] => false
  | available, (price, q) :: worse =>
      if crosses price then
        match previewQueue needed available q with
        | none => true
        | some available => previewLevels crosses needed available worse
      else false

/-- `canFullyFillFromMap_`. -/
def canFullyFillFromMap (sideMap : SideMap P) (price : P) (needed : UInt64)
    (crosses : P → P → Bool) : Bool :=
  previewLevels (crosses · price) needed 0 sideMap

/-- `OrderBook::canFullyFill_`. -/
def canFullyFill [LE P] [DecidableLE P] (book : OrderBook P) (incomingSide : Side) (price : P)
    (quantity : UInt64) : Bool :=
  match incomingSide with
  | .buy => canFullyFillFromMap book.asks price quantity fun askPrice limit => askPrice ≤ limit
  | .sell => canFullyFillFromMap book.bids price quantity fun bidPrice limit => limit ≤ bidPrice

/-! ### The matching loop -/

/-- What the matching loop mutates: the incoming order, the opposite side, the index and
the trades recorded. -/
@[ext] structure Matching (P : Type*) where
  incoming : Order P
  levels : SideMap P
  orderIndex : OrderIndex P
  trades : List (Trade P)

/-- `OrderBook::removeFrontOrder_` at the level `begin()`. -/
def removeFrontOrder (levels : SideMap P) (orderIndex : OrderIndex P) :
    SideMap P × OrderIndex P :=
  match levels with
  | (price, order :: q) :: worse =>
      (if q = [] then worse else (price, q) :: worse, orderIndex.erase order.id)
  | _ => (levels, orderIndex)

/-- One turn of a matching loop, `none` when the loop ends: `stops` is the comparison that
breaks it, of the best price with the incoming one, and `record` the trade a fill emits. -/
def matchStep (stops : P → P → Bool) (record : Order P → Order P → UInt64 → Trade P)
    (skipPriceCheck : Bool) (s : Matching P) : Option (Matching P) :=
  if s.incoming.quantity = 0 then none
  else
    match s.levels with
    | [] => none
    | (best, q) :: worse =>
        if !skipPriceCheck && stops best s.incoming.price then none
        else
          match q with
          | [] => none
          | resting :: behind =>
              let fillQty := min s.incoming.quantity resting.quantity
              let trades := s.trades ++ [record s.incoming resting fillQty]
              let incoming := s.incoming.setQuantity (s.incoming.quantity - fillQty)
              let resting := resting.setQuantity (resting.quantity - fillQty)
              let levels := (best, resting :: behind) :: worse
              if resting.quantity = 0 then
                let removed := removeFrontOrder levels s.orderIndex
                some ⟨incoming, removed.1, removed.2, trades⟩
              else some ⟨incoming, levels, s.orderIndex, trades⟩

/-- The resting orders of a side, best price first and in queue order. -/
def orders (sideMap : SideMap P) : List (Order P) := sideMap.flatMap Prod.snd

/-- The measure of the matching loops. -/
def Matching.measure (s : Matching P) : ℕ :=
  (orders s.levels).length + if s.incoming.quantity = 0 then 0 else 1

/-- **A turn of a matching loop**, in full: the queue it looks at is the best one, the two
quantities are cut by the fill, and the resting order leaves the book exactly when it is
not larger than the incoming one. -/
lemma matchStep_eq_some {stops : P → P → Bool}
    {record : Order P → Order P → UInt64 → Trade P} {skip : Bool} {s s' : Matching P}
    (h : matchStep stops record skip s = some s') :
    ∃ best resting behind worse,
      s.levels = (best, resting :: behind) :: worse
        ∧ s.incoming.qty ≠ 0
        ∧ (!skip && stops best s.incoming.price) = false
        ∧ s'.trades = s.trades
            ++ [record s.incoming resting (min s.incoming.quantity resting.quantity)]
        ∧ s'.incoming = s.incoming.cutTo (s.incoming.qty - resting.qty)
        ∧ (resting.qty ≤ s.incoming.qty
              ∧ s'.levels = (if behind = [] then worse else (best, behind) :: worse)
              ∧ s'.orderIndex = s.orderIndex.erase resting.id
            ∨ s.incoming.qty < resting.qty
              ∧ s'.levels
                = (best, resting.cutTo (resting.qty - s.incoming.qty) :: behind) :: worse
              ∧ s'.orderIndex = s.orderIndex) := by
  rw [matchStep] at h
  split_ifs at h with hq
  have hqty : s.incoming.qty ≠ 0 := Order.quantity_ne_zero_iff.mp hq
  split at h
  · simp at h
  · rename_i best q worse hlv
    split_ifs at h with hstop
    split at h
    · simp at h
    · rename_i resting behind
      have hrest : (resting.setQuantity (resting.quantity
          - min s.incoming.quantity resting.quantity)).quantity = 0
            ↔ resting.qty ≤ s.incoming.qty := by
        rw [Order.setQuantity_quantity, ← UInt64.toNat_inj, toNat_sub_min_right]
        exact Nat.sub_eq_zero_iff_le
      refine ⟨best, resting, behind, worse, hlv, hqty, by simpa using hstop, ?_⟩
      simp only [hrest] at h
      split_ifs at h with hle
      · obtain rfl := Option.some.inj h
        refine ⟨rfl, ?_, Or.inl ⟨hle, rfl, rfl⟩⟩
        rw [sub_min_left]
        rfl
      · obtain rfl := Option.some.inj h
        refine ⟨rfl, ?_, Or.inr ⟨by omega, ?_, rfl⟩⟩
        · rw [sub_min_left]
          rfl
        · rw [sub_min_right]
          rfl

/-- A turn removes a resting order or exhausts the incoming one. -/
lemma matchStep_measure {stops : P → P → Bool}
    {record : Order P → Order P → UInt64 → Trade P} {skip : Bool} {s s' : Matching P}
    (h : matchStep stops record skip s = some s') : s'.measure < s.measure := by
  obtain ⟨best, resting, behind, worse, hlv, hq, -, -, hin, hcase⟩ := matchStep_eq_some h
  have hbit : s.incoming.quantity ≠ 0 := Order.quantity_ne_zero_iff.mpr hq
  rw [Matching.measure, Matching.measure, if_neg hbit]
  rcases hcase with ⟨-, hlv', -⟩ | ⟨hlt, hlv', -⟩
  · have hlen : (orders s'.levels).length + 1 = (orders s.levels).length := by
      rw [hlv, hlv']
      split_ifs with hb <;> simp [orders, hb, Nat.add_right_comm]
    split_ifs <;> omega
  · have hlen : (orders s'.levels).length = (orders s.levels).length := by
      rw [hlv, hlv']
      simp [orders]
    have hz : s'.incoming.quantity = 0 := by
      rw [hin, Nat.sub_eq_zero_of_le hlt.le]
      rfl
    rw [if_pos hz, hlen]
    omega

/-- A matching loop: its turns until one ends it. -/
@[semireducible] def matchLoop (stops : P → P → Bool)
    (record : Order P → Order P → UInt64 → Trade P) (skipPriceCheck : Bool) (s : Matching P) :
    Matching P :=
  match _h : matchStep stops record skipPriceCheck s with
  | none => s
  | some s' => matchLoop stops record skipPriceCheck s'
termination_by s.measure
decreasing_by exact matchStep_measure _h

section Prices

variable [LT P] [DecidableLT P] [LE P] [DecidableLE P]

/-- The loop of `submitOrder` for an incoming BUY, over the asks. -/
def matchBuy : Bool → Matching P → Matching P :=
  matchLoop (fun best limit => limit < best)
    fun incoming resting fillQty =>
      { buyOrderId := incoming.id
        sellOrderId := resting.id
        price := resting.price
        quantity := fillQty
        timestamp := incoming.timestamp }

/-- The loop of `submitOrder` for an incoming SELL, over the bids. -/
def matchSell : Bool → Matching P → Matching P :=
  matchLoop (fun best limit => best < limit)
    fun incoming resting fillQty =>
      { buyOrderId := resting.id
        sellOrderId := incoming.id
        price := resting.price
        quantity := fillQty
        timestamp := incoming.timestamp }

/-! ### submitOrder and modifyOrder -/

/-- `OrderBook::submitOrder`. -/
def submitOrder (book : OrderBook P) (incoming : Order P) : List (Trade P) × OrderBook P :=
  if incoming.quantity = 0 then ([], book)
  else
    let skipPriceCheck := decide (incoming.type = .market)
    let neverRest := decide (incoming.type ≠ .limit)
    if incoming.type = .fok
        ∧ !canFullyFill book incoming.side incoming.price incoming.quantity then ([], book)
    else
      let (s, book) := match incoming.side with
        | .buy =>
            let s := matchBuy skipPriceCheck ⟨incoming, book.asks, book.orderIndex, []⟩
            (s, { book with asks := s.levels, orderIndex := s.orderIndex })
        | .sell =>
            let s := matchSell skipPriceCheck ⟨incoming, book.bids, book.orderIndex, []⟩
            (s, { book with bids := s.levels, orderIndex := s.orderIndex })
      (s.trades,
        if s.incoming.quantity ≠ 0 ∧ !neverRest then addOrder book s.incoming else book)

/-- `find_order_in_deque` of `modifyOrder`: the first order of that id in that level. -/
def findOrderInDeque (s : Side) (sideMap : SideMap P) (price : P) (orderId : UInt64) :
    Option (Order P) :=
  match OrderedMap.find? s.before price sideMap with
  | none => none
  | some q => q.find? (·.id == orderId)

/-- The write `order_ptr->quantity = new_quantity` through the pointer that
`find_order_in_deque` returned. -/
def writeQuantity (s : Side) (sideMap : SideMap P) (price : P) (orderId newQuantity : UInt64) :
    SideMap P :=
  OrderedMap.alter s.before price []
    (List.replaceF fun o => if o.id == orderId then some (o.setQuantity newQuantity) else none)
    sideMap

/-- `OrderBook::modifyOrder`, with the process-wide counter that the order constructed in
its last case is stamped from. -/
def modifyOrder [BEq P] (book : OrderBook P) (counter : UInt64) (orderId : UInt64) (newPrice : P)
    (newQuantity : UInt64) : Option (List (Trade P)) × OrderBook P × UInt64 :=
  match book.orderIndex.lookup orderId with
  | none => (none, book, counter)
  | some ⟨side, price⟩ =>
      if newQuantity = 0 then
        let (cancelled, book) := cancelOrder book orderId
        (if cancelled then some [] else none, book, counter)
      else
        let orderPtr := match side with
          | .buy => findOrderInDeque .buy book.bids price orderId
          | .sell => findOrderInDeque .sell book.asks price orderId
        match orderPtr with
        | none => (none, book, counter)
        | some order =>
            if newPrice == price ∧ newQuantity ≤ order.quantity then
              let book := match side with
                | .buy =>
                    { book with bids := writeQuantity .buy book.bids price orderId newQuantity }
                | .sell =>
                    { book with asks := writeQuantity .sell book.asks price orderId newQuantity }
              (some [], book, counter)
            else
              let (_, book) := cancelOrder book orderId
              let (newOrder, counter) :=
                Order.new counter orderId side newPrice newQuantity .limit
              let (trades, book) := submitOrder book newOrder
              (some trades, book, counter)

end Prices

end Leviathan
