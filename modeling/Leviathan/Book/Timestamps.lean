import Leviathan.Book.Calls

/-!
Timestamps decide nothing.

`untimed` sets every timestamp of an order, a trade, a book, a call or a response to zero.
Every operation of the book commutes with it (`call_untimed`), so two runs whose calls agree
up to timestamps give responses and books that agree up to timestamps
(`untimed_run`): the matching never reads a timestamp, it only copies the taker's into its
trades.
-/

namespace Leviathan

variable {P : Type*}

/-- The order without its timestamp. -/
def Order.untimed (o : Order P) : Order P := { o with timestamp := 0 }

/-- The trade without its timestamp. -/
def Trade.untimed (t : Trade P) : Trade P := { t with timestamp := 0 }

/-- The side without timestamps. -/
def SideMap.untimed (m : SideMap P) : SideMap P := m.map (Prod.map id (List.map Order.untimed))

/-- The book without timestamps. -/
def OrderBook.untimed (b : OrderBook P) : OrderBook P :=
  { b with bids := SideMap.untimed b.bids, asks := SideMap.untimed b.asks }

/-- The call without timestamps. -/
def Call.untimed : Call P → Call P
  | .addOrder o => .addOrder o.untimed
  | .submitOrder o => .submitOrder o.untimed
  | .cancelOrder id => .cancelOrder id
  | .modifyOrder _ id p q => .modifyOrder 0 id p q

/-- The response without timestamps. -/
def Response.untimed : Response P → Response P
  | .trades ts => .trades (ts.map Trade.untimed)
  | .modified r => .modified (r.map (List.map Trade.untimed))
  | r => r

/-- The state of a matching loop without timestamps. -/
def Matching.untimed (s : Matching P) : Matching P :=
  ⟨s.incoming.untimed, SideMap.untimed s.levels, s.orderIndex, s.trades.map Trade.untimed⟩

section Order

variable (o : Order P)

@[simp] lemma Order.untimed_id : o.untimed.id = o.id := rfl
@[simp] lemma Order.untimed_side : o.untimed.side = o.side := rfl
@[simp] lemma Order.untimed_price : o.untimed.price = o.price := rfl
@[simp] lemma Order.untimed_quantity : o.untimed.quantity = o.quantity := rfl
@[simp] lemma Order.untimed_type : o.untimed.type = o.type := rfl

lemma Order.untimed_setQuantity (q : UInt64) :
    (o.setQuantity q).untimed = o.untimed.setQuantity q := rfl

end Order

@[simp] lemma OrderBook.untimed_side (b : OrderBook P) (s : Side) :
    b.untimed.side s = SideMap.untimed (b.side s) := by
  cases s <;> rfl

@[simp] lemma OrderBook.untimed_orderIndex (b : OrderBook P) :
    b.untimed.orderIndex = b.orderIndex := rfl

lemma OrderBook.untimed_setSide (b : OrderBook P) (s : Side) (m : SideMap P) :
    (b.setSide s m).untimed = b.untimed.setSide s (SideMap.untimed m) := by
  cases s <;> rfl

lemma OrderBook.untimed_setIndex (b : OrderBook P) (ix : OrderIndex P) :
    (b.setIndex ix).untimed = b.untimed.setIndex ix := rfl

lemma SideMap.untimed_cons (p : P) (q : List (Order P)) (m : SideMap P) :
    SideMap.untimed ((p, q) :: m) = (p, q.map Order.untimed) :: SideMap.untimed m := rfl

/-! ### The matching loop -/

section Loop

variable {stops : P → P → Bool} {record : Order P → Order P → UInt64 → Trade P} {skip : Bool}
  (hrec : ∀ i r q, record i.untimed r.untimed q = (record i r q).untimed)

include hrec

/-- A turn reads no timestamp. -/
lemma matchStep_untimed (s : Matching P) :
    matchStep stops record skip s.untimed
      = (matchStep stops record skip s).map Matching.untimed := by
  obtain ⟨incoming, levels, ix, trades⟩ := s
  by_cases hq : incoming.quantity = 0
  · simp [matchStep, Matching.untimed, hq]
  cases levels with
  | nil => simp [matchStep, Matching.untimed, SideMap.untimed]
  | cons l worse =>
      obtain ⟨best, q⟩ := l
      by_cases hstop : (!skip && stops best incoming.price) = true
      · simp [matchStep, Matching.untimed, SideMap.untimed_cons, hstop]
      cases q with
      | nil => simp [matchStep, Matching.untimed, SideMap.untimed_cons]
      | cons resting behind =>
          have hturn : ∀ n, record incoming.untimed resting.untimed n
              = (record incoming resting n).untimed := hrec incoming resting
          by_cases hz : resting.quantity - min incoming.quantity resting.quantity = 0
          · simp only [matchStep, Matching.untimed, SideMap.untimed_cons, hq, hstop, hz, hturn,
              removeFrontOrder, List.map_cons, Order.untimed_quantity, Order.untimed_price]
            cases behind with
            | nil => simp [Matching.untimed, Order.untimed_setQuantity]
            | cons => simp [Matching.untimed, Order.untimed_setQuantity, SideMap.untimed_cons]
          · simp [matchStep, Matching.untimed, SideMap.untimed_cons, hq, hstop, hz, hturn,
              Order.untimed_setQuantity]

lemma matchLoop_untimed (s : Matching P) :
    matchLoop stops record skip s.untimed = (matchLoop stops record skip s).untimed := by
  induction s using matchLoop.induct stops record skip with
  | case1 s hnone =>
      have hnone' := @matchStep_untimed P stops record skip hrec s
      rw [hnone] at hnone'
      rw [matchLoop_of_none hnone, matchLoop_of_none hnone']
  | case2 s s' hsome ih =>
      have hsome' := @matchStep_untimed P stops record skip hrec s
      rw [hsome] at hsome'
      rw [matchLoop_of_some hsome, matchLoop_of_some hsome', ih]

end Loop

/-! ### The preview -/

lemma previewQueue_untimed (needed available : UInt64) (q : List (Order P)) :
    previewQueue needed available (q.map Order.untimed) = previewQueue needed available q := by
  induction q generalizing available with
  | nil => rfl
  | cons o q ih =>
      simp only [List.map_cons, previewQueue, Order.untimed_quantity, ih]

lemma previewLevels_untimed (crosses : P → Bool) (needed available : UInt64) (m : SideMap P) :
    previewLevels crosses needed available (SideMap.untimed m)
      = previewLevels crosses needed available m := by
  induction m generalizing available with
  | nil => rfl
  | cons l m ih =>
      obtain ⟨p, q⟩ := l
      rw [SideMap.untimed_cons, previewLevels, previewLevels, previewQueue_untimed]
      simp only [ih]

/-! ### The operations -/

variable [LinearOrder P]

lemma canFullyFill_untimed (b : OrderBook P) (s : Side) (p : P) (q : UInt64) :
    canFullyFill b.untimed s p q = canFullyFill b s p q := by
  cases s with
  | buy => exact previewLevels_untimed _ _ _ _
  | sell => exact previewLevels_untimed _ _ _ _

lemma addOrder_untimed (b : OrderBook P) (o : Order P) :
    addOrder b.untimed o.untimed = (addOrder b o).untimed := by
  have hpush : pushBack o.side o.untimed (SideMap.untimed (b.side o.side))
      = SideMap.untimed (pushBack o.side o (b.side o.side)) :=
    OrderedMap.alter_map _ (List.map Order.untimed) (fun q => by simp) _ [] _
  rw [addOrder_eq, addOrder_eq, OrderBook.untimed_setIndex, OrderBook.untimed_setSide]
  simp only [Order.untimed_side, Order.untimed_id, Order.untimed_price, OrderBook.untimed_side,
    OrderBook.untimed_orderIndex, hpush]

lemma eraseFromSide_untimed (s : Side) (m : SideMap P) (p : P) (id : UInt64) :
    eraseFromSide s (SideMap.untimed m) p id
      = (eraseFromSide s m p id).map SideMap.untimed := by
  have hid : (fun o : Order P => o.id == id) ∘ Order.untimed = fun o => o.id == id := rfl
  rw [eraseFromSide, eraseFromSide, SideMap.untimed, OrderedMap.find?_map]
  cases OrderedMap.find? s.before p m with
  | none => rfl
  | some q =>
      simp only [Option.map_some, List.any_map, List.eraseP_map, hid]
      split_ifs
      · cases q.eraseP (·.id == id) with
        | nil => exact congrArg some (OrderedMap.erase_map _ _ _ _)
        | cons o q' =>
            exact congrArg some (OrderedMap.alter_map _ (List.map Order.untimed)
              (u := fun _ => o :: q') (fun _ => rfl) _ [] _)
      · rfl

lemma cancelOrder_untimed (b : OrderBook P) (id : UInt64) :
    cancelOrder b.untimed id = ((cancelOrder b id).1, (cancelOrder b id).2.untimed) := by
  rw [cancelOrder_eq, cancelOrder_eq, OrderBook.untimed_orderIndex]
  cases b.orderIndex.lookup id with
  | none => rfl
  | some loc =>
      obtain ⟨s, p⟩ := loc
      simp only [OrderBook.untimed_side, eraseFromSide_untimed]
      cases eraseFromSide s (b.side s) p id with
      | none => rfl
      | some m =>
          simp only [Option.map_some, OrderBook.untimed_setIndex, OrderBook.untimed_setSide]

lemma matchSide_untimed (s : Side) (skip : Bool) (st : Matching P) :
    matchSide s skip st.untimed = (matchSide s skip st).untimed := by
  cases s with
  | buy => exact matchLoop_untimed (fun _ _ _ => rfl) st
  | sell => exact matchLoop_untimed (fun _ _ _ => rfl) st

/-- **Submitting** an order reads no timestamp. -/
lemma submitOrder_untimed (b : OrderBook P) (o : Order P) :
    submitOrder b.untimed o.untimed
      = ((submitOrder b o).1.map Trade.untimed, (submitOrder b o).2.untimed) := by
  have hside : b.untimed.side o.untimed.side.opposite
      = SideMap.untimed (b.side o.side.opposite) := b.untimed_side _
  have hloop : matchSide o.untimed.side (decide (o.untimed.type = .market))
        ⟨o.untimed, SideMap.untimed (b.side o.side.opposite), b.untimed.orderIndex, []⟩
      = (matchSide o.side (decide (o.type = .market))
          ⟨o, b.side o.side.opposite, b.orderIndex, []⟩).untimed :=
    matchSide_untimed o.side _ ⟨o, b.side o.side.opposite, b.orderIndex, []⟩
  rw [submitOrder_by_side, submitOrder_by_side, hside, hloop, canFullyFill_untimed]
  generalize matchSide o.side (decide (o.type = .market))
    ⟨o, b.side o.side.opposite, b.orderIndex, []⟩ = s
  have hbook : (b.untimed.setSide o.side.opposite s.untimed.levels).setIndex s.untimed.orderIndex
      = ((b.setSide o.side.opposite s.levels).setIndex s.orderIndex).untimed := by
    rw [OrderBook.untimed_setIndex, OrderBook.untimed_setSide]
    rfl
  have hincoming : s.untimed.incoming = s.incoming.untimed := rfl
  simp only [Order.untimed_quantity, Order.untimed_type, Order.untimed_side, Order.untimed_price,
    hbook, hincoming, addOrder_untimed]
  split_ifs <;> first | rfl | contradiction

lemma findOrderInDeque_untimed (s : Side) (m : SideMap P) (p : P) (id : UInt64) :
    findOrderInDeque s (SideMap.untimed m) p id
      = (findOrderInDeque s m p id).map Order.untimed := by
  have hid : (fun o : Order P => o.id == id) ∘ Order.untimed = fun o => o.id == id := rfl
  rw [findOrderInDeque, findOrderInDeque, SideMap.untimed, OrderedMap.find?_map]
  cases OrderedMap.find? s.before p m with
  | none => rfl
  | some q => simp only [Option.map_some, List.find?_map, hid]

lemma writeQuantity_untimed (s : Side) (m : SideMap P) (p : P) (id q : UInt64) :
    writeQuantity s (SideMap.untimed m) p id q = SideMap.untimed (writeQuantity s m p id q) := by
  refine OrderedMap.alter_map _ (List.map Order.untimed) ?_ _ [] _
  intro l
  induction l with
  | nil => rfl
  | cons o l ih =>
      by_cases hid : o.id = id
      · simp [hid, Order.untimed_setQuantity]
      · simpa [hid] using ih

/-- **Modifying** an order reads no timestamp, and the order it constructs is told apart by
nothing else from one constructed at another time. -/
lemma modifyOrder_untimed (b : OrderBook P) (counter id : UInt64) (p : P) (q : UInt64) :
    (modifyOrder b.untimed 0 id p q).1
        = (modifyOrder b counter id p q).1.map (List.map Trade.untimed)
      ∧ (modifyOrder b.untimed 0 id p q).2.1 = (modifyOrder b counter id p q).2.1.untimed := by
  rw [modifyOrder_eq, modifyOrder_eq, OrderBook.untimed_orderIndex]
  cases b.orderIndex.lookup id with
  | none => exact ⟨rfl, rfl⟩
  | some loc =>
      obtain ⟨s, price⟩ := loc
      simp only [OrderBook.untimed_side, findOrderInDeque_untimed, cancelOrder_untimed]
      split_ifs
      · exact ⟨rfl, rfl⟩
      · exact ⟨rfl, rfl⟩
      · cases findOrderInDeque s (b.side s) price id with
        | none => exact ⟨rfl, rfl⟩
        | some o =>
            have hsub := submitOrder_untimed (cancelOrder b id).2
              ⟨id, s, p, q, counter, .limit⟩
            have hord : Order.untimed ⟨id, s, p, q, counter, .limit⟩
                = (⟨id, s, p, q, 0, .limit⟩ : Order P) := rfl
            rw [hord] at hsub
            simp only [Option.map_some, Order.untimed_quantity, hsub, writeQuantity_untimed]
            split_ifs
            · exact ⟨rfl, (OrderBook.untimed_setSide _ _ _).symm⟩
            · exact ⟨rfl, rfl⟩

/-- **One call** reads no timestamp. -/
theorem call_untimed (b : OrderBook P) (c : Call P) :
    call b.untimed c.untimed = ((call b c).1.untimed, (call b c).2.untimed) := by
  cases c with
  | addOrder o => exact congrArg (Prod.mk _) (addOrder_untimed b o)
  | submitOrder o => simp only [call, Call.untimed, Response.untimed, submitOrder_untimed]
  | cancelOrder id => simp only [call, Call.untimed, Response.untimed, cancelOrder_untimed]
  | modifyOrder counter id p q =>
      obtain ⟨h1, h2⟩ := modifyOrder_untimed b counter id p q
      simp only [call, Call.untimed, Response.untimed, h1, h2]

/-- Calls that agree up to timestamps, on books that do, give responses and books that do. -/
lemma call_congr {b b' : OrderBook P} {c c' : Call P} (hb : b.untimed = b'.untimed)
    (hc : c.untimed = c'.untimed) :
    (call b c).1.untimed = (call b' c').1.untimed
      ∧ (call b c).2.untimed = (call b' c').2.untimed := by
  have h := call_untimed b c
  rw [hb, hc, call_untimed b' c'] at h
  exact ⟨(Prod.mk.inj h).1.symm, (Prod.mk.inj h).2.symm⟩

/-- **Whole runs** of calls that agree up to timestamps do so in every response and in the
book they leave. -/
theorem untimed_run {b b' : OrderBook P} {cs cs' : List (Call P)} (hb : b.untimed = b'.untimed)
    (hcs : List.Forall₂ (fun c c' => c.untimed = c'.untimed) cs cs') :
    List.Forall₂ (fun r r' : Response P => r.untimed = r'.untimed) (Machine.answers call b cs)
        (Machine.answers call b' cs')
      ∧ (Machine.final call b cs).untimed = (Machine.final call b' cs').untimed :=
  Machine.simulation call (R := fun b b' : OrderBook P => b.untimed = b'.untimed)
    (fun _ _ _ _ hb hc => call_congr hb hc) hb hcs

end Leviathan
