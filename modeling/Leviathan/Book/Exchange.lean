import Leviathan.Foundations.Ranking
import Leviathan.Book.Index
import Leviathan.Book.NonCrossing
import Leviathan.Book.Preview

/-!
What an order book is for, and that the book of the source is one.

An `Exchange` is the list of the live orders as they arrived, with distinct ids.  It has no price
levels, no queues, no index and no matching loop: what an order trades is said order by order.

* A live order on the other side within the limit is met with what the incoming order asks for
  beyond `ahead`, the total of the orders it meets that have priority: a better price, or the same
  price and an earlier arrival.
* A trade is recorded for every order met while something is still asked for, in the order of
  priority; a fill-or-kill order is executed when the total, as a number, covers it.

`refines_exchange`: along every run that reuses no resting id and whose previews of fill-or-kill
orders stay below `2^64`, the calls of the book answer as those of the exchange do, and the queue
of every price is what is live at that price, as it arrived.
-/

namespace Leviathan

open Allotment Ranking

variable {P : Type*} [LinearOrder P]

/-! ### The exchange -/

/-- The live orders, in order of arrival. -/
structure Exchange (P : Type*) where
  live : List (Order P)
  distinct : (live.map Order.id).Nodup

namespace Exchange

omit [LinearOrder P] in
lemma distinct_filterMap {l : List (Order P)} (h : (l.map Order.id).Nodup)
    {f : Order P → Option (Order P)} (hf : ∀ x y, f x = some y → y.id = x.id) :
    ((l.filterMap f).map Order.id).Nodup := by
  have hsub : ((l.filterMap f).map Order.id).Sublist (l.map Order.id) := by
    induction l with
    | nil => exact List.Sublist.refl _
    | cons x l ih =>
        have ih := ih (List.nodup_cons.mp h).2
        cases hx : f x with
        | none =>
            rw [List.filterMap_cons_none hx]
            exact ih.cons _
        | some y =>
            rw [List.filterMap_cons_some hx, List.map_cons, List.map_cons, hf x y hx]
            exact ih.cons_cons _
  exact hsub.nodup h

omit [LinearOrder P] in
lemma distinct_concat {l : List (Order P)} (h : (l.map Order.id).Nodup) {o : Order P}
    (ho : o.id ∉ l.map Order.id) : ((l ++ [o]).map Order.id).Nodup := by
  rw [List.map_append, List.map_singleton]
  exact List.nodup_append.mpr ⟨h, List.nodup_singleton _, fun a ha b hb hab =>
    ho (List.mem_singleton.mp hb ▸ hab ▸ ha)⟩

/-- Nothing is live. -/
def empty : Exchange P := ⟨[], List.nodup_nil⟩

/-- The live orders edited one by one: each stays, is changed, or goes. -/
def edit (e : Exchange P) (f : Order P → Option (Order P))
    (hf : ∀ x y, f x = some y → y.id = x.id) : Exchange P :=
  ⟨e.live.filterMap f, distinct_filterMap e.distinct hf⟩

/-- An order arrives, unless its id is live. -/
def post (e : Exchange P) (o : Order P) : Exchange P :=
  if h : o.id ∈ e.live.map Order.id then e else ⟨e.live ++ [o], distinct_concat e.distinct h⟩

/-- The live orders that an incoming order can meet. -/
def meets (e : Exchange P) (o : Order P) : List (Order P) :=
  e.live.filter fun x => x.side = o.side.opposite ∧ o.Crosses x.price

/-- What the orders with priority over `x` hold, among those met. -/
def ahead (e : Exchange P) (o x : Order P) : ℕ :=
  total Order.qty <| (e.meets o).filter fun y =>
    OrderBefore o.side.opposite y x ∨ y.price = x.price ∧ y ∈ (e.meets o).takeWhile (· ≠ x)

/-- The trades of an incoming order. -/
def trades (e : Exchange P) (o : Order P) : List (Trade P) :=
  ((rank o.side.opposite.before Order.price (e.meets o)).filter fun x => e.ahead o x < o.qty).map
    fun x => o.tradeWith x (min x.qty (o.qty - e.ahead o x))

/-- What an incoming order leaves of a live one. -/
def left (e : Exchange P) (o x : Order P) : Option (Order P) :=
  if x ∈ e.meets o then survivor Order.qty Order.cutTo o.qty (e.ahead o x) x else some x

lemma left_eq_some {e : Exchange P} {o x y : Order P} (h : e.left o x = some y) :
    y.id = x.id ∧ y.side = x.side ∧ y.price = x.price := by
  rw [left, survivor] at h
  split_ifs at h
  all_goals
    obtain rfl := Option.some.inj h
    exact ⟨rfl, rfl, rfl⟩

/-- The live orders after an incoming one has traded. -/
def filled (e : Exchange P) (o : Order P) : Exchange P :=
  e.edit (e.left o) fun _ _ h => (left_eq_some h).1

/-- An incoming order: killed, or traded, a LIMIT order becoming live with what is left. -/
def submit (e : Exchange P) (o : Order P) : List (Trade P) × Exchange P :=
  if o.quantity = 0 ∨ o.type = .fok ∧ total Order.qty (e.meets o) < o.qty then ([], e)
  else
    (e.trades o,
      if o.type = .limit ∧ total Order.qty (e.meets o) < o.qty then
        (e.filled o).post (o.cutTo (o.qty - total Order.qty (e.meets o)))
      else e.filled o)

/-- The order of an id goes. -/
def withdraw (e : Exchange P) (id : UInt64) : Exchange P :=
  e.edit (fun x => if x.id = id then none else some x) fun x y h => by
    split_ifs at h
    exact (congrArg Order.id (Option.some.inj h)).symm

/-- The order of an id gets another quantity and keeps its place. -/
def resize (e : Exchange P) (id q : UInt64) : Exchange P :=
  e.edit (fun x => if x.id = id then some (x.setQuantity q) else some x) fun x y h => by
    split_ifs at h
    all_goals exact (congrArg Order.id (Option.some.inj h)).symm

/-- A modification: a smaller quantity at the same price keeps the place, anything else is a new
arrival of the id. -/
def modify (e : Exchange P) (counter id : UInt64) (p : P) (q : UInt64) :
    Option (List (Trade P)) × Exchange P :=
  match e.live.find? (·.id = id) with
  | none => (none, e)
  | some x =>
      if q = 0 then (some [], e.withdraw id)
      else if p = x.price ∧ q ≤ x.quantity then (some [], e.resize id q)
      else
        let r := (e.withdraw id).submit ⟨id, x.side, p, q, counter, .limit⟩
        (some r.1, r.2)

/-- A call. -/
def call (e : Exchange P) : Call P → Response P × Exchange P
  | .addOrder o => (.done, e.post o)
  | .submitOrder o => (.trades (e.submit o).1, (e.submit o).2)
  | .cancelOrder id => (.cancelled (decide (id ∈ e.live.map Order.id)), e.withdraw id)
  | .modifyOrder counter id p q =>
      (.modified (e.modify counter id p q).1, (e.modify counter id p q).2)

/-- The exchange that a sequence of calls leaves. -/
def after (cs : List (Call P)) : Exchange P := Machine.final call empty cs

end Exchange

/-! ### The book shows the exchange -/

/-- The queue of every price is what is live at that price, as it arrived. -/
def Shows (b : OrderBook P) (e : Exchange P) : Prop :=
  ∀ s p, b.queueAt s p = e.live.filter fun o => o.side = s ∧ o.price = p

lemma shows_iff {b : OrderBook P} (h : BookWF b) (e : Exchange P) :
    Shows b e ↔ ∀ s, b.resting s = rank s.before Order.price (e.live.filter (·.side = s)) := by
  have hqueue : ∀ s p, b.queueAt s p = (b.resting s).filter fun o => o.price = p :=
    fun s p => ((h s).filter_orders p).symm
  have hlive : ∀ s p, (e.live.filter (·.side = s)).filter (fun o => o.price = p)
      = e.live.filter fun o => o.side = s ∧ o.price = p := by
    intro s p
    rw [List.filter_filter]
    exact List.filter_congr fun o _ => by simp [and_comm]
  constructor
  · intro hs s
    have hsorted : Ranked s.before Order.price (b.resting s) := (h s).orders_sorted
    refine (rank_eq hsorted fun p => ?_).symm
    rw [hlive, ← hs s p, hqueue]
  · intro hs s p
    rw [hqueue, hs s, filter_rank, hlive]

namespace Shows

variable {b : OrderBook P} {e : Exchange P}

/-- The orders in reach, in the order of priority. -/
lemma eligible_eq (hs : Shows b e) (h : BookWF b) (o : Order P) :
    eligible b o = rank o.side.opposite.before Order.price (e.meets o) := by
  rw [eligible, (shows_iff h e).mp hs, ← rank_filter, List.filter_filter, Exchange.meets]
  congr 1
  exact List.filter_congr fun x _ => by simp [and_comm]

lemma total_eligible (hs : Shows b e) (h : BookWF b) (o : Order P) :
    total Order.qty (eligible b o) = total Order.qty (e.meets o) := by
  rw [hs.eligible_eq h]
  exact ((rank_perm _).map _).sum_eq

/-- In front of an order in reach stand those with priority over it. -/
lemma ahead_eq (hs : Shows b e) (h : BookWF b) {o x : Order P} {pre post : List (Order P)}
    (hx : eligible b o = pre ++ x :: post) : e.ahead o x = total Order.qty pre := by
  have hnodup : (e.meets o).Nodup := (List.Nodup.of_map Order.id e.distinct).filter _
  have hsplit := hx
  rw [hs.eligible_eq h] at hsplit
  have hmem : x ∈ e.meets o := by
    rw [← mem_rank o.side.opposite.before Order.price, hsplit]
    simp
  have hperm := takeWhile_rank o.side.opposite.before Order.price hnodup hmem
  rw [hsplit, takeWhile_ne (hsplit ▸ (rank_perm _).nodup_iff.mpr hnodup)] at hperm
  exact ((hperm.map Order.qty).sum_eq).symm

lemma mem_resting (hs : Shows b e) (h : BookWF b) {s : Side} {o : Order P} :
    o ∈ b.resting s ↔ o ∈ e.live ∧ o.side = s := by
  rw [(shows_iff h e).mp hs, mem_rank]
  simp

lemma mem_restingAll (hs : Shows b e) (h : BookWF b) {o : Order P} :
    o ∈ b.restingAll ↔ o ∈ e.live := by
  simp [OrderBook.mem_restingAll, hs.mem_resting h]

lemma mem_restingIds (hs : Shows b e) (h : BookWF b) {id : UInt64} :
    id ∈ b.restingIds ↔ id ∈ e.live.map Order.id := by
  simp only [OrderBook.restingIds, List.mem_map, hs.mem_restingAll h]

/-! ### One operation -/

lemma post (hs : Shows b e) (h : BookWF b) {o : Order P} (ho : o.id ∉ b.restingIds) :
    Shows (addOrder b o) (e.post o) := by
  intro s p
  have hfree : o.id ∉ e.live.map Order.id := fun hmem => ho ((hs.mem_restingIds h).mpr hmem)
  rw [queueAt_addOrder h, hs s p, Exchange.post, dif_neg hfree, List.filter_append]

/-- What edits the live orders as it edits the resting ones. -/
lemma edit (hs : Shows b e) (h : BookWF b) {b' : OrderBook P} (h' : BookWF b')
    {f : Order P → Option (Order P)} (hf : ∀ x y, f x = some y → y.id = x.id)
    (hhome : ∀ x y, f x = some y → y.side = x.side ∧ y.price = x.price)
    (hrest : ∀ s, b'.resting s = (b.resting s).filterMap f) : Shows b' (e.edit f hf) := by
  refine (shows_iff h' _).mpr fun s => ?_
  rw [hrest, (shows_iff h e).mp hs, ← rank_filterMap fun x y hxy => (hhome x y hxy).2]
  congr 1
  exact (filter_filterMap Order.side (fun x y hxy => (hhome x y hxy).1) e.live s).symm

end Shows

/-- Where the preview does not wrap, what turns an order away is said with the total. -/
lemma refused_iff {b : OrderBook P} (h : BookWF b) {o : Order P}
    (hp : o.type = .fok → total Order.qty (eligible b o) < 2 ^ 64) :
    Refused b o ↔ o.quantity = 0 ∨ o.type = .fok ∧ total Order.qty (eligible b o) < o.qty := by
  by_cases hq : o.quantity = 0
  · exact iff_of_true (Or.inl hq) (Or.inl hq)
  by_cases ht : o.type = .fok
  · have hcan := canFullyFill_iff_of_lt h (by simp [ht] : o.type ≠ .market) hq (hp ht)
    rw [Refused, ← Bool.not_eq_true, hcan, not_le]
  · simp [Refused, hq, ht]

/-! ### What an edit makes of the resting orders -/

omit [LinearOrder P] in
lemma filterMap_self {f : Order P → Option (Order P)} {l : List (Order P)}
    (h : ∀ x ∈ l, f x = some x) : l.filterMap f = l := by
  rw [List.filterMap_congr (g := some) h, List.filterMap_some]

lemma Removed.mem_resting {b b' : OrderBook P} {s : Side} {o : Order P} {bef aft : List (Order P)}
    (hr : Removed b b' s o bef aft) : o ∈ b.resting s := by
  rw [hr.resting]
  exact List.mem_append_right _ List.mem_cons_self

/-- An edit of the orders of one id, where a single order has it. -/
lemma Removed.filterMap {b b' : OrderBook P} (h : IndexExact b) {s : Side} {o : Order P}
    {bef aft : List (Order P)} (hr : Removed b b' s o bef aft) {f : Order P → Option (Order P)}
    (hf : ∀ x, x.id ≠ o.id → f x = some x) :
    (b.resting s).filterMap f = bef ++ (f o).toList ++ aft
      ∧ (b.resting s.opposite).filterMap f = b.resting s.opposite := by
  have hfree : ∀ t, ∀ x ∈ b'.resting t, f x = some x := fun t x hx =>
    hf x fun hid => (h.removed hr).2 (OrderBook.mem_restingIds.mpr ⟨t, x, hx, hid⟩)
  have hbef : bef.filterMap f = bef := filterMap_self fun x hx =>
    hfree s x (hr.resting' ▸ List.mem_append_left _ hx)
  have haft : aft.filterMap f = aft := filterMap_self fun x hx =>
    hfree s x (hr.resting' ▸ List.mem_append_right _ hx)
  have hother : b.resting s.opposite = b'.resting s.opposite :=
    (OrderBook.resting_congr hr.other).symm
  refine ⟨?_, ?_⟩
  · rw [hr.resting, List.filterMap_append, List.filterMap_cons, hbef, haft]
    cases f o with
    | none => simp
    | some x => simp
  · rw [hother]
    exact filterMap_self (hfree s.opposite)

namespace Shows

variable {b : OrderBook P} {e : Exchange P}

lemma withdraw (hs : Shows b e) (h : IndexExact b) {b' : OrderBook P} {s : Side} {o : Order P}
    {bef aft : List (Order P)} (hr : Removed b b' s o bef aft) : Shows b' (e.withdraw o.id) := by
  refine hs.edit h.wf hr.wf _ (fun x y hxy => ?_) fun t => ?_
  · split_ifs at hxy
    obtain rfl := Option.some.inj hxy
    exact ⟨rfl, rfl⟩
  · obtain ⟨hself, hother⟩ := hr.filterMap h
      (f := fun x => if x.id = o.id then none else some x) fun x hx => if_neg hx
    rcases Side.eq_or_eq_opposite s t with rfl | rfl
    · rw [hself, hr.resting', if_pos rfl]
      simp
    · rw [hother]
      exact OrderBook.resting_congr hr.other

lemma resize (hs : Shows b e) (h : IndexExact b) {b' b'' : OrderBook P} {s : Side} {o : Order P}
    {q : UInt64} {bef aft : List (Order P)} (hr : Removed b b' s o bef aft)
    (hw : Rewritten b b'' s o q bef aft) : Shows b'' (e.resize o.id q) := by
  refine hs.edit h.wf hw.wf _ (fun x y hxy => ?_) fun t => ?_
  · split_ifs at hxy
    all_goals
      obtain rfl := Option.some.inj hxy
      exact ⟨rfl, rfl⟩
  · obtain ⟨hself, hother⟩ := hr.filterMap h
      (f := fun x => if x.id = o.id then some (x.setQuantity q) else some x) fun x hx => if_neg hx
    rcases Side.eq_or_eq_opposite s t with rfl | rfl
    · rw [hself, hw.resting', if_pos rfl]
      simp
    · rw [hother]
      exact OrderBook.resting_congr hw.other

/-- **The matching loop** edits the live orders one by one. -/
lemma filled (hs : Shows b e) (h : BookWF b) (o : Order P) :
    Shows (matched b o) (e.filled o) := by
  refine hs.edit h (wf_matched h o) _ (fun x y hxy => (Exchange.left_eq_some hxy).2) fun t => ?_
  have hout : ∀ x, ¬ (x.side = o.side.opposite ∧ o.Crosses x.price) → e.left o x = some x := by
    intro x hx
    refine if_neg fun hmem => hx ?_
    simpa using (List.mem_filter.mp hmem).2
  rcases Side.eq_or_eq_opposite o.side t with rfl | rfl
  · rw [OrderBook.resting_congr (side_matched b o)]
    refine (filterMap_self fun x hx => hout x fun hm => ?_).symm
    exact o.side.opposite_ne (hm.1.symm.trans ((h o.side).side_of_mem hx))
  · have hmet : (eligible b o).filterMap (e.left o)
        = keep Order.qty Order.cutTo o.qty (eligible b o) := by
      rw [← Nat.sub_zero o.qty, keep_eq_filterMap Order.qty Order.cutTo (e.ahead o)
        fun pre x post hx => by rw [hs.ahead_eq h hx, Nat.zero_add]]
      refine List.filterMap_congr fun x hx => if_pos ?_
      rwa [hs.eligible_eq h, mem_rank] at hx
    have hnot : (ineligible b o).filterMap (e.left o) = ineligible b o := by
      refine filterMap_self fun x hx => hout x fun hm => ?_
      simpa [hm.2] using (List.mem_filter.mp hx).2
    rw [resting_matched_opposite h, eligible_append_ineligible h, List.filterMap_append, hmet,
      hnot]

/-- The fills of the loop are the trades of the exchange. -/
lemma trades_eq (hs : Shows b e) (h : BookWF b) (o : Order P) : fills b o = e.trades o := by
  have hallot := allot_eq_map Order.qty (e.ahead o) (Q := o.qty) (S := 0)
    (l := eligible b o) fun pre x post hx => by rw [hs.ahead_eq h hx, Nat.zero_add]
  rw [Nat.sub_zero] at hallot
  rw [fills, hallot, hs.eligible_eq h, Exchange.trades, List.map_map]
  rfl

lemma submit (hs : Shows b e) (h : IndexExact b) {o : Order P} (ho : o.id ∉ b.restingIds)
    (hp : o.type = .fok → total Order.qty (eligible b o) < 2 ^ 64) :
    (e.submit o).1 = (submitOrder b o).1 ∧ Shows (submitOrder b o).2 (e.submit o).2 := by
  have htotal := hs.total_eligible h.wf o
  have hkilled : Refused b o
      ↔ o.quantity = 0 ∨ o.type = .fok ∧ total Order.qty (e.meets o) < o.qty := by
    rw [refused_iff h.wf hp, htotal]
  have hrests : Rests b o ↔ o.type = .limit ∧ total Order.qty (e.meets o) < o.qty := by
    rw [Rests, htotal]
  rw [submitOrder_eq h.wf, Exchange.submit]
  simp only [hkilled, hrests]
  split_ifs with hk hr
  · exact ⟨rfl, hs⟩
  · refine ⟨(hs.trades_eq h.wf o).symm, ?_⟩
    have hrem : remainder b o = o.cutTo (o.qty - total Order.qty (e.meets o)) := by
      rw [remainder, htotal]
    rw [← hrem]
    refine (hs.filled h.wf o).post (wf_matched h.wf o) fun hmem => ho ?_
    exact mem_restingIds_matched h.wf hmem
  · exact ⟨(hs.trades_eq h.wf o).symm, hs.filled h.wf o⟩

/-- The live order of an id is the one the book would remove. -/
lemma find?_eq (hs : Shows b e) (h : IndexExact b) {b' : OrderBook P} {s : Side} {o : Order P}
    {bef aft : List (Order P)} (hr : Removed b b' s o bef aft) :
    e.live.find? (·.id = o.id) = some o := by
  have ho : o ∈ e.live :=
    (hs.mem_restingAll h.wf).mp (OrderBook.mem_restingAll.mpr ⟨s, hr.mem_resting⟩)
  cases hf : e.live.find? (·.id = o.id) with
  | none => exact absurd (List.find?_eq_none.mp hf o ho) (by simp)
  | some x =>
      have hid : x.id = o.id := by simpa using List.find?_some hf
      rw [List.inj_on_of_nodup_map e.distinct (List.mem_of_find?_eq_some hf) ho hid]

lemma modify (hs : Shows b e) (h : IndexExact b) (counter id : UInt64) (p : P) (q : UInt64) :
    (e.modify counter id p q).1 = (modifyOrder b counter id p q).1
      ∧ Shows (modifyOrder b counter id p q).2.1 (e.modify counter id p q).2 := by
  rcases h.cancelOrder_spec id with ⟨hid, -⟩ | ⟨s, o, bef, aft, rfl, hc, hr⟩
  · have hnone : e.live.find? (·.id = id) = none := by
      refine List.find?_eq_none.mpr fun x hx hxid => hid ((hs.mem_restingIds h.wf).mpr ?_)
      exact List.mem_map.mpr ⟨x, hx, by simpa using hxid⟩
    rcases modifyOrder_cases h.wf counter id p q with ⟨heq, -⟩ | ⟨s, o, bef, aft, rfl, -, hr, -⟩
    · rw [heq, Exchange.modify, hnone]
      exact ⟨rfl, hs⟩
    · exact absurd (OrderBook.mem_restingIds.mpr ⟨s, o, hr.mem_resting, rfl⟩) hid
  · have hfind := hs.find?_eq h hr
    rw [Exchange.modify, hfind]
    rcases hr.modifyOrder_cases h.wf hc counter p q with ⟨hq, heq⟩ | ⟨hq, hp, hle, b', heq, hw⟩
      | ⟨hq, hno, heq⟩
    · rw [heq]
      simp only [if_pos hq]
      exact ⟨trivial, hs.withdraw h hr⟩
    · rw [heq]
      simp only [if_neg hq, if_pos (And.intro hp hle)]
      exact ⟨trivial, hs.resize h hr hw⟩
    · rw [heq]
      have hside : o.side = s := (h.wf s).side_of_mem hr.mem_resting
      obtain ⟨hex, hfree⟩ := h.removed hr
      obtain ⟨htrades, hshows⟩ := (hs.withdraw h hr).submit hex
        (o := ⟨o.id, s, p, q, counter, .limit⟩) hfree (fun ht => by cases ht)
      simp only [if_neg hq, if_neg hno, hside]
      exact ⟨congrArg some htrades, hshows⟩

end Shows

/-! ### What can be read off -/

namespace Shows

variable {b : OrderBook P} {e : Exchange P}

lemma prices_eq (hs : Shows b e) (h : BookWF b) (s : Side) :
    {x | ∃ o ∈ b.resting s, o.price = x} = {x | ∃ o ∈ e.live, o.side = s ∧ o.price = x} := by
  refine Set.ext fun x => exists_congr fun o => ?_
  rw [hs.mem_resting h, and_assoc]

lemma bestBid_iff (hs : Shows b e) (h : BookWF b) (p : P) :
    bestBid b = some p ↔ IsGreatest {x | ∃ o ∈ e.live, o.side = .buy ∧ o.price = x} p := by
  rw [(bestBid_spec h).1 p, hs.prices_eq h]

lemma bestAsk_iff (hs : Shows b e) (h : BookWF b) (p : P) :
    bestAsk b = some p ↔ IsLeast {x | ∃ o ∈ e.live, o.side = .sell ∧ o.price = x} p := by
  rw [(bestAsk_spec h).1 p, hs.prices_eq h]

lemma totalOrderCount_eq (hs : Shows b e) (h : IndexExact b) :
    totalOrderCount b = e.live.length := by
  have hids : ∀ {l : List (Order P)}, (l.map Order.id).Nodup → l.Nodup :=
    fun hl => List.Nodup.of_map Order.id hl
  rw [totalOrderCount, h.tracks.card_keys]
  exact ((List.perm_ext_iff_of_nodup (hids h.tracks.nodup) (hids e.distinct)).mpr fun o =>
    hs.mem_restingAll h.wf).length_eq

end Shows

/-! ### Runs -/

/-- What the preview of a fill-or-kill order adds up stays below `2^64`. -/
def PreviewExact (b : OrderBook P) : Call P → Prop
  | .submitOrder o => o.type = .fok → total Order.qty (eligible b o) < 2 ^ 64
  | _ => True

instance (b : OrderBook P) (c : Call P) : Decidable (PreviewExact b c) :=
  match c with
  | .submitOrder o =>
      inferInstanceAs (Decidable (o.type = .fok → total Order.qty (eligible b o) < 2 ^ 64))
  | .addOrder _ => inferInstanceAs (Decidable True)
  | .cancelOrder _ => inferInstanceAs (Decidable True)
  | .modifyOrder _ _ _ _ => inferInstanceAs (Decidable True)

/-- **One call** of the book is the call of the exchange. -/
lemma Shows.call {b : OrderBook P} {e : Exchange P} (hs : Shows b e) (h : IndexExact b)
    {c : Call P} (hfresh : FreshIds b c) (hp : PreviewExact b c) :
    (e.call c).1 = (call b c).1 ∧ Shows (call b c).2 (e.call c).2 := by
  cases c with
  | addOrder o => exact ⟨rfl, hs.post h.wf hfresh⟩
  | submitOrder o =>
      obtain ⟨htrades, hshows⟩ := hs.submit h hfresh hp
      exact ⟨congrArg Response.trades htrades, hshows⟩
  | cancelOrder id =>
      rcases h.cancelOrder_spec id with ⟨hid, heq⟩ | ⟨s, o, bef, aft, rfl, hc, hr⟩
      · have hlive : id ∉ e.live.map Order.id := fun hmem => hid ((hs.mem_restingIds h.wf).mpr hmem)
        have hsame : e.withdraw id = e := by
          refine (Exchange.mk.injEq ..).mpr (filterMap_self fun x hx => if_neg fun hxid => hlive ?_)
          exact List.mem_map.mpr ⟨x, hx, hxid⟩
        simp only [Exchange.call, Leviathan.call, heq, hsame, decide_eq_false hlive]
        exact ⟨trivial, hs⟩
      · have hlive : o.id ∈ e.live.map Order.id :=
          (hs.mem_restingIds h.wf).mp (OrderBook.mem_restingIds.mpr ⟨s, o, hr.mem_resting, rfl⟩)
        simp only [Exchange.call, Leviathan.call, hc, decide_eq_true hlive]
        exact ⟨trivial, hs.withdraw h hr⟩
  | modifyOrder counter id p q =>
      obtain ⟨htrades, hshows⟩ := hs.modify h counter id p q
      exact ⟨congrArg Response.modified htrades, hshows⟩

/-- **The book is an exchange.**  Along every run that reuses no resting id and whose previews do
not wrap: every call answers as the exchange does; the queue of every price is what is live at that
price, as it arrived; the best prices and the count are those of what is live. -/
theorem refines_exchange (cs : List (Call P))
    (h : Machine.Guarded call (fun b c => FreshIds b c ∧ PreviewExact b c) OrderBook.empty cs) :
    responses cs = Machine.answers Exchange.call Exchange.empty cs
      ∧ (∀ s p, (after cs).queueAt s p
          = (Exchange.after cs).live.filter fun o => o.side = s ∧ o.price = p)
      ∧ (∀ p, bestBid (after cs) = some p
          ↔ IsGreatest {x | ∃ o ∈ (Exchange.after cs).live, o.side = .buy ∧ o.price = x} p)
      ∧ (∀ p, bestAsk (after cs) = some p
          ↔ IsLeast {x | ∃ o ∈ (Exchange.after cs).live, o.side = .sell ∧ o.price = x} p)
      ∧ totalOrderCount (after cs) = (Exchange.after cs).live.length := by
  have hstart : IndexExact (OrderBook.empty : OrderBook P)
      ∧ Shows (OrderBook.empty : OrderBook P) Exchange.empty :=
    ⟨IndexExact.empty, fun s p => by cases s <;> rfl⟩
  have hstep : ∀ (b : OrderBook P) (e : Exchange P) (c : Call P), IndexExact b ∧ Shows b e →
      FreshIds b c ∧ PreviewExact b c →
        (e.call c).1 = (call b c).1
          ∧ IndexExact (call b c).2 ∧ Shows (call b c).2 (e.call c).2 := by
    intro b e c hb hc
    obtain ⟨hresponse, hshows⟩ := hb.2.call hb.1 hc.1 hc.2
    exact ⟨hresponse, hb.1.call c hc.1, hshows⟩
  obtain ⟨hanswers, hrel⟩ := h.simulation (F := id) (G := id) hstep hstart
  rw [List.map_id, List.map_id] at hanswers
  rw [List.map_id] at hrel
  obtain ⟨hex, hshows⟩ : IndexExact (after cs) ∧ Shows (after cs) (Exchange.after cs) := hrel
  exact ⟨hanswers.symm, hshows, hshows.bestBid_iff hex.wf, hshows.bestAsk_iff hex.wf,
    hshows.totalOrderCount_eq hex⟩

/-- The sample book, a fill-or-kill order that takes the best ask and part of the next, and a
modification that sends a bid across: the live orders stand as they arrived. -/
def exchangeCalls : List (Call ℤ) :=
  sampleCalls ++ [.submitOrder ⟨6, .buy, 102, 8, 5, .fok⟩, .modifyOrder 6 4 102 1]

/-- One ask and one bid are left, in the queues as in the list of live orders. -/
theorem refines_exchange_sample :
    (Exchange.after exchangeCalls).live
        = [⟨3, .sell, 102, 3, 2, .limit⟩, ⟨5, .buy, 98, 6, 4, .limit⟩]
      ∧ (after exchangeCalls).queueAt .sell 102 = [⟨3, .sell, 102, 3, 2, .limit⟩]
      ∧ totalOrderCount (after exchangeCalls) = 2 := by
  have hlive : (Exchange.after exchangeCalls).live
      = [⟨3, .sell, 102, 3, 2, .limit⟩, ⟨5, .buy, 98, 6, 4, .limit⟩] := by
    decide
  have h := refines_exchange exchangeCalls (by decide)
  refine ⟨hlive, ?_, ?_⟩
  · rw [h.2.1, hlive]
    rfl
  · rw [h.2.2.2.2, hlive]
    rfl

end Leviathan
