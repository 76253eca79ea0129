import Leviathan.Book.Index

/-!
How orders get their places.

Whatever a call does, an order changes its place in a queue in one way only: `push_back`.

* `Thins b b'`: each side of `b'` is the side of `b` with some orders gone and some quantities
  changed.  The matching loop, a cancellation and a modification in place do this and no more.
* `call_placement`: **every call** thins the book and then puts at most one order at the back of
  its level, an order that `Call.Places` traces to what the call was given.
* `call_trades`: the trades of a call are made by that order with orders that rested before.
-/

namespace Leviathan

open Allotment

variable {P : Type*}

/-- The order without its quantity. -/
def Order.unsized (o : Order P) : Order P := o.setQuantity 0

/-- Orders may be gone and quantities changed, and nothing else. -/
def Thins (b b' : OrderBook P) : Prop :=
  ∀ s, ((b'.resting s).map Order.unsized).Sublist ((b.resting s).map Order.unsized)

/-- The call puts the order at the back of a level, up to its quantity. -/
def Call.Places : Call P → Order P → Prop
  | .addOrder x, o => o.unsized = x.unsized
  | .submitOrder x, o => o.unsized = x.unsized
  | .cancelOrder _, _ => False
  | .modifyOrder counter id p _, o => o.id = id ∧ o.price = p ∧ o.timestamp = counter

section Unsized

variable {o x : Order P}

lemma id_of_unsized (h : o.unsized = x.unsized) : o.id = x.id := (congrArg Order.id h :)

lemma price_of_unsized (h : o.unsized = x.unsized) : o.price = x.price := (congrArg Order.price h :)

lemma timestamp_of_unsized (h : o.unsized = x.unsized) : o.timestamp = x.timestamp :=
  (congrArg Order.timestamp h :)

end Unsized

namespace Thins

variable {b b' : OrderBook P}

lemma refl (b : OrderBook P) : Thins b b := fun _ => List.Sublist.refl _

/-- What holds of every two orders in queue order, and sees no quantity, is kept. -/
lemma pairwise (h : Thins b b') {R : Order P → Order P → Prop} {s : Side}
    (hR : ∀ x y, R x y ↔ R x.unsized y.unsized) (hb : (b.resting s).Pairwise R) :
    (b'.resting s).Pairwise R := by
  have hkeys : ((b.resting s).map Order.unsized).Pairwise R :=
    List.pairwise_map.mpr (hb.imp fun hxy => (hR _ _).mp hxy)
  exact (List.pairwise_map.mp (hkeys.sublist (h s))).imp fun hxy => (hR _ _).mpr hxy

/-- A list of what the orders carry besides their quantities only loses entries. -/
lemma map_restingAll (h : Thins b b') {β : Type*} {f : Order P → β}
    (hf : ∀ x, f x = f x.unsized) : (b'.restingAll.map f).Sublist (b.restingAll.map f) := by
  have hkeys : ∀ l : List (Order P), l.map f = (l.map Order.unsized).map f := fun l => by
    rw [List.map_map]
    exact List.map_congr_left fun x _ => hf x
  have hall : (b'.restingAll.map Order.unsized).Sublist (b.restingAll.map Order.unsized) := by
    rw [OrderBook.restingAll, OrderBook.restingAll, List.map_append, List.map_append]
    exact (h .buy).append (h .sell)
  rw [hkeys, hkeys b.restingAll]
  exact hall.map f

end Thins

variable [LinearOrder P]

omit [LinearOrder P] in
/-- The two sides one by one. -/
lemma Thins.of_sides {b b' : OrderBook P} (s : Side)
    (hs : ((b'.resting s).map Order.unsized).Sublist ((b.resting s).map Order.unsized))
    (ho : ((b'.resting s.opposite).map Order.unsized).Sublist
      ((b.resting s.opposite).map Order.unsized)) : Thins b b' := by
  intro t
  rcases s.eq_or_eq_opposite t with rfl | rfl
  · exact hs
  · exact ho

lemma thins_matched {b : OrderBook P} (h : BookWF b) (o : Order P) : Thins b (matched b o) := by
  refine Thins.of_sides o.side ?_ ?_
  · rw [OrderBook.resting_congr (side_matched b o)]
  · rw [resting_matched_opposite h, eligible_append_ineligible h o, List.map_append,
      List.map_append, map_keep Order.qty Order.cutTo Order.unsized fun _ _ => rfl]
    exact ((List.drop_sublist _ _).map _).append_right _

lemma thins_removed {b b' : OrderBook P} {s : Side} {o : Order P} {bef aft : List (Order P)}
    (h : Removed b b' s o bef aft) : Thins b b' := by
  refine Thins.of_sides s ?_ ?_
  · rw [h.resting', h.resting]
    exact ((List.sublist_cons_self _ _).append_left _).map _
  · rw [OrderBook.resting_congr h.other]

lemma thins_rewritten {b b' : OrderBook P} {s : Side} {o : Order P} {q : UInt64}
    {bef aft : List (Order P)} (hb : b.resting s = bef ++ o :: aft)
    (h : Rewritten b b' s o q bef aft) : Thins b b' := by
  refine Thins.of_sides s ?_ ?_
  · rw [h.resting', hb, List.map_append, List.map_append, List.map_cons, List.map_cons]
    exact List.Sublist.refl _
  · rw [OrderBook.resting_congr h.other]

/-- The book `b'` comes from `b` by thinning it and then putting at most one order, one that the
call `c` places, at the back of its level. -/
def Placement (c : Call P) (b b' : OrderBook P) : Prop :=
  ∃ b₁, BookWF b₁ ∧ Thins b b₁ ∧ (b' = b₁ ∨ ∃ o, c.Places o ∧ b' = addOrder b₁ o)

lemma placement_submitOrder {b b' : OrderBook P} (h : BookWF b') (ht : Thins b b') {c : Call P}
    {o : Order P} (hc : ∀ x : Order P, x.unsized = o.unsized → c.Places x)
    (hthin : Thins b (matched b' o)) : Placement c b (submitOrder b' o).2 := by
  rw [submitOrder_eq h]
  split_ifs
  · exact ⟨b', h, ht, Or.inl rfl⟩
  · exact ⟨matched b' o, wf_matched h o, hthin, Or.inr ⟨remainder b' o, hc _ rfl, rfl⟩⟩
  · exact ⟨matched b' o, wf_matched h o, hthin, Or.inl rfl⟩

omit [LinearOrder P] in
lemma Thins.trans {b b' b'' : OrderBook P} (h : Thins b b') (h' : Thins b' b'') : Thins b b'' :=
  fun s => (h' s).trans (h s)

/-- **Every call** thins the book and places at most one order. -/
lemma call_placement {b : OrderBook P} (h : BookWF b) (c : Call P) :
    Placement c b (call b c).2 := by
  cases c with
  | addOrder o => exact ⟨b, h, Thins.refl b, Or.inr ⟨o, rfl, rfl⟩⟩
  | submitOrder o =>
      exact placement_submitOrder h (Thins.refl b) (fun _ hx => hx) (thins_matched h o)
  | cancelOrder id =>
      refine ⟨_, wf_cancelOrder h id, ?_, Or.inl rfl⟩
      rcases cancelOrder_cases h id with ⟨heq, -⟩ | ⟨s, o, bef, aft, -, -, hr⟩
      · rw [heq]
        exact Thins.refl b
      · exact thins_removed hr
  | modifyOrder counter id p q =>
      rcases modifyOrder_cases h counter id p q with
        ⟨heq, -⟩ | ⟨s, o, bef, aft, -, -, hr, hcase⟩
      · simp only [call, heq]
        exact ⟨b, h, Thins.refl b, Or.inl rfl⟩
      · have hthin := thins_removed hr
        rcases hcase with ⟨-, heq⟩ | ⟨-, -, -, b', heq, hw⟩ | ⟨-, -, heq⟩
        · simp only [call, heq]
          exact ⟨_, hr.wf, hthin, Or.inl rfl⟩
        · simp only [call, heq]
          exact ⟨b', hw.wf, thins_rewritten hr.resting hw, Or.inl rfl⟩
        · simp only [call, heq]
          refine placement_submitOrder hr.wf hthin (fun x hx => ?_)
            (hthin.trans (thins_matched hr.wf _))
          exact ⟨id_of_unsized hx, price_of_unsized hx, timestamp_of_unsized hx⟩

/-- The trades of a submitted order are with resting orders. -/
lemma mem_submitOrder_trades {b : OrderBook P} (h : BookWF b) {o : Order P} {t : Trade P}
    (ht : t ∈ (submitOrder b o).1) : ∃ maker ∈ eligible b o, ∃ n, t = o.tradeWith maker n := by
  have hfills : t ∈ fills b o := by
    rw [submitOrder_eq h] at ht
    by_cases hr : Refused b o
    · simp [hr] at ht
    · rwa [if_neg hr] at ht
  obtain ⟨f, hf, rfl⟩ := List.mem_map.mp hfills
  exact ⟨f.1, mem_of_mem_allot _ hf, f.2, rfl⟩

/-- **The trades of a call** are made by the order it places, or would place, with orders that
rested before. -/
lemma call_trades {b : OrderBook P} (h : BookWF b) (c : Call P) {t : Trade P}
    (ht : t ∈ (call b c).1.tradeList) :
    ∃ taker maker n, c.Places taker ∧ maker ∈ b.resting taker.side.opposite
      ∧ t = taker.tradeWith maker n := by
  cases c with
  | addOrder o => simp [call, Response.tradeList] at ht
  | submitOrder o =>
      obtain ⟨maker, hm, n, rfl⟩ := mem_submitOrder_trades h ht
      exact ⟨o, maker, n, rfl, List.mem_of_mem_filter hm, rfl⟩
  | cancelOrder id => simp [call, Response.tradeList] at ht
  | modifyOrder counter id p q =>
      rcases modifyOrder_cases h counter id p q with
        ⟨heq, -⟩ | ⟨s, o, bef, aft, -, -, hr, hcase⟩
      · simp [call, heq, Response.tradeList] at ht
      · rcases hcase with ⟨-, heq⟩ | ⟨-, -, -, b', heq, -⟩ | ⟨-, -, heq⟩
        · simp [call, heq, Response.tradeList] at ht
        · simp [call, heq, Response.tradeList] at ht
        · simp only [call, heq, Response.tradeList] at ht
          obtain ⟨maker, hm, n, rfl⟩ := mem_submitOrder_trades hr.wf ht
          refine ⟨⟨id, s, p, q, counter, .limit⟩, maker, n, ⟨rfl, rfl, rfl⟩, ?_, rfl⟩
          have hside := OrderBook.resting_congr hr.other
          exact hside ▸ List.mem_of_mem_filter hm

/-! ### The back of a level -/

/-- **An ordered insertion into a side in priority order** goes between the orders it does not
precede and those it does. -/
lemma orderedInsert_eq_filter {s : Side} {o : Order P} {l : List (Order P)}
    (h : l.Pairwise fun a b => ¬ OrderBefore s b a) :
    l.orderedInsert (OrderBefore s) o
        = l.filter (fun a => ¬ OrderBefore s o a) ++ o :: l.filter fun a => OrderBefore s o a := by
  have hmono : l.Pairwise fun a b =>
      decide (¬ OrderBefore s o b) = true → decide (¬ OrderBefore s o a) = true := by
    refine h.imp fun {a b} hba hob => ?_
    simp only [decide_eq_true_eq] at hob ⊢
    intro hoa
    rcases trichotomous_of s.before a.price b.price with hab | hab | hab
    · exact hob (trans_of s.before hoa hab)
    · exact hob (by rwa [OrderBefore, ← hab])
    · exact hba hab
  obtain ⟨htake, hdrop⟩ := OrderedMap.takeWhile_eq_filter hmono
  rw [List.orderedInsert_eq_take_drop]
  rw [htake, hdrop]
  simp

/-- An item put behind everything of its price, with `R` from all that rests to it, keeps `R` from
front to back among the items of one price. -/
lemma pairwise_insert {α : Type*} {price : α → P} {R : α → α → Prop} {s : Side} {a : α}
    {l : List α} (hl : l.Pairwise fun x y => price x = price y → R x y) (ha : ∀ x ∈ l, R x a) :
    (l.filter (fun x => ¬ s.before (price a) (price x))
        ++ a :: l.filter fun x => s.before (price a) (price x)).Pairwise
      fun x y => price x = price y → R x y := by
  refine List.pairwise_append.mpr ⟨hl.filter _, List.pairwise_cons.mpr ⟨?_, hl.filter _⟩, ?_⟩
  · intro y hy hp
    have hlt : s.before (price a) (price y) := by simpa using (List.mem_filter.mp hy).2
    rw [hp] at hlt
    exact absurd hlt (irrefl_of s.before _)
  · intro x hx y hy hp
    have hax : ¬ s.before (price a) (price x) := by simpa using (List.mem_filter.mp hx).2
    rcases List.mem_cons.mp hy with rfl | hy
    · exact ha x (List.mem_of_mem_filter hx)
    · have hlt : s.before (price a) (price y) := by simpa using (List.mem_filter.mp hy).2
      rw [← hp] at hlt
      exact absurd hlt hax

/-- An added order stands between the orders of its side that it does not precede and those it
does. -/
lemma resting_addOrder_eq_filter {b : OrderBook P} (h : BookWF b) (o : Order P) :
    (addOrder b o).resting o.side
      = (b.resting o.side).filter (fun a => ¬ OrderBefore o.side o a)
          ++ o :: (b.resting o.side).filter fun a => OrderBefore o.side o a := by
  rw [resting_addOrder_self h]
  exact orderedInsert_eq_filter (h o.side).orders_sorted

end Leviathan
