import Leviathan.Book.Calls

/-!
Where prices come from.

No operation of the book makes up a price.  `PricesFrom b b'` says that every price at rest in
`b'` was at rest in `b` on the same side; the loop, a cancellation and a modification in place
have it.  With the price a call carries, `prices_call` says the same of every call and of its
trades: what holds of all prices of the calls holds of every resting order and every trade.
-/

namespace Leviathan

open Allotment

variable {P : Type*} [LinearOrder P]

/-- Every price of `b'` is a price of `b` on the same side. -/
def PricesFrom (b b' : OrderBook P) : Prop :=
  ∀ s, ∀ x ∈ b'.resting s, ∃ y ∈ b.resting s, y.price = x.price

omit [LinearOrder P] in
/-- A statement about both sides, from one side and the other. -/
lemma forall_side {Q : Side → Prop} (s : Side) (hs : Q s) (ho : Q s.opposite) : ∀ t, Q t := by
  intro t
  rcases s.eq_or_eq_opposite t with rfl | rfl
  · exact hs
  · exact ho

/-- What the loop leaves of the other side has its ids and prices. -/
lemma exists_of_mem_matched {b : OrderBook P} (h : BookWF b) {o x : Order P}
    (hx : x ∈ (matched b o).resting o.side.opposite) :
    ∃ y ∈ b.resting o.side.opposite, y.price = x.price ∧ y.id = x.id := by
  rw [resting_matched_opposite h o] at hx
  rcases List.mem_append.mp hx with hx | hx
  · rcases mem_keep _ _ hx with hx | ⟨y, hy, n, rfl⟩
    · exact ⟨x, List.mem_of_mem_filter hx, rfl, rfl⟩
    · exact ⟨y, List.mem_of_mem_filter hy, rfl, rfl⟩
  · exact ⟨x, List.mem_of_mem_filter hx, rfl, rfl⟩

lemma pricesFrom_matched {b : OrderBook P} (h : BookWF b) (o : Order P) :
    PricesFrom b (matched b o) := by
  refine forall_side o.side ?_ ?_
  · intro x hx
    rw [OrderBook.resting_congr (side_matched b o)] at hx
    exact ⟨x, hx, rfl⟩
  · intro x hx
    obtain ⟨y, hy, hyp, -⟩ := exists_of_mem_matched h hx
    exact ⟨y, hy, hyp⟩

lemma pricesFrom_removed {b b' : OrderBook P} {s : Side} {o : Order P} {bef aft : List (Order P)}
    (h : Removed b b' s o bef aft) : PricesFrom b b' := by
  refine forall_side s ?_ ?_
  · intro x hx
    rw [h.resting'] at hx
    refine ⟨x, ?_, rfl⟩
    rw [h.resting]
    rcases List.mem_append.mp hx with hx | hx <;> simp [hx]
  · intro x hx
    rw [OrderBook.resting_congr h.other] at hx
    exact ⟨x, hx, rfl⟩

lemma pricesFrom_rewritten {b b' : OrderBook P} {s : Side} {o : Order P} {q : UInt64}
    {bef aft : List (Order P)} (hb : b.resting s = bef ++ o :: aft)
    (h : Rewritten b b' s o q bef aft) : PricesFrom b b' := by
  refine forall_side s ?_ ?_
  · intro x hx
    rw [h.resting'] at hx
    rw [hb]
    rcases List.mem_append.mp hx with hx | hx
    · exact ⟨x, by simp [hx], rfl⟩
    · rcases List.mem_cons.mp hx with rfl | hx
      · exact ⟨o, by simp, rfl⟩
      · exact ⟨x, by simp [hx], rfl⟩
  · intro x hx
    rw [OrderBook.resting_congr h.other] at hx
    exact ⟨x, hx, rfl⟩

/-- The price a call carries. -/
def Call.price? : Call P → Option P
  | .addOrder o => some o.price
  | .submitOrder o => some o.price
  | .cancelOrder _ => none
  | .modifyOrder _ _ p _ => some p

section Property

variable {G : P → Prop}

omit [LinearOrder P] in
lemma PricesFrom.all {b b' : OrderBook P} (h : PricesFrom b b')
    (hb : ∀ s, ∀ o ∈ b.resting s, G o.price) : ∀ s, ∀ o ∈ b'.resting s, G o.price := by
  intro s x hx
  obtain ⟨y, hy, hyx⟩ := h s x hx
  rw [← hyx]
  exact hb s y hy

lemma prices_addOrder {b : OrderBook P} (hwf : BookWF b)
    (hb : ∀ s, ∀ o ∈ b.resting s, G o.price) {o : Order P} (ho : G o.price) :
    ∀ s, ∀ x ∈ (addOrder b o).resting s, G x.price := by
  refine forall_side o.side ?_ ?_
  · intro x hx
    rw [resting_addOrder_self hwf] at hx
    rcases (List.mem_orderedInsert _).mp hx with rfl | hx
    · exact ho
    · exact hb _ x hx
  · intro x hx
    rw [OrderBook.resting_congr (side_addOrder_of_ne b o.side.opposite_ne)] at hx
    exact hb _ x hx

/-- A submitted order trades at resting prices, and brings its own. -/
lemma prices_submitOrder {b : OrderBook P} (hwf : BookWF b)
    (hb : ∀ s, ∀ o ∈ b.resting s, G o.price) {o : Order P} (ho : G o.price) :
    (∀ s, ∀ x ∈ (submitOrder b o).2.resting s, G x.price)
      ∧ ∀ t ∈ (submitOrder b o).1, G t.price := by
  have hm := (pricesFrom_matched hwf o).all hb
  have hfills : ∀ t ∈ fills b o, G t.price := by
    intro t ht
    obtain ⟨f, hf, rfl⟩ := List.mem_map.mp ht
    rw [Order.tradeWith_price]
    exact hb _ f.1 (List.mem_of_mem_filter (mem_of_mem_allot _ hf))
  rw [submitOrder_eq hwf]
  split_ifs
  · exact ⟨hb, by simp⟩
  · exact ⟨prices_addOrder (wf_matched hwf o) hm ho, hfills⟩
  · exact ⟨hm, hfills⟩

/-- **Every price** at rest or in a trade after a call was at rest before or came with it. -/
lemma prices_call {b : OrderBook P} (hwf : BookWF b)
    (hb : ∀ s, ∀ o ∈ b.resting s, G o.price) (c : Call P) (hc : ∀ p ∈ c.price?, G p) :
    (∀ s, ∀ o ∈ (call b c).2.resting s, G o.price)
      ∧ ∀ t ∈ (call b c).1.tradeList, G t.price := by
  cases c with
  | addOrder o =>
      exact ⟨prices_addOrder hwf hb (hc _ rfl), by simp [call, Response.tradeList]⟩
  | submitOrder o => exact prices_submitOrder hwf hb (hc _ rfl)
  | cancelOrder id =>
      refine ⟨?_, by simp [call, Response.tradeList]⟩
      rcases cancelOrder_cases hwf id with ⟨heq, -⟩ | ⟨s, o, bef, aft, -, -, hr⟩
      · simp only [call, heq]
        exact hb
      · exact (pricesFrom_removed hr).all hb
  | modifyOrder counter id p q =>
      rcases modifyOrder_cases hwf counter id p q with
        ⟨heq, -⟩ | ⟨s, o, bef, aft, -, -, hr, hcase⟩
      · simp only [call, heq]
        exact ⟨hb, by simp [Response.tradeList]⟩
      · have hrem := (pricesFrom_removed hr).all hb
        rcases hcase with ⟨-, heq⟩ | ⟨-, -, -, b', heq, hw⟩ | ⟨-, -, heq⟩
        · simp only [call, heq]
          exact ⟨hrem, by simp [Response.tradeList]⟩
        · simp only [call, heq]
          exact ⟨(pricesFrom_rewritten hr.resting hw).all hb, by simp [Response.tradeList]⟩
        · simp only [call, heq]
          exact prices_submitOrder hr.wf hrem (hc p rfl)

/-- Every price at rest after a run was at rest before or came with a call. -/
lemma prices_run {b : OrderBook P} (hwf : BookWF b) (hb : ∀ s, ∀ o ∈ b.resting s, G o.price)
    {cs : List (Call P)} (hcs : ∀ c ∈ cs, ∀ p ∈ c.price?, G p) :
    ∀ s, ∀ o ∈ (Machine.final call b cs).resting s, G o.price := by
  induction cs generalizing b with
  | nil => exact hb
  | cons c cs ih =>
      have hcall := (prices_call hwf hb c (hcs c List.mem_cons_self)).1
      exact ih (wf_call hwf c) hcall fun c' hc' => hcs c' (List.mem_cons_of_mem c hc')

end Property

end Leviathan
