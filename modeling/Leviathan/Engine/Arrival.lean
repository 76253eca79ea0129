import Leviathan.Book.Placement
import Leviathan.Book.Priority
import Leviathan.Engine.Linearizable

/-!
Time priority in the engine is arrival order.

A producer draws the timestamp of an order when it constructs it, and its place in the book is
settled later, when its request takes the lock of the queue.  `late_push_in_front` is a run in
which the two orders differ, which the source calls expected and correct.  What the engine keeps
is the order of arrival:

* `Arrived`: the `k`-th request pushed put the order at the back of its level.
* `Births` assigns to the orders of a side the requests they arrived with, increasing along every
  queue; `Born` says that both sides have them, and `exists_births` carries it along a run, by
  induction on its events from the end.
* `arrival_order` reads it off for the levels of every reachable book, and says what it means for
  the fills.
-/

namespace Leviathan

variable {P : Type*} [LinearOrder P]

/-- The request as a call of the book. -/
def Request.call? (counter : UInt64) : Request P → Option (Call P)
  | .add order => some (.addOrder order)
  | .cancel orderId => some (.cancelOrder orderId)
  | .submit order => some (.submitOrder order)
  | .modify orderId newPrice newQuantity =>
      some (.modifyOrder counter orderId newPrice newQuantity)
  | _ => none

lemma processRequest_book (b : OrderBook P) (counter : UInt64) (r : Request P) :
    (processRequest b counter r).2.1 = (r.call? counter).elim b fun c => (call b c).2 := by
  cases r <;> rfl

/-- In the run `evs` the request number `k` was processed and put the order, up to what has been
filled of it or taken off it since, at the back of its level. -/
def Arrived (counter : UInt64) (evs : List (Event P)) (k : ℕ) (o : Order P) : Prop :=
  ∃ evs₁ ev evs₂ e₁ e₂ x c b₁ y, evs = evs₁ ++ ev :: evs₂
    ∧ Transitions.run Execution.step (Execution.init counter) evs₁ = some e₁
    ∧ e₁.step ev = some e₂ ∧ e₁.processed.length = k ∧ e₂.processed = e₁.processed ++ [x]
    ∧ x.promise = k ∧ x.request.call? e₁.counter = some c ∧ c.Places y ∧ y.unsized = o.unsized
    ∧ Thins e₁.engine.book b₁ ∧ e₂.engine.book = addOrder b₁ y

omit [LinearOrder P] in
lemma Order.unsized_unsized (o : Order P) : o.unsized.unsized = o.unsized := rfl

lemma Arrived.congr {counter : UInt64} {evs : List (Event P)} {k : ℕ} {o o' : Order P}
    (h : Arrived counter evs k o) (ho : o.unsized = o'.unsized) : Arrived counter evs k o' := by
  obtain ⟨evs₁, ev, evs₂, e₁, e₂, x, c, b₁, y, hevs, hrun, hs, hk, hx, hp, hc, hy, hyo, ht, hb⟩ := h
  exact ⟨evs₁, ev, evs₂, e₁, e₂, x, c, b₁, y, hevs, hrun, hs, hk, hx, hp, hc, hy, hyo.trans ho, ht,
    hb⟩

lemma Arrived.append {counter : UInt64} {evs : List (Event P)} {k : ℕ} {o : Order P}
    (h : Arrived counter evs k o) (evs' : List (Event P)) :
    Arrived counter (evs ++ evs') k o := by
  obtain ⟨evs₁, ev, evs₂, e₁, e₂, x, c, b₁, y, rfl, hrest⟩ := h
  exact ⟨evs₁, ev, evs₂ ++ evs', e₁, e₂, x, c, b₁, y, by simp, hrest⟩

/-! ### The births of the orders of a side -/

/-- The orders of a side, each with the number of the request it arrived with: of two orders of
one price the one in front arrived first. -/
structure Births (counter : UInt64) (evs : List (Event P)) (bound : ℕ) (l : List (Order P))
    (L : List (Order P × ℕ)) : Prop where
  orders : L.map Prod.fst = l.map Order.unsized
  arrived : ∀ a ∈ L, Arrived counter evs a.2 a.1 ∧ a.2 < bound
  increasing : L.Pairwise fun a b => a.1.price = b.1.price → a.2 < b.2

namespace Births

variable {counter : UInt64} {evs : List (Event P)} {n : ℕ} {l l' : List (Order P)}
  {L : List (Order P × ℕ)}

lemma mono (h : Births counter evs n l L) (evs' : List (Event P)) {m : ℕ} (hm : n ≤ m) :
    Births counter (evs ++ evs') m l L :=
  ⟨h.orders, fun a ha => ⟨(h.arrived a ha).1.append evs', (h.arrived a ha).2.trans_le hm⟩,
    h.increasing⟩

/-- Orders that leave take their births with them. -/
lemma thin (h : Births counter evs n l L)
    (hl : (l'.map Order.unsized).Sublist (l.map Order.unsized)) :
    ∃ L', Births counter evs n l' L' := by
  rw [← h.orders] at hl
  obtain ⟨L', hsub, heq⟩ := List.sublist_map_iff.mp hl
  exact ⟨L', heq.symm, fun a ha => h.arrived a (hsub.subset ha), h.increasing.sublist hsub⟩

/-- An order that arrives now is born last. -/
lemma place (h : Births counter evs n l L) {s : Side} {o : Order P}
    (ho : Arrived counter evs n o) :
    ∃ L', Births counter evs (n + 1)
      (l.filter (fun a => ¬ OrderBefore s o a) ++ o :: l.filter fun a => OrderBefore s o a) L' := by
  have hfilter : ∀ c : P → Bool,
      (L.filter fun a => c a.1.price).map Prod.fst
        = (l.filter fun a => c a.price).map Order.unsized := by
    intro c
    have h1 := congrArg (List.filter fun o : Order P => c o.price) h.orders
    rw [List.filter_map, List.filter_map] at h1
    exact h1
  refine ⟨L.filter (fun a => ¬ s.before o.price a.1.price)
    ++ (o.unsized, n) :: L.filter fun a => s.before o.price a.1.price, ?_, ?_, ?_⟩
  · have hfront := hfilter fun p => decide (¬ s.before o.price p)
    have hback := hfilter fun p => decide (s.before o.price p)
    rw [List.map_append, List.map_cons, List.map_append, List.map_cons]
    exact congrArg₂ (· ++ ·) hfront (congrArg (List.cons _) hback)
  · intro a ha
    have hmem : a = (o.unsized, n) ∨ a ∈ L := by
      rcases List.mem_append.mp ha with ha | ha
      · exact Or.inr (List.mem_of_mem_filter ha)
      · rcases List.mem_cons.mp ha with ha | ha
        · exact Or.inl ha
        · exact Or.inr (List.mem_of_mem_filter ha)
    rcases hmem with rfl | hmem
    · exact ⟨ho.congr o.unsized_unsized.symm, Nat.lt_succ_self n⟩
    · exact ⟨(h.arrived a hmem).1, (h.arrived a hmem).2.trans (Nat.lt_succ_self n)⟩
  · exact @pairwise_insert P _ _ (fun a : Order P × ℕ => a.1.price) (fun a b => a.2 < b.2) s
      (o.unsized, n) L h.increasing fun a ha => (h.arrived a ha).2

end Births

/-- The orders of both sides have births among the requests processed. -/
structure Born (counter : UInt64) (evs : List (Event P)) (e : Execution P) : Prop where
  wf : BookWF e.engine.book
  births : ∀ s, ∃ L, Births counter evs e.processed.length (e.engine.book.resting s) L

namespace Born

variable {counter : UInt64} {evs : List (Event P)} {e e' : Execution P}

lemma init : Born counter [] (Execution.init counter : Execution P) := by
  refine ⟨BookWF.empty, fun s => ⟨[], ?_, by simp, List.Pairwise.nil⟩⟩
  cases s <;> rfl

/-- Orders leave, or nothing happens to the book. -/
lemma thin (h : Born counter evs e) (ev : Event P) (hwf : BookWF e'.engine.book)
    (ht : Thins e.engine.book e'.engine.book) (hle : e.processed.length ≤ e'.processed.length) :
    Born counter (evs ++ [ev]) e' := by
  refine ⟨hwf, fun s => ?_⟩
  obtain ⟨L, hL⟩ := h.births s
  exact (hL.mono [ev] hle).thin (ht s)

lemma of_book (h : Born counter evs e) (ev : Event P) (hbook : e'.engine.book = e.engine.book)
    (hle : e.processed.length ≤ e'.processed.length) : Born counter (evs ++ [ev]) e' := by
  refine h.thin ev (hbook ▸ h.wf) ?_ hle
  rw [hbook]
  exact Thins.refl _

/-- After orders have left, one arrives. -/
lemma place (h : Born counter evs e) (ev : Event P) {b₁ : OrderBook P} {o : Order P}
    (hwf : BookWF b₁) (ht : Thins e.engine.book b₁) (hbook : e'.engine.book = addOrder b₁ o)
    (hlen : e'.processed.length = e.processed.length + 1)
    (harr : Arrived counter (evs ++ [ev]) e.processed.length o) :
    Born counter (evs ++ [ev]) e' := by
  refine ⟨hbook ▸ wf_addOrder hwf o, fun s => ?_⟩
  obtain ⟨L, hL⟩ := h.births s
  obtain ⟨L₁, hL₁⟩ := (hL.mono [ev] (Nat.le_refl _)).thin (ht s)
  rw [hbook, hlen]
  by_cases hside : s = o.side
  · subst hside
    rw [resting_addOrder_eq_filter hwf]
    exact hL₁.place harr
  · rw [OrderBook.resting_congr (side_addOrder_of_ne b₁ hside)]
    have hlt : ∀ a ∈ L₁, a.2 < e.processed.length + 1 := fun a ha =>
      (hL₁.arrived a ha).2.trans (Nat.lt_succ_self _)
    exact ⟨L₁, hL₁.orders, fun a ha => ⟨(hL₁.arrived a ha).1, hlt a ha⟩, hL₁.increasing⟩

/-- The matching thread processes the request at the front of the queue. -/
lemma process (h : Born counter evs e) (hord : Ordered e)
    (hrun : Transitions.run Execution.step (Execution.init counter) evs = some e) {ev : Event P}
    {x : Posted P} {queue : ThreadSafeQueue (Posted P)}
    (hq : e.engine.queue.queue = x :: queue.queue) (hs : e.step ev = some (e.process x queue)) :
    Born counter (evs ++ [ev]) (e.process x queue) := by
  have hbook : (e.process x queue).engine.book
      = (x.request.call? e.counter).elim e.engine.book fun c => (call e.engine.book c).2 :=
    processRequest_book _ _ _
  have hproc : (e.process x queue).processed = e.processed ++ [x] := rfl
  have hlen : (e.process x queue).processed.length = e.processed.length + 1 := by
    rw [hproc, List.length_append]
    rfl
  have hle : e.processed.length ≤ (e.process x queue).processed.length := by omega
  have hpromise : x.promise = e.processed.length := by
    refine hord.promise _ x ?_
    rw [hord.pushed, hq]
    simp
  cases hc : x.request.call? e.counter with
  | none =>
      rw [hc] at hbook
      exact h.of_book ev hbook hle
  | some c =>
      rw [hc] at hbook
      obtain ⟨b₁, hwf₁, ht, heq | ⟨o, hpl, heq⟩⟩ := call_placement h.wf c
      · have hb : (e.process x queue).engine.book = b₁ := hbook.trans heq
        exact h.thin ev (hb ▸ hwf₁) (hb ▸ ht) hle
      · have hb : (e.process x queue).engine.book = addOrder b₁ o := hbook.trans heq
        exact h.place ev hwf₁ ht hb hlen
          ⟨evs, ev, [], e, e.process x queue, x, c, b₁, o, rfl, hrun, hs, rfl, hproc, hpromise, hc,
            hpl, rfl, ht, hb⟩

end Born

/-- **Along every run** the orders of both sides have births. -/
lemma exists_births (counter : UInt64) (evs : List (Event P)) (e : Execution P)
    (h : Transitions.run Execution.step (Execution.init counter) evs = some e) :
    Born counter evs e := by
  induction evs using List.reverseRecOn generalizing e with
  | nil =>
      obtain rfl := Option.some.inj h
      exact Born.init
  | append_singleton evs ev ih =>
      obtain ⟨e₁, hrun, hs⟩ := Transitions.run_concat.mp h
      have hborn := ih e₁ hrun
      rcases Execution.step_cases hs with ⟨-, rfl⟩ | ⟨producer, r, -, -, rfl⟩ | ⟨-, rfl⟩
        | ⟨-, rfl⟩ | ⟨-, -, -, -, rfl⟩ | ⟨-, -, x, queue, hq, -, rfl⟩
      · exact hborn.of_book ev rfl le_rfl
      · exact hborn.of_book ev rfl le_rfl
      · refine hborn.of_book ev ?_ le_rfl
        simp only [MatchingEngine.start]
        split_ifs <;> rfl
      · refine hborn.of_book ev ?_ le_rfl
        simp only [Execution.stop, MatchingEngine.stop, ThreadSafeQueue.signalShutdown]
        split_ifs <;> rfl
      · exact hborn.of_book ev rfl le_rfl
      · have hord : Ordered e₁ :=
          Transitions.run_invariant Ordered (fun _ _ _ hi hs => hi.step hs) hrun (.init counter)
        exact hborn.process hord hrun hq hs

/-- The births along one level. -/
lemma Births.level {counter : UInt64} {evs : List (Event P)} {n : ℕ} {b : OrderBook P} {s : Side}
    {L : List (Order P × ℕ)} (h : Births counter evs n (b.resting s) L) (hwf : BookWF b)
    {l : P × List (Order P)} (hl : l ∈ b.side s) :
    ∃ births : List ℕ, births.Pairwise (· < ·)
      ∧ List.Forall₂ (fun o k => Arrived counter evs k o) l.2 births := by
  have hsub : l.2.Sublist (b.resting s) :=
    List.sublist_flatten_of_mem (List.mem_map_of_mem (f := Prod.snd) hl)
  have hkeys := hsub.map Order.unsized
  rw [← h.orders] at hkeys
  obtain ⟨L', hL', heq⟩ := List.sublist_map_iff.mp hkeys
  have hprice : ∀ a ∈ L', a.1.price = l.1 := by
    intro a ha
    have hmem : a.1 ∈ l.2.map Order.unsized := heq ▸ List.mem_map_of_mem ha
    obtain ⟨o, ho, hoa⟩ := List.mem_map.mp hmem
    rw [← hoa]
    exact ((hwf s).home l hl o ho).2
  refine ⟨L'.map Prod.snd, List.pairwise_map.mpr ?_, ?_⟩
  · refine (h.increasing.sublist hL').imp_of_mem fun {a b} ha hb hab => hab ?_
    rw [hprice a ha, hprice b hb]
  · have hkey : List.Forall₂ (· = ·) (L'.map Prod.fst) (l.2.map Order.unsized) := by
      rw [heq]
      exact List.forall₂_refl _
    have hpairs : List.Forall₂ (fun (a : Order P × ℕ) (o : Order P) => a.1 = o.unsized) L' l.2 :=
      List.forall₂_map_right_iff.mp (List.forall₂_map_left_iff.mp hkey)
    have hall : ∀ a ∈ L', Arrived counter evs a.2 a.1 := fun a ha => (h.arrived a (hL'.subset ha)).1
    refine List.forall₂_map_right_iff.mpr (List.Forall₂.flip ?_)
    refine ((List.forall₂_and_left _ _).mpr ⟨hall, hpairs⟩).imp fun a o hao => ?_
    exact hao.1.congr (by rw [hao.2, Order.unsized_unsized])

/-! ### What is filled first -/

/-- The fills go along the orders in reach: where the `j`-th trades, every one in front of it has
given all it had. -/
lemma fills_in_front {b : OrderBook P} {o : Order P} {i j : ℕ} (hij : i < j) {t : Trade P}
    (ht : (fills b o)[j]? = some t) :
    ∃ m, (eligible b o)[i]? = some m ∧ (fills b o)[i]? = some (o.tradeWith m m.qty) := by
  have hlen : i < (eligible b o).length := by
    rw [fills_getElem?] at ht
    obtain ⟨m, hm, -⟩ := Option.bind_eq_some_iff.mp ht
    have hj := (List.getElem?_eq_some_iff.mp hm).1
    omega
  have hsum : prefixSum (eligible b o) j < o.qty := by
    rw [fills_getElem?] at ht
    obtain ⟨m, -, hm⟩ := Option.bind_eq_some_iff.mp ht
    by_contra hno
    rw [if_neg hno] at hm
    cases hm
  have hm : (eligible b o)[i]? = some (eligible b o)[i] := List.getElem?_eq_getElem hlen
  -- what stands in front of the `j`-th order includes the `i`-th
  have hle : prefixSum (eligible b o) i + (eligible b o)[i].qty ≤ prefixSum (eligible b o) j := by
    have htake : ((eligible b o).take j).take (i + 1) = (eligible b o).take (i + 1) := by
      rw [List.take_take, min_eq_left hij]
    calc prefixSum (eligible b o) i + (eligible b o)[i].qty
        = Allotment.total Order.qty ((eligible b o).take (i + 1)) := by
          rw [List.take_succ_eq_append_getElem hlen, Allotment.total_append]
          simp [prefixSum]
      _ ≤ prefixSum (eligible b o) j := by
          rw [← htake]
          exact Allotment.total_take_le _ _ _
  refine ⟨_, hm, ?_⟩
  rw [fills_getElem?, hm, Option.bind_some, if_pos (by omega), Nat.min_eq_left (by omega)]

/-- **Arrival order.**  In every reachable state of the engine the orders of each level stand in
the order in which the requests that put them there were pushed, and an incoming order trades with
one of them only after those in front of it have given all they had. -/
theorem arrival_order (counter : UInt64) (evs : List (Event P)) (e : Execution P)
    (h : Transitions.run Execution.step (Execution.init counter) evs = some e) :
    (∀ s, ∀ l ∈ e.engine.book.side s, ∃ births : List ℕ, births.Pairwise (· < ·)
        ∧ List.Forall₂ (fun o k => Arrived counter evs k o) l.2 births)
      ∧ ∀ (o : Order P) (i j : ℕ) (t : Trade P), i < j →
        (submitOrder e.engine.book o).1[j]? = some t →
        ∃ m, (eligible e.engine.book o)[i]? = some m
          ∧ (submitOrder e.engine.book o).1[i]? = some (o.tradeWith m m.qty) := by
  obtain ⟨hwf, hbirths⟩ := exists_births counter evs e h
  refine ⟨fun s l hl => ?_, fun o i j t hij ht => ?_⟩
  · obtain ⟨L, hL⟩ := hbirths s
    exact hL.level hwf hl
  · by_cases hr : Refused e.engine.book o
    · rw [submitOrder_eq hwf, if_pos hr] at ht
      simp at ht
    · have htrades : (submitOrder e.engine.book o).1 = fills e.engine.book o := by
        rw [submitOrder_eq hwf, if_neg hr]
      rw [htrades] at ht ⊢
      exact fills_in_front hij ht

/-- Producer 0 constructs the first bid and producer 1 the second, and producer 1 is the first to
push; a sell is queued behind them. -/
def racingEvents : List (Event ℤ) :=
  [.construct, .construct, .construct, .push 1 (.add ⟨2, .buy, 100, 5, 1, .limit⟩),
   .push 0 (.add ⟨1, .buy, 100, 5, 0, .limit⟩), .push 0 (.submit ⟨3, .sell, 100, 5, 2, .ioc⟩),
   .start, .turn, .turn]

/-- The bids of the race stand in the order of their pushes. -/
theorem arrival_order_sample :
    ∃ e, Transitions.run Execution.step (Execution.init 0) racingEvents = some e
      ∧ ∀ s, ∀ l ∈ e.engine.book.side s, ∃ births : List ℕ, births.Pairwise (· < ·)
        ∧ List.Forall₂ (fun o k => Arrived 0 racingEvents k o) l.2 births := by
  have hrun : (Transitions.run Execution.step (Execution.init 0) racingEvents).isSome := by decide
  obtain ⟨e, he⟩ := Option.isSome_iff_exists.mp hrun
  exact ⟨e, he, (arrival_order 0 racingEvents e he).1⟩

/-- The later timestamp stands in front of the earlier one of the same price, and the sell is
filled by it. -/
theorem late_push_in_front :
    ∃ e e' : Execution ℤ,
      Transitions.run Execution.step (Execution.init 0) racingEvents = some e
        ∧ e.engine.book.bids.map (fun l => (l.1, l.2.map Order.timestamp)) = [(100, [1, 0])]
        ∧ ¬ (∀ s, ∀ l ∈ e.engine.book.side s, l.2.Pairwise fun x y => x.timestamp < y.timestamp)
        ∧ e.step .turn = some e' ∧ e'.fulfilled = [(2, .trades [⟨2, 3, 100, 5, 2⟩])] := by
  have hrun : ∃ e ∈ Transitions.run Execution.step (Execution.init 0) racingEvents,
      e.engine.book.bids = [(100, [⟨2, .buy, 100, 5, 1, .limit⟩, ⟨1, .buy, 100, 5, 0, .limit⟩])]
        ∧ ∃ e' ∈ e.step .turn, e'.fulfilled = [(2, .trades [⟨2, 3, 100, 5, 2⟩])] := by
    decide
  obtain ⟨e, he, hb, e', he', hf⟩ := hrun
  refine ⟨e, e', he, by rw [hb]; rfl, fun hall => ?_, he', hf⟩
  have hlevel := hall .buy _ (by rw [OrderBook.side, hb]; exact List.mem_cons_self)
  exact absurd hlevel (by decide)

end Leviathan
