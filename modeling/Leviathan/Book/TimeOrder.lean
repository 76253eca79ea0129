import Leviathan.Book.Placement

/-!
Queues are in timestamp order when a book is used by one thread.

Nothing in the book compares timestamps.  That every queue is in their order follows from how
orders get their places (`call_placement`) and from the counter: a single thread constructs each
order just before the call it is passed to, so what is put at the back of a queue is younger than
everything that rests.

* `Session` is such a use of a book, with the process-wide counter and the number of orders
  constructed so far; `Use` is one step of it.
* `TimeOrdered counter b` is the invariant, kept by thinning (`TimeOrdered.thin`) and by placing
  an order that carries the counter's value (`TimeOrdered.place`).
* `time_order` reads it off for every run of fewer than `2^64` constructions.
-/

namespace Leviathan

variable {P : Type*}

/-- A step of the thread that owns the book: it constructs an order for some other end, or one
that it passes on at once, or cancels, or modifies. -/
inductive Use (P : Type*) where
  | construct
  | addOrder (id : UInt64) (side : Side) (price : P) (quantity : UInt64) (type : OrderType)
  | submitOrder (id : UInt64) (side : Side) (price : P) (quantity : UInt64) (type : OrderType)
  | cancelOrder (orderId : UInt64)
  | modifyOrder (orderId : UInt64) (newPrice : P) (newQuantity : UInt64)
  deriving DecidableEq

/-- The book, the counter of `nextTimestamp`, and how many orders have been constructed. -/
structure Session (P : Type*) where
  book : OrderBook P
  counter : UInt64
  constructed : ℕ

namespace Session

/-- An empty book in a process that has constructed no order. -/
def start : Session P := ⟨OrderBook.empty, 0, 0⟩

variable [LinearOrder P]

/-- One step. -/
def use (s : Session P) : Use P → Response P × Session P
  | .construct => (.done, ⟨s.book, (nextTimestamp s.counter).2, s.constructed + 1⟩)
  | .addOrder id side price quantity type =>
      let (order, counter) := Order.new s.counter id side price quantity type
      (.done, ⟨Leviathan.addOrder s.book order, counter, s.constructed + 1⟩)
  | .submitOrder id side price quantity type =>
      let (order, counter) := Order.new s.counter id side price quantity type
      let (trades, book) := Leviathan.submitOrder s.book order
      (.trades trades, ⟨book, counter, s.constructed + 1⟩)
  | .cancelOrder orderId =>
      let (ok, book) := Leviathan.cancelOrder s.book orderId
      (.cancelled ok, ⟨book, s.counter, s.constructed⟩)
  | .modifyOrder orderId newPrice newQuantity =>
      -- `modifyOrder` constructs an order exactly when it advances the counter
      let (trades, book, counter) :=
        Leviathan.modifyOrder s.book s.counter orderId newPrice newQuantity
      (.modified trades, ⟨book, counter, s.constructed + (counter - s.counter).toNat⟩)

end Session

variable [LinearOrder P]

/-- The session after a run. -/
def session (us : List (Use P)) : Session P := Machine.final Session.use Session.start us

/-- The trades emitted over a run. -/
def sessionTrades (us : List (Use P)) : List (Trade P) :=
  (Machine.answers Session.use Session.start us).flatMap Response.tradeList

/-! ### The invariant of the book -/

/-- Every resting order was constructed before the counter's value was reached, every queue is in
timestamp order, and no timestamp rests twice. -/
structure TimeOrdered (counter : UInt64) (b : OrderBook P) : Prop where
  wf : BookWF b
  older : ∀ o ∈ b.restingAll, o.timestamp < counter
  queue : ∀ s, (b.resting s).Pairwise fun x y => x.price = y.price → x.timestamp < y.timestamp
  distinct : (b.restingAll.map Order.timestamp).Nodup

namespace TimeOrdered

variable {counter counter' : UInt64} {b b' : OrderBook P}

lemma empty (counter : UInt64) : TimeOrdered counter (OrderBook.empty : OrderBook P) where
  wf := BookWF.empty
  older := fun o ho => by
    obtain ⟨s, hs⟩ := OrderBook.mem_restingAll.mp ho
    cases s <;> simp [OrderBook.resting, OrderBook.side, OrderBook.empty] at hs
  queue := fun s => by cases s <;> exact List.Pairwise.nil
  distinct := List.nodup_nil

/-- Thinning the book, with a counter that has not gone back. -/
lemma thin (h : TimeOrdered counter b) (hwf : BookWF b') (ht : Thins b b')
    (hc : counter ≤ counter') : TimeOrdered counter' b' := by
  have hsub : (b'.restingAll.map Order.timestamp).Sublist (b.restingAll.map Order.timestamp) :=
    ht.map_restingAll fun _ => rfl
  refine ⟨hwf, ?_, fun s => ht.pairwise (fun _ _ => Iff.rfl) (h.queue s), h.distinct.sublist hsub⟩
  intro o ho
  obtain ⟨x, hx, hxo⟩ := List.mem_map.mp (hsub.subset (List.mem_map_of_mem ho))
  rw [← hxo]
  exact UInt64.lt_of_lt_of_le (h.older x hx) hc

/-- Placing an order that carries the counter's value, with the counter advanced. -/
lemma place (h : TimeOrdered counter b) {o : Order P} (ho : o.timestamp = counter)
    (hc : counter < counter') : TimeOrdered counter' (addOrder b o) := by
  have hperm := restingAll_addOrder h.wf o
  have hyoung : ∀ s, ∀ x ∈ b.resting s, x.timestamp < o.timestamp := by
    intro s x hx
    rw [ho]
    exact h.older x (OrderBook.mem_restingAll.mpr ⟨s, hx⟩)
  refine ⟨wf_addOrder h.wf o, ?_, ?_, ?_⟩
  · intro x hx
    rcases List.mem_cons.mp (hperm.subset hx) with rfl | hx
    · rwa [ho]
    · exact UInt64.lt_trans (h.older x hx) hc
  · intro s
    by_cases hs : s = o.side
    · -- the order goes behind everything of its price, all of it older
      subst hs
      rw [resting_addOrder_eq_filter h.wf]
      exact pairwise_insert (h.queue o.side) (hyoung o.side)
    · rw [OrderBook.resting_congr (side_addOrder_of_ne b hs)]
      exact h.queue s
  · rw [(hperm.map Order.timestamp).nodup_iff, List.map_cons, List.nodup_cons]
    refine ⟨fun hmem => ?_, h.distinct⟩
    obtain ⟨x, hx, hxo⟩ := List.mem_map.mp hmem
    have hlt := h.older x hx
    rw [hxo, ho] at hlt
    exact UInt64.lt_irrefl _ hlt

/-- A call that places only orders of the counter's value. -/
lemma call (h : TimeOrdered counter b) {c : Call P} (hp : ∀ o, c.Places o → o.timestamp = counter)
    (hc : counter < counter') : TimeOrdered counter' (call b c).2 := by
  have hle : counter ≤ counter' := UInt64.le_of_lt hc
  obtain ⟨b₁, hwf, ht, heq | ⟨o, ho, heq⟩⟩ := call_placement h.wf c
  · rw [heq]
    exact h.thin hwf ht hle
  · rw [heq]
    exact (h.thin hwf ht (UInt64.le_refl _)).place (hp o ho) hc

/-- The orders of a level are in timestamp order. -/
lemma level (h : TimeOrdered counter b) {s : Side} {l : P × List (Order P)} (hl : l ∈ b.side s) :
    l.2.Pairwise fun x y => x.timestamp < y.timestamp := by
  have hsub : l.2.Sublist (b.resting s) := by
    have hmem : l.2 ∈ (b.side s).map Prod.snd := List.mem_map_of_mem hl
    exact List.sublist_flatten_of_mem hmem
  refine ((h.queue s).sublist hsub).imp_of_mem fun {x y} hx hy hxy => hxy ?_
  rw [((h.wf s).home l hl x hx).2, ((h.wf s).home l hl y hy).2]

end TimeOrdered

/-! ### The invariant of the session -/

namespace Session

/-- The counter has not wrapped and the book is in timestamp order. -/
structure Ordered (s : Session P) : Prop where
  counter : s.counter.toNat = s.constructed
  book : TimeOrdered s.counter s.book

lemma Ordered.start : Ordered (Session.start : Session P) := ⟨rfl, TimeOrdered.empty 0⟩

/-- **What a step does**: it thins the book and emits no trade, or it executes a call whose order
it has just constructed. -/
lemma use_cases {s : Session P} (h : BookWF s.book) (u : Use P) :
    (((s.use u).2.counter = s.counter ∧ (s.use u).2.constructed = s.constructed
          ∨ (s.use u).2.counter = s.counter + 1 ∧ (s.use u).2.constructed = s.constructed + 1)
        ∧ (s.use u).1.tradeList = [] ∧ BookWF (s.use u).2.book ∧ Thins s.book (s.use u).2.book)
      ∨ ((s.use u).2.counter = s.counter + 1 ∧ (s.use u).2.constructed = s.constructed + 1
        ∧ ∃ c : Call P, (∀ o, c.Places o → o.timestamp = s.counter)
          ∧ (s.use u).1 = (call s.book c).1 ∧ (s.use u).2.book = (call s.book c).2) := by
  cases u with
  | construct => exact Or.inl ⟨Or.inr ⟨rfl, rfl⟩, rfl, h, Thins.refl _⟩
  | addOrder id side price quantity type =>
      exact Or.inr ⟨rfl, rfl, .addOrder ⟨id, side, price, quantity, s.counter, type⟩,
        fun o ho => timestamp_of_unsized ho, rfl, rfl⟩
  | submitOrder id side price quantity type =>
      exact Or.inr ⟨rfl, rfl, .submitOrder ⟨id, side, price, quantity, s.counter, type⟩,
        fun o ho => timestamp_of_unsized ho, rfl, rfl⟩
  | cancelOrder id =>
      refine Or.inl ⟨Or.inl ⟨rfl, rfl⟩, rfl, wf_cancelOrder h id, ?_⟩
      obtain ⟨b₁, -, ht, heq | ⟨o, ho, -⟩⟩ := call_placement h (.cancelOrder id)
      · have hbook : (s.use (.cancelOrder id)).2.book = b₁ := heq
        rwa [hbook]
      · exact ho.elim
  | modifyOrder id p q =>
      have hbook : (s.use (.modifyOrder id p q)).2.book
          = (modifyOrder s.book s.counter id p q).2.1 := rfl
      have hcounter : (s.use (.modifyOrder id p q)).2.counter
          = (modifyOrder s.book s.counter id p q).2.2 := rfl
      have hcons : (s.use (.modifyOrder id p q)).2.constructed = s.constructed
          + ((modifyOrder s.book s.counter id p q).2.2 - s.counter).toNat := rfl
      have htrades : (s.use (.modifyOrder id p q)).1
          = .modified (modifyOrder s.book s.counter id p q).1 := rfl
      rw [hbook, hcounter, hcons, htrades]
      have hself : (s.counter - s.counter).toNat = 0 := by rw [UInt64.sub_self]; rfl
      rcases modifyOrder_cases h s.counter id p q with
        ⟨heq, -⟩ | ⟨t, o, bef, aft, -, -, hr, hcase⟩
      · rw [heq]
        exact Or.inl ⟨Or.inl ⟨rfl, by rw [hself, Nat.add_zero]⟩, rfl, h, Thins.refl _⟩
      · rcases hcase with ⟨-, heq⟩ | ⟨-, -, -, b', heq, hw⟩ | ⟨-, -, heq⟩
        · rw [heq]
          exact Or.inl ⟨Or.inl ⟨rfl, by rw [hself, Nat.add_zero]⟩, rfl, hr.wf, thins_removed hr⟩
        · rw [heq]
          exact Or.inl ⟨Or.inl ⟨rfl, by rw [hself, Nat.add_zero]⟩, rfl, hw.wf,
            thins_rewritten hr.resting hw⟩
        · have hone : (s.counter + 1 - s.counter).toNat = 1 := by
            rw [UInt64.add_comm, UInt64.add_sub_cancel]
            rfl
          refine Or.inr ⟨by rw [heq], by rw [heq, hone], .modifyOrder s.counter id p q,
            fun o ho => ho.2.2, rfl, rfl⟩

/-- **One step** keeps the session in order, and its trades are stamped with the counter's value
before it, by a taker younger than every order that rested. -/
lemma Ordered.use {s : Session P} (h : Ordered s) (u : Use P)
    (hlt : (s.use u).2.constructed < 2 ^ 64) :
    Ordered (s.use u).2 ∧ s.counter ≤ (s.use u).2.counter
      ∧ ∀ t ∈ (s.use u).1.tradeList, t.timestamp = s.counter ∧ t.timestamp < (s.use u).2.counter
        ∧ ∃ taker maker : Order P, ∃ n,
          maker ∈ s.book.restingAll ∧ t = taker.tradeWith maker n := by
  have hsucc : s.constructed + 1 < 2 ^ 64 → (s.counter + 1).toNat = s.constructed + 1 := by
    intro hlt
    rw [UInt64.toNat_add, h.counter]
    exact Nat.mod_eq_of_lt hlt
  have hnext : s.constructed + 1 < 2 ^ 64 → s.counter < s.counter + 1 := by
    intro hlt
    rw [UInt64.lt_iff_toNat_lt, hsucc hlt, h.counter]
    omega
  rcases use_cases h.book.wf u with
    ⟨hcount, htr, hwf, hthin⟩ | ⟨hcounter, hcons, c, hp, hresp, hbook⟩
  · have hle : s.counter ≤ (s.use u).2.counter ∧ Ordered (s.use u).2 := by
      rcases hcount with ⟨hcounter, hcons⟩ | ⟨hcounter, hcons⟩
      · have hle : s.counter ≤ (s.use u).2.counter := by rw [hcounter]; exact UInt64.le_refl _
        exact ⟨hle, ⟨by rw [hcounter, hcons, h.counter], h.book.thin hwf hthin hle⟩⟩
      · rw [hcons] at hlt
        have hle : s.counter ≤ (s.use u).2.counter := by
          rw [hcounter]
          exact UInt64.le_of_lt (hnext hlt)
        exact ⟨hle, ⟨by rw [hcounter, hcons, hsucc hlt], h.book.thin hwf hthin hle⟩⟩
    refine ⟨hle.2, hle.1, fun t ht => ?_⟩
    rw [htr] at ht
    simp at ht
  · rw [hcons] at hlt
    have hlt' : s.counter < (s.use u).2.counter := by
      rw [hcounter]
      exact hnext hlt
    refine ⟨⟨by rw [hcounter, hcons, hsucc hlt], ?_⟩, UInt64.le_of_lt hlt', fun t ht => ?_⟩
    · rw [hbook]
      exact h.book.call hp hlt'
    · rw [hresp] at ht
      obtain ⟨taker, maker, n, hpl, hm, rfl⟩ := call_trades h.book.wf c ht
      have hts : (taker.tradeWith maker n).timestamp = s.counter := by
        rw [← hp taker hpl, Order.tradeWith]
        cases taker.side <;> rfl
      refine ⟨hts, by rwa [hts], taker, maker, n, ?_, rfl⟩
      exact OrderBook.mem_restingAll.mpr ⟨_, hm⟩

/-! ### Runs -/

lemma constructed_le_use (s : Session P) (u : Use P) :
    s.constructed ≤ (s.use u).2.constructed := by
  cases u <;> first | exact Nat.le_succ _ | exact Nat.le_refl _ | exact Nat.le_add_right _ _

lemma constructed_le (s : Session P) (us : List (Use P)) :
    s.constructed ≤ (Machine.final use s us).constructed := by
  induction us generalizing s with
  | nil => exact Nat.le_refl _
  | cons u us ih => exact (constructed_le_use s u).trans (ih _)

/-- **A run** keeps the session in order, and its trades come in the order of their timestamps. -/
lemma Ordered.run {s : Session P} (h : Ordered s) (us : List (Use P))
    (hlt : (Machine.final Session.use s us).constructed < 2 ^ 64) :
    Ordered (Machine.final Session.use s us)
      ∧ (∀ t ∈ (Machine.answers Session.use s us).flatMap Response.tradeList,
          s.counter ≤ t.timestamp)
      ∧ (((Machine.answers Session.use s us).flatMap Response.tradeList).map
          Trade.timestamp).Pairwise (· ≤ ·) := by
  induction us generalizing s with
  | nil => exact ⟨h, by simp, List.Pairwise.nil⟩
  | cons u us ih =>
      have hu := (constructed_le (s.use u).2 us).trans_lt hlt
      obtain ⟨h', hle, htr⟩ := h.use u hu
      obtain ⟨hfin, hlow, hsorted⟩ := ih h' hlt
      rw [Machine.answers_cons, List.flatMap_cons]
      refine ⟨hfin, fun t ht => ?_, ?_⟩
      · rcases List.mem_append.mp ht with ht | ht
        · rw [(htr t ht).1]
          exact UInt64.le_refl _
        · exact UInt64.le_trans hle (hlow t ht)
      · rw [List.map_append]
        refine List.pairwise_append.mpr ⟨?_, hsorted, ?_⟩
        · refine List.pairwise_map.mpr (List.pairwise_of_forall_mem_list ?_)
          intro t ht t' ht'
          rw [(htr t ht).1, (htr t' ht').1]
          exact UInt64.le_refl _
        · intro x hx y hy
          obtain ⟨t, ht, rfl⟩ := List.mem_map.mp hx
          obtain ⟨t', ht', rfl⟩ := List.mem_map.mp hy
          exact UInt64.le_trans (UInt64.le_of_lt (htr t ht).2.1) (hlow t' ht')

end Session

/-- **Time order under sequential use.**  In every run of fewer than `2^64` constructions each
queue is strictly increasing in timestamps, no two resting orders share one, every trade is
stamped later than every order that rested when it was made, its maker among them, and the trades
of the whole run come in the order of their timestamps. -/
theorem time_order (us : List (Use P)) (h : (session us).constructed < 2 ^ 64) :
    (∀ s, ∀ l ∈ (session us).book.side s, l.2.Pairwise fun x y => x.timestamp < y.timestamp)
      ∧ ((session us).book.restingAll.map Order.timestamp).Nodup
      ∧ (∀ us₁ u us₂, us = us₁ ++ u :: us₂ → ∀ t ∈ ((session us₁).use u).1.tradeList,
          (∃ taker maker : Order P, ∃ n, maker ∈ (session us₁).book.restingAll
              ∧ t = taker.tradeWith maker n)
            ∧ ∀ maker ∈ (session us₁).book.restingAll, maker.timestamp < t.timestamp)
      ∧ ((sessionTrades us).map Trade.timestamp).Pairwise (· ≤ ·) := by
  obtain ⟨hord, -, hsorted⟩ := Session.Ordered.start.run us h
  refine ⟨fun s l hl => hord.book.level hl, hord.book.distinct, ?_, hsorted⟩
  rintro us₁ u us₂ rfl t ht
  have hsplit : session (us₁ ++ u :: us₂)
      = Machine.final Session.use ((session us₁).use u).2 us₂ := Machine.final_append _ _ _ _
  rw [hsplit] at h
  have hu := (Session.constructed_le _ us₂).trans_lt h
  have h₁ := (Session.constructed_le_use (session us₁) u).trans_lt hu
  obtain ⟨hord₁, -, -⟩ := Session.Ordered.start.run us₁ h₁
  obtain ⟨-, -, htr⟩ := hord₁.use u hu
  obtain ⟨hts, -, taker, maker, n, hm, rfl⟩ := htr t ht
  exact ⟨⟨taker, maker, n, hm, rfl⟩, fun m hm => hts ▸ hord₁.book.older m hm⟩

/-- Two bids at 99, the older one reduced in place, the younger one enlarged and so sent to the
back behind a third, and a sell that meets the first of them. -/
theorem time_order_sample :
    let us : List (Use ℤ) := [.addOrder 1 .buy 99 5 .limit, .addOrder 2 .buy 99 5 .limit,
      .modifyOrder 1 99 3, .addOrder 3 .buy 99 5 .limit, .modifyOrder 2 99 8, .construct,
      .submitOrder 4 .sell 99 4 .ioc]
    ((session us).book.restingAll.map Order.timestamp).Nodup
      ∧ (session us).book.bids.map (fun l => l.2.map Order.timestamp) = [[2, 3]] :=
  ⟨(time_order _ (by decide)).2.1, by decide⟩

end Leviathan
