import Leviathan.Book.Exchange
import Leviathan.Engine.Progress

/-!
What the engine does for its callers.

`Exchange.serve` answers the requests of the engine from the list of the live orders alone, one
request at a time.  `serves_exchange` puts the levels together, from the threads of the engine to
the exchange: under every interleaving, with ids that are not reused while live, a promise is
fulfilled with what the exchange answers to its request behind the requests pushed before it, the
book holds what is live behind those processed, and at rest no promise of an engine that runs is
left open.
-/

namespace Leviathan

open Allotment

variable {P : Type*} [LinearOrder P]

namespace Exchange

/-- The highest price live among the buys. -/
def bestBid (e : Exchange P) : Option P := ((e.live.filter (·.side = .buy)).map Order.price).max?

/-- The lowest price live among the sells. -/
def bestAsk (e : Exchange P) : Option P := ((e.live.filter (·.side = .sell)).map Order.price).min?

/-- A request.  The exchange keeps no clock: an order that is modified is stamped zero. -/
def serve (e : Exchange P) : Request P → Response P × Exchange P
  | .add order => e.call (.addOrder order)
  | .cancel orderId => e.call (.cancelOrder orderId)
  | .submit order => e.call (.submitOrder order)
  | .modify orderId newPrice newQuantity => e.call (.modifyOrder 0 orderId newPrice newQuantity)
  | .bestBid => (.price e.bestBid, e)
  | .bestAsk => (.price e.bestAsk, e)
  | .totalOrderCount => (.count e.live.length, e)

/-- A request brings no id that is live, and a fill-or-kill order meets less than `2^64`. -/
def Accepts (e : Exchange P) : Request P → Prop
  | .add order => order.id ∉ e.live.map Order.id
  | .submit order => order.id ∉ e.live.map Order.id
      ∧ (order.type = .fok → total Order.qty (e.meets order) < 2 ^ 64)
  | _ => True

instance (e : Exchange P) (r : Request P) : Decidable (e.Accepts r) :=
  match r with
  | .add order => inferInstanceAs (Decidable (order.id ∉ e.live.map Order.id))
  | .submit order => inferInstanceAs (Decidable (order.id ∉ e.live.map Order.id
      ∧ (order.type = .fok → total Order.qty (e.meets order) < 2 ^ 64)))
  | .cancel _ => inferInstanceAs (Decidable True)
  | .modify _ _ _ => inferInstanceAs (Decidable True)
  | .bestBid => inferInstanceAs (Decidable True)
  | .bestAsk => inferInstanceAs (Decidable True)
  | .totalOrderCount => inferInstanceAs (Decidable True)

/-- The exchange that a sequence of requests leaves. -/
def served (xs : List (Posted P)) : Exchange P :=
  Machine.final serve empty (xs.map Posted.request)

end Exchange

namespace Shows

variable {b : OrderBook P} {e : Exchange P}

lemma bestBid_eq (hs : Shows b e) (h : BookWF b) : bestBid b = e.bestBid := by
  refine Option.ext fun p => ?_
  rw [hs.bestBid_iff h, Exchange.bestBid, List.max?_eq_some_iff]
  simp [IsGreatest, upperBounds, and_assoc]

lemma bestAsk_eq (hs : Shows b e) (h : BookWF b) : bestAsk b = e.bestAsk := by
  refine Option.ext fun p => ?_
  rw [hs.bestAsk_iff h, Exchange.bestAsk, List.min?_eq_some_iff]
  simp [IsLeast, lowerBounds, and_assoc]

end Shows

/-! ### One request -/

/-- The book is one that shows the exchange, timestamps aside. -/
def Holds (b : OrderBook P) (e : Exchange P) : Prop :=
  ∃ b₀, b.untimed = b₀.untimed ∧ IndexExact b₀ ∧ Shows b₀ e

/-- The request answers as the exchange does, and leaves the book with it. -/
def Agrees (s : Response P × (OrderBook P × UInt64)) (r : Response P × Exchange P) : Prop :=
  s.1.untimed = r.1.untimed ∧ Holds s.2.1 r.2

namespace Holds

variable {e : Exchange P}

lemma empty : Holds (OrderBook.empty : OrderBook P) Exchange.empty :=
  ⟨OrderBook.empty, rfl, IndexExact.empty, fun s p => by cases s <;> rfl⟩

/-- A request that is a call of the book. -/
lemma call {b : OrderBook P} (hs : Shows b e) (h : IndexExact b) {c : Call P}
    (hfresh : FreshIds b c) (hp : PreviewExact b c) (counter : UInt64) :
    Agrees ((call b c).1, (call b c).2, counter) (e.call c) := by
  obtain ⟨hresponse, hshows⟩ := hs.call h hfresh hp
  exact ⟨congrArg Response.untimed hresponse.symm, _, rfl, h.call c hfresh, hshows⟩

/-- **A request** that is accepted answers as the exchange does. -/
lemma request {s : OrderBook P × UInt64} (h : Holds s.1 e) {r : Request P} (hr : e.Accepts r) :
    Agrees (execute s r) (e.serve r) := by
  obtain ⟨b, hb, hex, hshows⟩ := h
  have hsame : s.1.untimed = (b, (0 : UInt64)).1.untimed := hb
  obtain ⟨hresponse, hbook⟩ := execute_congr hsame r
  suffices hagree : Agrees (execute (b, 0) r) (e.serve r) by
    obtain ⟨b₀, hb₀, hrest⟩ := hagree.2
    exact ⟨hresponse.trans hagree.1, b₀, hbook.trans hb₀, hrest⟩
  have hfree : ∀ {id}, id ∉ e.live.map Order.id → id ∉ b.restingIds := fun hid hmem =>
    hid ((hshows.mem_restingIds hex.wf).mp hmem)
  cases r with
  | add o => exact call hshows hex (c := .addOrder o) (hfree hr) trivial _
  | cancel id => exact call hshows hex (c := .cancelOrder id) trivial trivial _
  | submit o =>
      refine call hshows hex (c := .submitOrder o) (hfree hr.1) (fun ht => ?_) _
      rw [hshows.total_eligible hex.wf]
      exact hr.2 ht
  | modify id p q => exact call hshows hex (c := .modifyOrder 0 id p q) trivial trivial _
  | bestBid =>
      exact ⟨congrArg (Response.untimed ∘ .price) (hshows.bestBid_eq hex.wf), b, rfl, hex, hshows⟩
  | bestAsk =>
      exact ⟨congrArg (Response.untimed ∘ .price) (hshows.bestAsk_eq hex.wf), b, rfl, hex, hshows⟩
  | totalOrderCount =>
      exact ⟨congrArg (Response.untimed ∘ .count) (hshows.totalOrderCount_eq hex), b, rfl, hex,
        hshows⟩

/-- **A run** of requests that are accepted leaves the book with the exchange. -/
lemma run {s : OrderBook P × UInt64} {rs : List (Request P)} (h : Holds s.1 e)
    (hrs : Machine.Guarded Exchange.serve Exchange.Accepts e rs) :
    Holds (Machine.final execute s rs).1 (Machine.final Exchange.serve e rs) := by
  induction rs generalizing s e with
  | nil => exact h
  | cons r rs ih => exact ih (h.request hrs.1).2 hrs.2

end Holds

/-! ### The engine -/

namespace Threads

/-- **The engine serves the exchange.**  Whatever the interleaving of the threads, if the requests
in the order in which they are pushed are such as the exchange accepts: a promise is fulfilled with
what the exchange answers, timestamps aside, to its request behind those pushed before it; the
queues of the book are what is live behind the requests processed; and once nothing is left to
finish in an engine that runs, every promise is fulfilled. -/
theorem serves_exchange (counter : UInt64) (evs : List (Event P)) (t : Threads P)
    (h : Transitions.run step (init counter) evs = some t)
    (hok : Machine.Guarded Exchange.serve Exchange.Accepts Exchange.empty
      (t.pushed.map Posted.request)) :
    (∀ k v, (k, v) ∈ t.fulfilled → ∃ x : Posted P, t.pushed[k]? = some x
        ∧ v.untimed = ((Exchange.served (t.pushed.take k)).serve x.request).1.untimed)
      ∧ (∃ b, t.book.untimed = b.untimed ∧ Shows b (Exchange.served t.processed))
      ∧ (t.Quiet → t.started = true → t.stopped = false → ∀ (k : ℕ) (x : Posted P),
          t.pushed[k]? = some x → x.request.hasPromise = true → ∃ v, (k, v) ∈ t.fulfilled) := by
  obtain ⟨ho, hd⟩ := ordered_abs h
  have hsound : Sound t :=
    Transitions.run_invariant Sound (fun _ _ _ h hs => h.step hs) h (.init counter)
  have hpushed : t.pushed = t.processed ++ t.abs.engine.queue.queue := ho.pushed
  -- behind any first of the requests, a plain book holds what the exchange does
  have hholds : ∀ n, Holds (sequential counter ((t.pushed.take n).map Posted.request)).1
      (Exchange.served (t.pushed.take n)) := by
    intro n
    refine Holds.run (s := (OrderBook.empty, counter)) Holds.empty ?_
    rw [List.map_take]
    exact hok.take n
  refine ⟨fun k v hkv => ?_, ?_, fun hq hstarted hstop k x hx hpromise => ?_⟩
  · obtain ⟨x, hx, hval⟩ := ho.value k v hkv
    have hlen : k < t.processed.length := (List.getElem?_eq_some_iff.mp hx).1
    have hxp : t.pushed[k]? = some x := by
      rw [hpushed, List.getElem?_append_left hlen]
      exact hx
    have hk : t.processed.take k = t.pushed.take k := by
      rw [hpushed, List.take_append_of_le_length hlen.le]
    have hguard : (Exchange.served (t.pushed.take k)).Accepts x.request := by
      have hget : (t.pushed.map Posted.request)[k]? = some x.request := by
        rw [List.getElem?_map, hxp]
        rfl
      have hg := hok.getElem? hget
      rwa [← List.map_take] at hg
    refine ⟨x, hxp, (hval counter).trans ?_⟩
    show (plainAnswer counter (t.processed.take k) x.request).untimed = _
    rw [hk]
    exact ((hholds k).request hguard).1
  · have hproc : t.processed = t.pushed.take t.processed.length := by
      rw [hpushed, List.take_left]
    obtain ⟨b, hb, -, hshows⟩ := hholds t.processed.length
    rw [← hproc] at hb hshows
    exact ⟨b, (ho.book counter).trans hb, hshows⟩
  · have hrest := atRest_of_quiet hsound ho hd hq
    obtain ⟨-, hall, -⟩ := hrest.answered hstarted hstop
    have hmem := hall x (List.mem_of_getElem? hx) hpromise
    rw [ho.promise k x hx] at hmem
    obtain ⟨⟨k', v⟩, hkv, rfl⟩ := List.mem_map.mp hmem
    exact ⟨v, hkv⟩

/-- An owner and two producers around the matching thread, number 3: a sell is hit while a second
one waits in the queue, a modification moves what is left of the first behind it, and a read follows
after all. -/
def serviceEvents : List (Event ℤ) :=
  [.spawn, .spawn, .spawn, .start 0, .test,
   .push 1 (.submit ⟨1, .sell, 101, 5, 0, .limit⟩), .notifyOne 1 (some 3), .test,
   .push 2 (.submit ⟨2, .buy, 101, 3, 1, .ioc⟩), .push 1 (.add ⟨3, .sell, 102, 4, 2, .limit⟩),
   .process, .notifyOne 2 none, .test, .notifyOne 1 none, .process, .test, .process,
   .push 2 (.modify 1 102 2), .notifyOne 2 none, .test, .process, .push 1 .bestAsk, .test,
   .notifyOne 1 none, .process]

/-- The answers are those of the exchange, and the book shows its live orders. -/
theorem serves_exchange_sample :
    ∃ t, Transitions.run step (init 3) serviceEvents = some t
      ∧ t.fulfilled = [(0, .trades []), (1, .trades [⟨2, 1, 101, 3, 1⟩]), (3, .modified (some [])),
        (4, .price (some 102))]
      ∧ (Exchange.served t.processed).live
        = [⟨3, .sell, 102, 4, 2, .limit⟩, ⟨1, .sell, 102, 2, 0, .limit⟩]
      ∧ ∃ b, t.book.untimed = b.untimed ∧ Shows b (Exchange.served t.processed) := by
  have hrun : ∃ t ∈ Transitions.run step (init 3) serviceEvents,
      t.fulfilled = [(0, .trades []), (1, .trades [⟨2, 1, 101, 3, 1⟩]), (3, .modified (some [])),
          (4, .price (some 102))]
        ∧ (Exchange.served t.processed).live
          = [⟨3, .sell, 102, 4, 2, .limit⟩, ⟨1, .sell, 102, 2, 0, .limit⟩]
        ∧ Machine.Guarded Exchange.serve Exchange.Accepts Exchange.empty
          (t.pushed.map Posted.request) := by
    decide +kernel
  obtain ⟨t, ht, hful, hlive, hok⟩ := hrun
  exact ⟨t, ht, hful, hlive, (serves_exchange 3 serviceEvents t ht hok).2.1⟩

end Threads

end Leviathan
