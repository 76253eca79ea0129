import Leviathan.Book.Timestamps
import Leviathan.Engine.Engine

/-!
The engine is linearizable in push order.

* `execute` is the sequential reading of a request: the method of a plain `OrderBook` it
  stands for, reads included.
* `Ordered` ties the history of an execution together: what was pushed is what was processed
  followed by what is still queued, the book is the one a plain run of the processed requests
  leaves, and every promise fulfilled so far has the value of that run at its request, all of
  it up to timestamps.
* `linearizable` reads this off for every interleaving, together with the drain before exit.
-/

namespace Leviathan

variable {P : Type*} [LinearOrder P]

/-- A request as a call of a plain book that draws timestamps from its own counter. -/
def execute (s : OrderBook P × UInt64) : Request P → Response P × (OrderBook P × UInt64)
  | .add order => (.done, addOrder s.1 order, s.2)
  | .cancel orderId => (.cancelled (cancelOrder s.1 orderId).1, (cancelOrder s.1 orderId).2, s.2)
  | .submit order => (.trades (submitOrder s.1 order).1, (submitOrder s.1 order).2, s.2)
  | .modify orderId newPrice newQuantity =>
      let r := modifyOrder s.1 s.2 orderId newPrice newQuantity
      (.modified r.1, r.2)
  | .bestBid => (.price (bestBid s.1), s)
  | .bestAsk => (.price (bestAsk s.1), s)
  | .totalOrderCount => (.count (totalOrderCount s.1), s)

/-- The book and the counter that a plain run of requests leaves, from an empty book. -/
def sequential (counter : UInt64) (rs : List (Request P)) : OrderBook P × UInt64 :=
  Machine.final execute (OrderBook.empty, counter) rs

lemma sequential_concat (counter : UInt64) (rs : List (Request P)) (r : Request P) :
    sequential counter (rs ++ [r]) = (execute (sequential counter rs) r).2 :=
  Machine.final_append execute _ rs [r]

/-- The dispatch of the engine calls the method the request stands for, and fulfils the
promise, where there is one, with its result. -/
lemma processRequest_eq (b : OrderBook P) (counter : UInt64) (r : Request P) :
    processRequest b counter r
      = (if r.hasPromise then some (execute (b, counter) r).1 else none,
          (execute (b, counter) r).2) := by
  cases r <;> rfl

omit [LinearOrder P] in
lemma bestBid_untimed (b : OrderBook P) : bestBid b.untimed = bestBid b := by
  obtain ⟨bids, asks, ix⟩ := b
  cases bids <;> rfl

omit [LinearOrder P] in
lemma bestAsk_untimed (b : OrderBook P) : bestAsk b.untimed = bestAsk b := by
  obtain ⟨bids, asks, ix⟩ := b
  cases asks <;> rfl

/-- A request answers the same on books that agree up to timestamps, and leaves such books. -/
lemma execute_congr {s s' : OrderBook P × UInt64} (h : s.1.untimed = s'.1.untimed)
    (r : Request P) :
    (execute s r).1.untimed = (execute s' r).1.untimed
      ∧ (execute s r).2.1.untimed = (execute s' r).2.1.untimed := by
  cases r with
  | add o => exact @call_congr P _ s.1 s'.1 (.addOrder o) (.addOrder o) h rfl
  | cancel id => exact @call_congr P _ s.1 s'.1 (.cancelOrder id) (.cancelOrder id) h rfl
  | submit o => exact @call_congr P _ s.1 s'.1 (.submitOrder o) (.submitOrder o) h rfl
  | modify id p q =>
      exact @call_congr P _ s.1 s'.1 (.modifyOrder s.2 id p q) (.modifyOrder s'.2 id p q) h rfl
  | bestBid =>
      refine ⟨?_, h⟩
      simp only [execute]
      rw [← bestBid_untimed s.1, h, bestBid_untimed]
  | bestAsk =>
      refine ⟨?_, h⟩
      simp only [execute]
      rw [← bestAsk_untimed s.1, h, bestAsk_untimed]
  | totalOrderCount =>
      refine ⟨?_, h⟩
      have hix := congrArg OrderBook.orderIndex h
      simp only [OrderBook.untimed_orderIndex] at hix
      simp only [execute, totalOrderCount, hix]

/-! ### The invariant -/

/-- The value that a plain run of the requests in `before` gives the request `r`. -/
def plainAnswer (counter : UInt64) (before : List (Posted P)) (r : Request P) : Response P :=
  (execute (sequential counter (before.map Posted.request)) r).1

/-- The history of an execution is in order. -/
structure Ordered (e : Execution P) : Prop where
  pushed : e.pushed = e.processed ++ e.engine.queue.queue
  promise : ∀ (k : ℕ) (x : Posted P), e.pushed[k]? = some x → x.promise = k
  book : ∀ counter, e.engine.book.untimed
    = (sequential counter (e.processed.map Posted.request)).1.untimed
  once : (e.fulfilled.map Prod.fst).Nodup
  value : ∀ k v, (k, v) ∈ e.fulfilled → ∃ x : Posted P, e.processed[k]? = some x
    ∧ ∀ counter, v.untimed = (plainAnswer counter (e.processed.take k) x.request).untimed
  kept : ∀ (k : ℕ) (x : Posted P), e.processed[k]? = some x → x.request.hasPromise = true →
    k ∈ e.fulfilled.map Prod.fst

namespace Ordered

lemma init (counter : UInt64) : Ordered (Execution.init counter : Execution P) where
  pushed := rfl
  promise := fun k x h => by simp [Execution.init] at h
  book := fun _ => rfl
  once := List.nodup_nil
  value := fun k v h => by simp [Execution.init] at h
  kept := fun k x h => by simp [Execution.init] at h

variable {e : Execution P}

/-- A step that touches neither the book nor the queue nor the history. -/
lemma congr {e' : Execution P} (h : Ordered e) (hbook : e'.engine.book = e.engine.book)
    (hqueue : e'.engine.queue.queue = e.engine.queue.queue) (hpushed : e'.pushed = e.pushed)
    (hproc : e'.processed = e.processed) (hful : e'.fulfilled = e.fulfilled) : Ordered e' where
  pushed := by rw [hpushed, hproc, hqueue, h.pushed]
  promise := by rw [hpushed]; exact h.promise
  book := by rw [hbook, hproc]; exact h.book
  once := by rw [hful]; exact h.once
  value := by rw [hful, hproc]; exact h.value
  kept := by rw [hful, hproc]; exact h.kept

lemma push (h : Ordered e) (producer : ℕ) (r : Request P) : Ordered (e.push producer r) where
  pushed := by
    simp only [Execution.push, ThreadSafeQueue.push]
    rw [← List.append_assoc, ← h.pushed]
  promise := by
    intro k x hx
    simp only [Execution.push] at hx
    rcases lt_or_ge k e.pushed.length with hk | hk
    · rw [List.getElem?_append_left hk] at hx
      exact h.promise k x hx
    · rw [List.getElem?_append_right hk] at hx
      obtain ⟨hlt, rfl⟩ := List.getElem?_eq_some_iff.mp hx
      have hlt : k - e.pushed.length < 1 := hlt
      have hz : k - e.pushed.length = 0 := by omega
      simp only [hz, List.getElem_cons_zero]
      omega
  book := h.book
  once := h.once
  value := h.value
  kept := h.kept

/-- Popping the front request and processing it. -/
lemma process (h : Ordered e) {x : Posted P} {queue : ThreadSafeQueue (Posted P)}
    (hq : e.engine.queue.queue = x :: queue.queue) : Ordered (e.process x queue) := by
  have hx : e.pushed[e.processed.length]? = some x := by
    rw [h.pushed, hq]
    simp
  have hk : x.promise = e.processed.length := h.promise _ x hx
  have hlt : ∀ k ∈ e.fulfilled.map Prod.fst, k < e.processed.length := by
    intro k hk
    obtain ⟨⟨k, v⟩, hf, rfl⟩ := List.mem_map.mp hk
    obtain ⟨y, hy, -⟩ := h.value k v hf
    exact (List.getElem?_eq_some_iff.mp hy).1
  have hstate : ∀ counter, e.engine.book.untimed
      = (sequential counter (e.processed.map Posted.request)).1.untimed := h.book
  have hproc : processRequest e.engine.book e.counter x.request
      = (if x.request.hasPromise then some (execute (e.engine.book, e.counter) x.request).1
          else none, (execute (e.engine.book, e.counter) x.request).2) := processRequest_eq _ _ _
  have hold : ∀ (k : ℕ) (y : Posted P), e.processed[k]? = some y →
      (e.processed ++ [x])[k]? = some y := by
    intro k y hy
    rw [List.getElem?_append_left (List.getElem?_eq_some_iff.mp hy).1, hy]
  refine ⟨?_, h.promise, ?_, ?_, ?_, ?_⟩
  · simp only [Execution.process]
    rw [h.pushed, hq, List.append_assoc]
    rfl
  · intro counter
    simp only [Execution.process, hproc]
    rw [List.map_append, List.map_singleton, sequential_concat]
    exact (execute_congr (s := (e.engine.book, e.counter)) (hstate counter) x.request).2
  · simp only [Execution.process, hproc]
    split_ifs
    · simp only [Option.map_some, Option.toList_some, List.map_append, List.map_singleton]
      refine List.nodup_append.mpr ⟨h.once, List.nodup_singleton _, ?_⟩
      intro k hk' j hj heq
      have hkl := hlt k hk'
      rw [List.mem_singleton.mp hj] at heq
      omega
    · simpa using h.once
  · intro k v hkv
    simp only [Execution.process, hproc] at hkv ⊢
    rcases List.mem_append.mp hkv with hkv | hkv
    · obtain ⟨y, hy, hval⟩ := h.value k v hkv
      have hkl := (List.getElem?_eq_some_iff.mp hy).1
      refine ⟨y, hold k y hy, ?_⟩
      rw [List.take_append_of_le_length hkl.le]
      exact hval
    · split_ifs at hkv
      · obtain ⟨rfl, rfl⟩ := Prod.mk.inj (List.mem_singleton.mp hkv)
        rw [hk]
        refine ⟨x, by simp, fun counter => ?_⟩
        rw [List.take_left]
        exact (execute_congr (s := (e.engine.book, e.counter)) (hstate counter) x.request).1
      · simp at hkv
  · intro k y hy hprom
    simp only [Execution.process, hproc] at hy ⊢
    rw [List.map_append]
    rcases lt_or_ge k e.processed.length with hkl | hkl
    · rw [List.getElem?_append_left hkl] at hy
      exact List.mem_append_left _ (h.kept k y hy hprom)
    · rw [List.getElem?_append_right hkl] at hy
      obtain ⟨hlt', rfl⟩ := List.getElem?_eq_some_iff.mp hy
      have hlt' : k - e.processed.length < 1 := hlt'
      have hz : k - e.processed.length = 0 := by omega
      simp only [hz, List.getElem_cons_zero] at hprom
      refine List.mem_append_right _ ?_
      rw [if_pos hprom]
      simp only [Option.map_some, Option.toList_some, List.map_singleton, List.mem_singleton]
      omega

lemma step (h : Ordered e) {ev : Event P} {e' : Execution P} (hs : e.step ev = some e') :
    Ordered e' := by
  rcases Execution.step_cases hs with ⟨-, rfl⟩ | ⟨producer, r, -, -, rfl⟩ | ⟨-, rfl⟩ | ⟨-, rfl⟩
    | ⟨-, -, -, -, rfl⟩ | ⟨-, -, x, queue, hq, -, rfl⟩
  · exact h.congr rfl rfl rfl rfl rfl
  · exact h.push producer r
  · refine h.congr ?_ ?_ rfl rfl rfl
    all_goals
      simp only [MatchingEngine.start]
      split_ifs <;> rfl
  · refine h.congr ?_ ?_ rfl rfl rfl
    all_goals
      simp only [Execution.stop, MatchingEngine.stop, ThreadSafeQueue.signalShutdown]
      split_ifs <;> rfl
  · exact h.congr rfl rfl rfl rfl rfl
  · exact h.process hq

end Ordered

/-! ### The drain before exit -/

/-- The shutdown flag and the exit of the matching thread, against the history: the flag goes
up with `stop`, and a thread that has exited left behind no request pushed before that. -/
structure Drained (e : Execution P) : Prop where
  flag : e.engine.queue.shutdown = e.engine.stopped
  recorded : e.shutdownAt = none ↔ e.engine.stopped = false
  bound : ∀ n, e.shutdownAt = some n → n ≤ e.pushed.length
  exited : e.engine.matchingThread = .exited →
    ∃ n, e.shutdownAt = some n ∧ n ≤ e.processed.length
  spawned : e.engine.started = false → e.engine.matchingThread = .idle

namespace Drained

omit [LinearOrder P] in
lemma init (counter : UInt64) : Drained (Execution.init counter : Execution P) :=
  ⟨rfl, iff_of_true rfl rfl, fun _ h => (by cases h), fun h => (by cases h), fun _ => rfl⟩

variable {e : Execution P}

omit [LinearOrder P] in
lemma start (h : Drained e) : Drained { e with engine := e.engine.start } := by
  simp only [MatchingEngine.start]
  split_ifs with hs
  · exact h
  · exact ⟨h.flag, h.recorded, h.bound, fun hx => (by cases hx), fun hx => (by cases hx)⟩

omit [LinearOrder P] in
lemma stop (h : Drained e) : Drained e.stop := by
  simp only [Execution.stop, MatchingEngine.stop]
  split_ifs with hs
  · exact h
  · have hns : e.engine.stopped = false := by
      cases hst : e.engine.stopped with
      | false => rfl
      | true => simp [hst] at hs
    refine ⟨rfl, by simp, ?_, ?_, h.spawned⟩
    · intro n hn
      exact (Option.some.inj hn).ge
    · intro hx
      obtain ⟨n, hn, -⟩ := h.exited hx
      rw [h.recorded.mpr hns] at hn
      cases hn

/-- The thread exits on an empty queue only, after the flag went up. -/
lemma exit (h : Drained e) (ho : Ordered e) (hnil : e.engine.queue.queue = [])
    (hflag : e.engine.queue.shutdown = true) (hrun : e.engine.matchingThread = .running) :
    Drained e.exit := by
  have hst : e.engine.stopped = true := by rw [← h.flag, hflag]
  refine ⟨h.flag, h.recorded, h.bound, fun _ => ?_, fun hs => ?_⟩
  · cases hn : e.shutdownAt with
    | none =>
        rw [h.recorded.mp hn] at hst
        cases hst
    | some n =>
        have hle := h.bound n hn
        rw [ho.pushed, hnil, List.append_nil] at hle
        exact ⟨n, hn, hle⟩
  · rw [h.spawned hs] at hrun
    cases hrun

lemma step (h : Drained e) (ho : Ordered e) {ev : Event P} {e' : Execution P}
    (hs : e.step ev = some e') : Drained e' := by
  rcases Execution.step_cases hs with ⟨-, rfl⟩ | ⟨producer, r, -, -, rfl⟩ | ⟨-, rfl⟩ | ⟨-, rfl⟩
    | ⟨-, hrun, hnil, hflag, rfl⟩ | ⟨-, hrun, x, queue, hq, hflag, rfl⟩
  · exact ⟨h.flag, h.recorded, h.bound, h.exited, h.spawned⟩
  · refine ⟨h.flag, h.recorded, fun n hn => ?_, h.exited, h.spawned⟩
    have hle := h.bound n hn
    simp only [Execution.push, List.length_append]
    omega
  · exact h.start
  · exact h.stop
  · exact h.exit ho hnil hflag hrun
  · refine ⟨hflag.trans h.flag, h.recorded, h.bound, fun hx => ?_, h.spawned⟩
    simp only [Execution.process] at hx
    rw [hrun] at hx
    cases hx

end Drained

/-- The push an event makes. -/
def Event.pushed? : Event P → Option (ℕ × Request P)
  | .push producer request => some (producer, request)
  | _ => none

/-- What was pushed is what the producers' calls pushed, in the order of these steps. -/
lemma pushed_run {e e' : Execution P} {evs : List (Event P)}
    (h : Transitions.run Execution.step e evs = some e') :
    e'.pushed.map (fun x => (x.producer, x.request))
      = e.pushed.map (fun x => (x.producer, x.request)) ++ evs.filterMap Event.pushed? := by
  induction evs generalizing e with
  | nil =>
      obtain rfl := Option.some.inj h
      simp
  | cons ev evs ih =>
      obtain ⟨e₁, hs, hrun⟩ := Transitions.run_cons.mp h
      rw [ih hrun]
      rcases Execution.step_cases hs with ⟨rfl, rfl⟩ | ⟨producer, r, rfl, -, rfl⟩ | ⟨rfl, rfl⟩
        | ⟨rfl, rfl⟩ | ⟨rfl, -, -, -, rfl⟩ | ⟨rfl, -, x, queue, -, -, rfl⟩
      all_goals
        simp [List.filterMap_cons, Event.pushed?, Execution.push, Execution.stop, Execution.exit,
          Execution.process]

/-- **The engine is linearizable in push order.**  After any interleaving: the pushes are
those of the producers' calls, in the order in which these took the lock; the processed
requests are a prefix of them, and so, for each producer, of its own; every promise has been
fulfilled at most once, with the value, timestamps aside, that a plain book gives the request
after the requests pushed before it; the processed requests have their promises fulfilled;
and if the matching thread has exited, every request pushed before the shutdown flag was set
has been processed. -/
theorem linearizable (counter : UInt64) (evs : List (Event P)) (e : Execution P)
    (h : Transitions.run Execution.step (Execution.init counter) evs = some e) :
    e.pushed.map (fun x => (x.producer, x.request)) = evs.filterMap Event.pushed?
      ∧ e.processed <+: e.pushed
      ∧ (∀ producer, (e.processed.filter (·.producer = producer))
          <+: e.pushed.filter (·.producer = producer))
      ∧ (∀ (k : ℕ) (x : Posted P), e.pushed[k]? = some x → x.promise = k)
      ∧ (e.fulfilled.map Prod.fst).Nodup
      ∧ (∀ k v, (k, v) ∈ e.fulfilled → ∃ x : Posted P, e.processed[k]? = some x ∧ ∀ c,
          v.untimed = (plainAnswer c (e.pushed.take k) x.request).untimed)
      ∧ (∀ (k : ℕ) (x : Posted P), e.processed[k]? = some x → x.request.hasPromise = true →
          k ∈ e.fulfilled.map Prod.fst)
      ∧ (e.engine.matchingThread = .exited →
          ∃ n, e.shutdownAt = some n ∧ e.pushed.take n <+: e.processed) := by
  obtain ⟨ho, hd⟩ : Ordered e ∧ Drained e :=
    Transitions.run_invariant (fun e => Ordered e ∧ Drained e)
      (fun _ _ _ hi hs => ⟨hi.1.step hs, hi.2.step hi.1 hs⟩) h ⟨.init counter, .init counter⟩
  have hpre : e.processed <+: e.pushed := ho.pushed ▸ List.prefix_append _ _
  refine ⟨?_, hpre, fun _ => hpre.filter _, ho.promise, ho.once, ?_, ho.kept, ?_⟩
  · simpa [Execution.init] using pushed_run h
  · intro k v hkv
    obtain ⟨x, hx, hval⟩ := ho.value k v hkv
    have hkl := (List.getElem?_eq_some_iff.mp hx).1
    refine ⟨x, hx, ?_⟩
    rw [ho.pushed, List.take_append_of_le_length hkl.le]
    exact hval
  · intro hx
    obtain ⟨n, hn, hle⟩ := hd.exited hx
    refine ⟨n, hn, ?_⟩
    rw [ho.pushed, List.take_append_of_le_length hle]
    exact List.take_prefix _ _

/-- Two producers around `start` and `stop`: a bid queued before the engine runs, a sell that
trades with it, and a read. -/
def sampleEvents : List (Event ℤ) :=
  [.push 0 (.submit ⟨1, .buy, 100, 5, 0, .limit⟩), .start,
   .push 1 (.submit ⟨2, .sell, 99, 2, 1, .limit⟩), .turn, .push 0 .bestBid, .stop, .turn, .turn,
   .turn]

/-- All three are answered, and the thread has left with what was pushed in front of `stop`
processed. -/
theorem linearizable_sample :
    ∃ e, Transitions.run Execution.step (Execution.init 2) sampleEvents = some e
      ∧ e.engine.matchingThread = .exited
      ∧ e.fulfilled
        = [(0, .trades []), (1, .trades [⟨1, 2, 100, 2, 1⟩]), (2, .price (some 100))]
      ∧ ∃ n, e.shutdownAt = some n ∧ e.pushed.take n <+: e.processed := by
  have hrun : ∃ e ∈ Transitions.run Execution.step (Execution.init 2) sampleEvents,
      e.engine.matchingThread = .exited ∧ e.fulfilled
        = [(0, .trades []), (1, .trades [⟨1, 2, 100, 2, 1⟩]), (2, .price (some 100))] := by
    decide
  obtain ⟨e, he, hx, hf⟩ := hrun
  exact ⟨e, he, hx, hf, (linearizable 2 sampleEvents e he).2.2.2.2.2.2.2 hx⟩

end Leviathan
