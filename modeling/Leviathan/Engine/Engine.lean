import Leviathan.Foundations.Transitions
import Leviathan.Book.Calls

/-!
`include/thread_safe_queue.hpp`, `include/matching_engine.hpp` and
`src/matching_engine.cpp`: the queue, the engine, and the steps of its threads.

* **Queue.** `ThreadSafeQueue.push`, `pop` and `shutdown` are the critical sections of the
  source; `pop` is `none` while its predicate makes the caller wait.
* **Engine.** `processRequest` is the dispatch of one request, with the process-wide
  timestamp counter that `modifyOrder` draws from.
* **Execution.** The engine among its threads: any number of producers, the matching thread,
  and whoever calls `start` and `stop`.  `Execution.step` is one atomic step of one of them,
  and the other fields record what happened: the requests pushed, in the order in which they
  took the lock, those processed, the promises fulfilled, and how many requests had been
  pushed when the shutdown flag was set.
* The `join` at the end of `stop` changes no state: it holds its caller until the matching
  thread has exited, and is left out.
-/

namespace Leviathan

/-! ### The queue -/

/-- `ThreadSafeQueue`: `queue_` and `shutdown_`, as the lock protects them. -/
structure ThreadSafeQueue (T : Type*) where
  queue : List T
  shutdown : Bool
  deriving DecidableEq

namespace ThreadSafeQueue

variable {T : Type*}

/-- The queue as it is constructed, before any push or `shutdown`. -/
def empty : ThreadSafeQueue T := ⟨[], false⟩

/-- `push`, under its lock. -/
def push (q : ThreadSafeQueue T) (item : T) : ThreadSafeQueue T :=
  { q with queue := q.queue ++ [item] }

/-- `pop`, under its lock: `none` while it waits, `some none` for `nullopt`. -/
def pop (q : ThreadSafeQueue T) : Option (Option T × ThreadSafeQueue T) :=
  match q.queue with
  | [] => if q.shutdown then some (none, q) else none
  | item :: rest => some (some item, { q with queue := rest })

/-- `shutdown`, under its lock. -/
def signalShutdown (q : ThreadSafeQueue T) : ThreadSafeQueue T := { q with shutdown := true }

lemma pop_eq_some {q q' : ThreadSafeQueue T} {r : Option T} (h : q.pop = some (r, q')) :
    (r = none ∧ q' = q ∧ q.queue = [] ∧ q.shutdown = true)
      ∨ ∃ item, r = some item ∧ q.queue = item :: q'.queue ∧ q'.shutdown = q.shutdown := by
  obtain ⟨items, flag⟩ := q
  cases items with
  | nil =>
      cases flag with
      | false => cases h
      | true =>
          obtain ⟨rfl, rfl⟩ := Prod.mk.inj (Option.some.inj h)
          exact Or.inl ⟨rfl, rfl, rfl, rfl⟩
  | cons item rest =>
      obtain ⟨rfl, rfl⟩ := Prod.mk.inj (Option.some.inj h)
      exact Or.inr ⟨item, rfl, rfl, rfl⟩

lemma pop_eq_none {q : ThreadSafeQueue T} (h : q.pop = none) :
    q.queue = [] ∧ q.shutdown = false := by
  obtain ⟨items, flag⟩ := q
  cases items with
  | nil =>
      cases flag with
      | false => exact ⟨rfl, rfl⟩
      | true => cases h
  | cons item rest => cases h

end ThreadSafeQueue

/-! ### Requests -/

/-- `Request`, the seven kinds. -/
inductive Request (P : Type*) where
  | add (order : Order P)
  | cancel (orderId : UInt64)
  | submit (order : Order P)
  | modify (orderId : UInt64) (newPrice : P) (newQuantity : UInt64)
  | bestBid
  | bestAsk
  | totalOrderCount
  deriving DecidableEq

/-- The request carries a promise: all but `AddRequest`. -/
def Request.hasPromise {P : Type*} : Request P → Bool
  | .add _ => false
  | _ => true

/-- The request of a method that blocks its caller on the future. -/
def Request.blocks {P : Type*} : Request P → Bool
  | .bestBid | .bestAsk | .totalOrderCount => true
  | _ => false

/-- A request in the queue: the producer that pushed it, and the promise it carries, known by
its number among all pushes. -/
structure Posted (P : Type*) where
  producer : ℕ
  promise : ℕ
  request : Request P
  deriving DecidableEq

variable {P : Type*} [LinearOrder P]

/-- `MatchingEngine::processRequest_`: the value the promise is set to, the book, and the
counter. -/
def processRequest (book : OrderBook P) (counter : UInt64) :
    Request P → Option (Response P) × OrderBook P × UInt64
  | .add order => (none, addOrder book order, counter)
  | .cancel orderId =>
      let r := cancelOrder book orderId
      (some (.cancelled r.1), r.2, counter)
  | .submit order =>
      let r := submitOrder book order
      (some (.trades r.1), r.2, counter)
  | .modify orderId newPrice newQuantity =>
      let r := modifyOrder book counter orderId newPrice newQuantity
      (some (.modified r.1), r.2.1, r.2.2)
  | .bestBid => (some (.price (bestBid book)), book, counter)
  | .bestAsk => (some (.price (bestAsk book)), book, counter)
  | .totalOrderCount => (some (.count (totalOrderCount book)), book, counter)

/-! ### The engine -/

/-- The matching thread: not spawned, in `matchingLoop_`, or past it. -/
inductive MatchingThread where
  | idle | running | exited
  deriving DecidableEq, Repr

/-- `MatchingEngine`. -/
structure MatchingEngine (P : Type*) where
  book : OrderBook P
  queue : ThreadSafeQueue (Posted P)
  matchingThread : MatchingThread
  started : Bool
  stopped : Bool
  deriving DecidableEq

/-- `MatchingEngine::start`. -/
def MatchingEngine.start (m : MatchingEngine P) : MatchingEngine P :=
  if m.started then m else { m with started := true, matchingThread := .running }

/-- `MatchingEngine::stop`, up to the join. -/
def MatchingEngine.stop (m : MatchingEngine P) : MatchingEngine P :=
  if !m.started || m.stopped then m
  else { m with stopped := true, queue := m.queue.signalShutdown }

/-- The engine among its threads, and what has happened. -/
structure Execution (P : Type*) where
  engine : MatchingEngine P
  counter : UInt64
  pushed : List (Posted P)
  processed : List (Posted P)
  fulfilled : List (ℕ × Response P)
  shutdownAt : Option ℕ
  deriving DecidableEq

/-- A default-constructed engine and a counter. -/
def Execution.init (counter : UInt64) : Execution P where
  engine := ⟨OrderBook.empty, .empty, .idle, false, false⟩
  counter := counter
  pushed := []
  processed := []
  fulfilled := []
  shutdownAt := none

/-- An atomic step: a thread constructs an order, a producer's call pushes its request,
`start`, `stop`, a turn of `matchingLoop_`. -/
inductive Event (P : Type*) where
  | construct
  | push (producer : ℕ) (request : Request P)
  | start
  | stop
  | turn
  deriving DecidableEq

namespace Execution

/-- The producer waits on the future of a read. -/
def Blocked (e : Execution P) (producer : ℕ) : Prop :=
  ∃ x ∈ e.pushed, x.producer = producer ∧ x.request.blocks = true
    ∧ x.promise ∉ e.fulfilled.map Prod.fst

instance (e : Execution P) (producer : ℕ) : Decidable (e.Blocked producer) :=
  inferInstanceAs (Decidable (∃ x ∈ e.pushed, _))

/-- A producer's push. -/
def push (e : Execution P) (producer : ℕ) (request : Request P) : Execution P :=
  let x : Posted P := ⟨producer, e.pushed.length, request⟩
  { e with
    engine := { e.engine with queue := e.engine.queue.push x }
    pushed := e.pushed ++ [x] }

/-- A call of `stop`. -/
def stop (e : Execution P) : Execution P :=
  { e with
    engine := e.engine.stop
    shutdownAt :=
      if !e.engine.started || e.engine.stopped then e.shutdownAt else some e.pushed.length }

/-- The request `x` popped and processed, with `queue` left. -/
def process (e : Execution P) (x : Posted P) (queue : ThreadSafeQueue (Posted P)) :
    Execution P :=
  let r := processRequest e.engine.book e.counter x.request
  { e with
    engine := { e.engine with book := r.2.1, queue := queue }
    counter := r.2.2
    processed := e.processed ++ [x]
    fulfilled := e.fulfilled ++ (r.1.map fun v => (x.promise, v)).toList }

/-- The matching loop left. -/
def exit (e : Execution P) : Execution P :=
  { e with engine := { e.engine with matchingThread := .exited } }

/-- A step of one of the threads. -/
def step (e : Execution P) : Event P → Option (Execution P)
  | .construct => some { e with counter := (nextTimestamp e.counter).2 }
  | .push producer request => if e.Blocked producer then none else some (e.push producer request)
  | .start => some { e with engine := e.engine.start }
  | .stop => some e.stop
  | .turn =>
      if e.engine.matchingThread = .running then
        match e.engine.queue.pop with
        | none => none
        | some (none, _) => some e.exit
        | some (some x, queue) => some (e.process x queue)
      else none

/-- **What a step can do.** -/
lemma step_cases {e e' : Execution P} {ev : Event P} (h : e.step ev = some e') :
    (ev = .construct ∧ e' = { e with counter := (nextTimestamp e.counter).2 })
      ∨ (∃ producer request, ev = .push producer request ∧ ¬ e.Blocked producer
          ∧ e' = e.push producer request)
      ∨ (ev = .start ∧ e' = { e with engine := e.engine.start })
      ∨ (ev = .stop ∧ e' = e.stop)
      ∨ (ev = .turn ∧ e.engine.matchingThread = .running ∧ e.engine.queue.queue = []
          ∧ e.engine.queue.shutdown = true ∧ e' = e.exit)
      ∨ (ev = .turn ∧ e.engine.matchingThread = .running ∧ ∃ x queue,
          e.engine.queue.queue = x :: queue.queue
            ∧ queue.shutdown = e.engine.queue.shutdown ∧ e' = e.process x queue) := by
  cases ev with
  | construct => exact Or.inl ⟨rfl, (Option.some.inj h).symm⟩
  | push producer request =>
      rw [step] at h
      split_ifs at h with hb
      exact Or.inr (Or.inl ⟨producer, request, rfl, hb, (Option.some.inj h).symm⟩)
  | start => exact Or.inr (Or.inr (Or.inl ⟨rfl, (Option.some.inj h).symm⟩))
  | stop => exact Or.inr (Or.inr (Or.inr (Or.inl ⟨rfl, (Option.some.inj h).symm⟩)))
  | turn =>
      rw [step] at h
      split_ifs at h with hrun
      split at h
      · cases h
      · rename_i q hpop
        rcases ThreadSafeQueue.pop_eq_some hpop with ⟨-, -, hnil, hflag⟩ | ⟨item, hitem, -⟩
        · exact Or.inr (Or.inr (Or.inr (Or.inr (Or.inl
            ⟨rfl, hrun, hnil, hflag, (Option.some.inj h).symm⟩))))
        · cases hitem
      · rename_i x queue hpop
        rcases ThreadSafeQueue.pop_eq_some hpop with ⟨hnone, -⟩ | ⟨item, hitem, hq, hflag⟩
        · cases hnone
        · obtain rfl := Option.some.inj hitem
          exact Or.inr (Or.inr (Or.inr (Or.inr (Or.inr
            ⟨rfl, hrun, x, queue, hq, hflag, (Option.some.inj h).symm⟩))))

end Execution

end Leviathan
