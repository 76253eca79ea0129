import Leviathan.Engine.Linearizable
import Leviathan.Engine.WakeUps

/-!
The engine at the grain of its threads, and `Execution` as its abstraction.

`Execution` lets the matching thread pop and process a request in one step, and `stop` set both
flags in one.  `Threads` takes them apart, with the condition variable of `WakeUps`:

* `push` is a critical section, then a `notify_one`.
* `stop` is `stopped_` set, then the critical section of `shutdown`, then its `notify_all`, then
  the join, which waits for the matching thread to exit.
* The matching thread tests the predicate of `pop` under the lock: it falls asleep, leaves its
  loop, or holds a request, which it processes in a step of its own; meanwhile other threads go
  on.

`started_` and `stopped_` are no atomics: a call of `start` or `stop` begins while no other
thread is inside one.  `Threads.refines` maps every interleaving to one of `Execution` with the
same pushes.
-/

namespace Leviathan

/-! ### A turn of the abstract loop -/

namespace Execution

variable {P : Type*} [LinearOrder P] {e : Execution P}

lemma step_turn_exit {queue : ThreadSafeQueue (Posted P)}
    (hrun : e.engine.matchingThread = .running)
    (hpop : e.engine.queue.pop = some (none, queue)) : e.step .turn = some e.exit := by
  rw [step, if_pos hrun, hpop]

lemma step_turn_process {x : Posted P} {queue : ThreadSafeQueue (Posted P)}
    (hrun : e.engine.matchingThread = .running)
    (hpop : e.engine.queue.pop = some (some x, queue)) :
    e.step .turn = some (e.process x queue) := by
  rw [step, if_pos hrun, hpop]

end Execution

/-! ### The threads -/

/-- Where the call of `stop` is, if a thread is inside one: past `stopped_ = true`, or past the
critical section of `shutdown`. -/
inductive StopCall where
  | outside
  | flagged (thread : ℕ)
  | signalled (thread : ℕ)
  deriving DecidableEq, Repr

/-- The thread inside `stop`. -/
def StopCall.thread? : StopCall → Option ℕ
  | .outside => none
  | .flagged i => some i
  | .signalled i => some i

/-- The engine, the threads around its queue, and what has happened.  `matching` is the number
of the matching thread and `inHand` the request it has popped. -/
structure Threads (P : Type*) where
  book : OrderBook P
  counter : UInt64
  waiters : Waiters (Posted P)
  matching : Option ℕ
  inHand : Option (Posted P)
  exited : Bool
  started : Bool
  stopped : Bool
  stopCall : StopCall
  pushed : List (Posted P)
  processed : List (Posted P)
  fulfilled : List (ℕ × Response P)
  shutdownAt : Option ℕ
  deriving DecidableEq

/-! ### Who waits at the queue -/

namespace Waiters

variable {T : Type*}

/-- The thread is inside the wait of its `pop`. -/
def Waiting (w : Waiters T) (i : ℕ) : Prop :=
  w.threads[i]? = some .asleep ∨ w.threads[i]? = some .woken

lemma waiting_move {w : Waiters T} {i j : ℕ} {p : Phase} (hp : p ≠ .asleep) (hp' : p ≠ .woken)
    (h : (w.move j p).Waiting i) : w.Waiting i := by
  simp only [Waiting, move, List.getElem?_set] at h
  split_ifs at h
  · simp [hp, hp'] at h
  · simp at h
  · exact h

/-- A thread begins to wait in a test of its own. -/
lemma waiting_step {w w' : Waiters T} {ev : Event T} (h : w.step ev = some w') {i : ℕ}
    (hi : w'.Waiting i) : w.Waiting i ∨ ev = .test i := by
  rcases step_cases h with ⟨-, rfl⟩ | ⟨j, item, -, -, rfl⟩ | ⟨j, -, -, -, rfl⟩
    | ⟨j, k, -, -, hk, rfl⟩ | ⟨j, -, -, rfl⟩ | ⟨j, -, -, rfl⟩ | ⟨j, p, rfl, hj, -, rfl⟩
    | ⟨j, -, hj, rfl⟩
  · refine Or.inl ?_
    simp only [Waiting, List.getElem?_append] at hi
    split_ifs at hi
    · exact hi
    · rcases hi with hi | hi <;> cases (List.mem_singleton.mp (List.mem_of_getElem? hi))
  · exact Or.inl (waiting_move (by decide) (by decide) hi)
  · exact Or.inl (waiting_move (by decide) (by decide) hi)
  · by_cases hik : k = i
    · exact Or.inl (Or.inl (hik ▸ hk))
    · refine Or.inl (waiting_move (p := .idle) (j := j) (by decide) (by decide) ?_)
      simpa only [Waiting, move, List.getElem?_set_ne hik] using hi
  · exact Or.inl (waiting_move (by decide) (by decide) hi)
  · refine Or.inl (waiting_move (p := .idle) (j := j) (by decide) (by decide) ?_)
    simp only [Waiting, wakeAll, List.getElem?_map, Option.map_eq_some_iff] at hi ⊢
    rcases hi with ⟨p, hp, hpi⟩ | ⟨p, hp, hpi⟩
    · split_ifs at hpi
      exact Or.inl (hpi ▸ hp)
    · split_ifs at hpi with hs
      · exact Or.inl (hs ▸ hp)
      · exact Or.inr (hpi ▸ hp)
  · by_cases hij : j = i
    · exact Or.inr (hij ▸ rfl)
    · refine Or.inl ?_
      rw [Waiters.test] at hi
      split at hi
      · simpa only [Waiting, move, List.getElem?_set_ne hij] using hi
      · simpa only [Waiting, move, List.getElem?_set_ne hij] using hi
  · by_cases hij : j = i
    · exact Or.inl (Or.inl (hij ▸ hj))
    · exact Or.inl (by simpa only [Waiting, move, List.getElem?_set_ne hij] using hi)

lemma length_le_step {w w' : Waiters T} {ev : Event T} (h : w.step ev = some w') :
    w.threads.length ≤ w'.threads.length := by
  rcases step_cases h with ⟨-, rfl⟩ | ⟨j, item, -, -, rfl⟩ | ⟨j, -, -, -, rfl⟩
    | ⟨j, k, -, -, -, rfl⟩ | ⟨j, -, -, rfl⟩ | ⟨j, -, -, rfl⟩ | ⟨j, p, -, -, -, rfl⟩
    | ⟨j, -, -, rfl⟩
  case inr.inr.inr.inr.inr.inr.inl => rw [test]; split <;> simp [move]
  all_goals simp [move, wakeAll]

lemma shared_enqueue {w w' : Waiters T} {i : ℕ} {item : T}
    (h : w.step (.enqueue i item) = some w') : w'.shared = w.shared.push item := by
  rw [step] at h
  split_ifs at h
  rw [← Option.some.inj h]

lemma shared_signal {w w' : Waiters T} {i : ℕ} (h : w.step (.signal i) = some w') :
    w'.shared = w.shared.signalShutdown := by
  rw [step] at h
  split_ifs at h
  rw [← Option.some.inj h]

end Waiters

namespace Threads

/-- An atomic step of a thread, known by its number. -/
inductive Event (P : Type*) where
  | construct
  | spawn
  | push (thread : ℕ) (request : Request P)
  | notifyOne (thread : ℕ) (sleeper : Option ℕ)
  | start (thread : ℕ)
  | stop (thread : ℕ)
  | shutdown (thread : ℕ)
  | notifyAll (thread : ℕ)
  | join (thread : ℕ)
  | test
  | process
  | spurious (thread : ℕ)
  deriving DecidableEq

variable {P : Type*} [LinearOrder P]

/-- A default-constructed engine, a counter, and no thread. -/
def init (counter : UInt64) : Threads P where
  book := OrderBook.empty
  counter := counter
  waiters := .init
  matching := none
  inHand := none
  exited := false
  started := false
  stopped := false
  stopCall := .outside
  pushed := []
  processed := []
  fulfilled := []
  shutdownAt := none

/-- The thread waits on the future of a read. -/
def Blocked (t : Threads P) (thread : ℕ) : Prop :=
  ∃ x ∈ t.pushed, x.producer = thread ∧ x.request.blocks = true
    ∧ x.promise ∉ t.fulfilled.map Prod.fst

instance (t : Threads P) (thread : ℕ) : Decidable (t.Blocked thread) :=
  inferInstanceAs (Decidable (∃ x ∈ t.pushed, _))

/-- The thread is inside no call, and may begin one. -/
def Free (t : Threads P) (thread : ℕ) : Prop :=
  t.matching ≠ some thread ∧ t.stopCall.thread? ≠ some thread ∧ ¬ t.Blocked thread

instance (t : Threads P) (thread : ℕ) : Decidable (t.Free thread) :=
  inferInstanceAs (Decidable (_ ∧ _ ∧ _))

/-- `start`: the matching thread spawned. -/
def start (t : Threads P) : Threads P :=
  if t.started then t
  else
    { t with
      started := true
      matching := some t.waiters.threads.length
      waiters := { t.waiters with threads := t.waiters.threads ++ [.idle] } }

/-- The first lines of `stop`. -/
def stop (t : Threads P) (thread : ℕ) : Threads P :=
  if !t.started || t.stopped then t else { t with stopped := true, stopCall := .flagged thread }

/-- What the matching thread has after its test: a request, or no more loop, or neither. -/
def received (t : Threads P) (waiters : Waiters (Posted P)) : Threads P :=
  { t with
    waiters := waiters
    inHand := t.waiters.shared.pop.bind Prod.fst
    exited := (t.waiters.shared.pop.map fun r => r.1.isNone).getD false }

/-- The request in hand processed. -/
def process (t : Threads P) (x : Posted P) : Threads P :=
  let r := processRequest t.book t.counter x.request
  { t with
    book := r.2.1
    counter := r.2.2
    inHand := none
    processed := t.processed ++ [x]
    fulfilled := t.fulfilled ++ (r.1.map fun v => (x.promise, v)).toList }

/-- A step of one of the threads. -/
def step (t : Threads P) : Event P → Option (Threads P)
  | .construct => some { t with counter := (nextTimestamp t.counter).2 }
  | .spawn => (t.waiters.step .spawn).map fun w => { t with waiters := w }
  | .push i request =>
      if t.Free i then
        let x : Posted P := ⟨i, t.pushed.length, request⟩
        (t.waiters.step (.enqueue i x)).map fun w =>
          { t with waiters := w, pushed := t.pushed ++ [x] }
      else none
  | .notifyOne i sleeper =>
      (t.waiters.step (.notifyOne i sleeper)).map fun w => { t with waiters := w }
  | .start i =>
      if t.Free i ∧ t.waiters.threads[i]? = some .idle ∧ t.stopCall = .outside then some t.start
      else none
  | .stop i =>
      if t.Free i ∧ t.waiters.threads[i]? = some .idle ∧ t.stopCall = .outside then
        some (t.stop i)
      else none
  | .shutdown i =>
      if t.stopCall = .flagged i then
        (t.waiters.step (.signal i)).map fun w =>
          { t with waiters := w, stopCall := .signalled i, shutdownAt := some t.pushed.length }
      else none
  | .notifyAll i => (t.waiters.step (.notifyAll i)).map fun w => { t with waiters := w }
  | .join i =>
      if t.stopCall = .signalled i ∧ t.waiters.threads[i]? = some .idle ∧ t.exited = true then
        some { t with stopCall := .outside }
      else none
  | .test =>
      if t.inHand = none ∧ t.exited = false then
        t.matching.bind fun m => (t.waiters.step (.test m)).map t.received
      else none
  | .process => t.inHand.map t.process
  | .spurious i => (t.waiters.step (.spurious i)).map fun w => { t with waiters := w }

/-- The step of the queue's threads that an event is, where it is no more than that. -/
def Event.waiters? : Event P → Option (Waiters.Event (Posted P))
  | .spawn => some .spawn
  | .notifyOne i sleeper => some (.notifyOne i sleeper)
  | .notifyAll i => some (.notifyAll i)
  | .spurious i => some (.spurious i)
  | _ => none

/-- **What a step can do.** -/
lemma step_cases {t t' : Threads P} {ev : Event P} (h : t.step ev = some t') :
    (ev = .construct ∧ t' = { t with counter := (nextTimestamp t.counter).2 })
      ∨ (∃ wev w, ev.waiters? = some wev ∧ t.waiters.step wev = some w
          ∧ t' = { t with waiters := w })
      ∨ (∃ i request w, ev = .push i request ∧ t.Free i
          ∧ t.waiters.step (.enqueue i ⟨i, t.pushed.length, request⟩) = some w
          ∧ t' = { t with waiters := w, pushed := t.pushed ++ [⟨i, t.pushed.length, request⟩] })
      ∨ (∃ i, ev = .start i ∧ t' = t.start)
      ∨ (∃ i, ev = .stop i ∧ t.Free i ∧ t.waiters.threads[i]? = some .idle
          ∧ t.stopCall = .outside ∧ t' = t.stop i)
      ∨ (∃ i w, ev = .shutdown i ∧ t.stopCall = .flagged i
          ∧ t.waiters.step (.signal i) = some w
          ∧ t' = { t with
              waiters := w, stopCall := .signalled i, shutdownAt := some t.pushed.length })
      ∨ (∃ i, ev = .join i ∧ t.stopCall = .signalled i ∧ t.exited = true
          ∧ t' = { t with stopCall := .outside })
      ∨ (∃ m w, ev = .test ∧ t.inHand = none ∧ t.exited = false ∧ t.matching = some m
          ∧ t.waiters.step (.test m) = some w ∧ t' = t.received w)
      ∨ (∃ x, ev = .process ∧ t.inHand = some x ∧ t' = t.process x) := by
  have hwaiters : ∀ wev : Waiters.Event (Posted P),
      (t.waiters.step wev).map (fun w => { t with waiters := w }) = some t' →
        ∃ w, t.waiters.step wev = some w ∧ t' = { t with waiters := w } := by
    intro wev hmap
    obtain ⟨w, hw, ht⟩ := Option.map_eq_some_iff.mp hmap
    exact ⟨w, hw, ht.symm⟩
  cases ev with
  | construct => exact Or.inl ⟨rfl, (Option.some.inj h).symm⟩
  | spawn =>
      obtain ⟨w, hw, rfl⟩ := hwaiters .spawn h
      exact Or.inr (Or.inl ⟨_, w, rfl, hw, rfl⟩)
  | push i request =>
      rw [step] at h
      split_ifs at h with hfree
      obtain ⟨w, hw, rfl⟩ := Option.map_eq_some_iff.mp h
      exact Or.inr (Or.inr (Or.inl ⟨i, request, w, rfl, hfree, hw, rfl⟩))
  | notifyOne i sleeper =>
      obtain ⟨w, hw, rfl⟩ := hwaiters (.notifyOne i sleeper) h
      exact Or.inr (Or.inl ⟨_, w, rfl, hw, rfl⟩)
  | start i =>
      rw [step] at h
      split_ifs at h
      exact Or.inr (Or.inr (Or.inr (Or.inl ⟨i, rfl, (Option.some.inj h).symm⟩)))
  | stop i =>
      rw [step] at h
      split_ifs at h with hfree
      exact Or.inr (Or.inr (Or.inr (Or.inr (Or.inl
        ⟨i, rfl, hfree.1, hfree.2.1, hfree.2.2, (Option.some.inj h).symm⟩))))
  | shutdown i =>
      rw [step] at h
      split_ifs at h with hcall
      obtain ⟨w, hw, rfl⟩ := Option.map_eq_some_iff.mp h
      exact Or.inr (Or.inr (Or.inr (Or.inr (Or.inr (Or.inl ⟨i, w, rfl, hcall, hw, rfl⟩)))))
  | notifyAll i =>
      obtain ⟨w, hw, rfl⟩ := hwaiters (.notifyAll i) h
      exact Or.inr (Or.inl ⟨_, w, rfl, hw, rfl⟩)
  | join i =>
      rw [step] at h
      split_ifs at h with hcall
      exact Or.inr (Or.inr (Or.inr (Or.inr (Or.inr (Or.inr (Or.inl
        ⟨i, rfl, hcall.1, hcall.2.2, (Option.some.inj h).symm⟩))))))
  | test =>
      rw [step] at h
      split_ifs at h with hready
      obtain ⟨m, hm, h⟩ := Option.bind_eq_some_iff.mp h
      obtain ⟨w, hw, rfl⟩ := Option.map_eq_some_iff.mp h
      exact Or.inr (Or.inr (Or.inr (Or.inr (Or.inr (Or.inr (Or.inr (Or.inl
        ⟨m, w, rfl, hready.1, hready.2, hm, hw, rfl⟩)))))))
  | process =>
      obtain ⟨x, hx, rfl⟩ := Option.map_eq_some_iff.mp h
      exact Or.inr (Or.inr (Or.inr (Or.inr (Or.inr (Or.inr (Or.inr (Or.inr
        ⟨x, rfl, hx, rfl⟩)))))))
  | spurious i =>
      obtain ⟨w, hw, rfl⟩ := hwaiters (.spurious i) h
      exact Or.inr (Or.inl ⟨_, w, rfl, hw, rfl⟩)

omit [LinearOrder P] in
/-- Such a step leaves the shared queue alone. -/
lemma shared_of_waiters? {ev : Event P} {wev : Waiters.Event (Posted P)}
    {w w' : Waiters (Posted P)} (hev : ev.waiters? = some wev) (h : w.step wev = some w') :
    w'.shared = w.shared := by
  rcases Waiters.step_cases h with ⟨-, rfl⟩ | ⟨i, item, rfl, -, rfl⟩ | ⟨i, -, -, -, rfl⟩
    | ⟨i, j, -, -, -, rfl⟩ | ⟨i, rfl, -, rfl⟩ | ⟨i, -, -, rfl⟩ | ⟨i, p, rfl, -, -, rfl⟩
    | ⟨i, -, -, rfl⟩
  · rfl
  · cases ev <;> cases hev
  · rfl
  · rfl
  · cases ev <;> cases hev
  · rfl
  · cases ev <;> cases hev
  · rfl

/-! ### The test of the matching thread -/

omit [LinearOrder P] in
/-- **What the test finds**: nothing, and the thread falls asleep; the queue shut down and empty,
and the thread leaves its loop; a request, which it has in hand. -/
lemma received_cases {t : Threads P} {m : ℕ} {w : Waiters (Posted P)}
    (hin : t.inHand = none) (hexit : t.exited = false) (h : t.waiters.step (.test m) = some w) :
    (t.waiters.shared.queue = [] ∧ t.waiters.shared.shutdown = false
        ∧ w = t.waiters.move m .asleep ∧ t.received w = { t with waiters := w })
      ∨ (t.waiters.shared.queue = [] ∧ t.waiters.shared.shutdown = true
        ∧ w.shared = t.waiters.shared ∧ w.threads = t.waiters.threads.set m .idle
        ∧ t.received w = { t with waiters := w, exited := true })
      ∨ (∃ x, t.waiters.shared.queue = x :: w.shared.queue
        ∧ w.shared.shutdown = t.waiters.shared.shutdown
        ∧ w.threads = t.waiters.threads.set m .idle
        ∧ t.received w = { t with waiters := w, inHand := some x }) := by
  have hw : w = t.waiters.test m := by
    rw [Waiters.step] at h
    split_ifs at h
    exact (Option.some.inj h).symm
  rw [Waiters.test] at hw
  cases hpop : t.waiters.shared.pop with
  | none =>
      obtain ⟨hnil, hflag⟩ := ThreadSafeQueue.pop_eq_none hpop
      rw [hpop] at hw
      refine Or.inl ⟨hnil, hflag, hw, ?_⟩
      simp [received, hpop, ← hin, ← hexit]
  | some r =>
      obtain ⟨r, shared⟩ := r
      rw [hpop] at hw
      subst hw
      rcases ThreadSafeQueue.pop_eq_some hpop with ⟨rfl, rfl, hnil, hflag⟩ | ⟨x, rfl, hq, hflag⟩
      · refine Or.inr (Or.inl ⟨hnil, hflag, rfl, rfl, ?_⟩)
        simp [received, hpop, ← hin]
      · refine Or.inr (Or.inr ⟨x, hq, hflag, rfl, ?_⟩)
        simp [received, hpop, ← hexit]

/-! ### What the threads amount to -/

/-- The execution that the threads amount to: a request in hand is still at the front of the
queue, and `stop` takes place in the critical section of `shutdown`. -/
def abs (t : Threads P) : Execution P where
  engine :=
    { book := t.book
      queue := ⟨t.inHand.toList ++ t.waiters.shared.queue, t.waiters.shared.shutdown⟩
      matchingThread := if t.exited then .exited else if t.started then .running else .idle
      started := t.started
      stopped := t.waiters.shared.shutdown }
  counter := t.counter
  pushed := t.pushed
  processed := t.processed
  fulfilled := t.fulfilled
  shutdownAt := t.shutdownAt

/-! ### The invariant -/

/-- Who waits, what the matching thread has, and how far `stop` is, against the flags. -/
structure Sound (t : Threads P) : Prop where
  attended : Waiters.Attended t.waiters
  waiting : ∀ i, t.waiters.Waiting i →
    t.matching = some i ∧ t.inHand = none ∧ t.exited = false
  spawned : t.started = t.matching.isSome
  matching : ∀ m, t.matching = some m → m < t.waiters.threads.length
  hand : t.inHand ≠ none → t.started = true ∧ t.exited = false
  exited : t.exited = true → t.started = true ∧ t.waiters.shared.shutdown = true
  caller : ∀ i, t.stopCall.thread? = some i →
    i < t.waiters.threads.length ∧ t.matching ≠ some i
  stopped : t.stopped = true → t.started = true
  inside : t.stopCall ≠ .outside → t.stopped = true
  shutdown : t.waiters.shared.shutdown = true
    ↔ t.stopped = true ∧ ∀ i, t.stopCall ≠ .flagged i

namespace Sound

omit [LinearOrder P] in
lemma init (counter : UInt64) : Sound (init counter : Threads P) where
  attended := .init
  waiting := fun i h => by simp [Waiters.Waiting, Threads.init, Waiters.init] at h
  spawned := rfl
  matching := fun m h => (by cases h)
  hand := fun h => (h rfl).elim
  exited := fun h => (by cases h)
  caller := fun i h => (by cases h)
  stopped := fun h => (by cases h)
  inside := fun h => (h rfl).elim
  shutdown := iff_of_false (fun h => (by cases h)) fun h => (by cases h.1)

variable {t : Threads P} {w : Waiters (Posted P)} {wev : Waiters.Event (Posted P)}

omit [LinearOrder P] in
/-- A step of the queue's threads that leaves the flag alone and is no test. -/
lemma waiters (h : Sound t) (hw : t.waiters.step wev = some w) (htest : ∀ i, wev ≠ .test i)
    (hflag : w.shared.shutdown = t.waiters.shared.shutdown) (pushed : List (Posted P)) :
    Sound { t with waiters := w, pushed := pushed } where
  attended := h.attended.step hw
  waiting := fun i hi => h.waiting i ((Waiters.waiting_step hw hi).resolve_right (htest i))
  spawned := h.spawned
  matching := fun m hm => (h.matching m hm).trans_le (Waiters.length_le_step hw)
  hand := h.hand
  exited := fun hx => ⟨(h.exited hx).1, hflag.trans (h.exited hx).2⟩
  caller := fun i hi =>
    ⟨(h.caller i hi).1.trans_le (Waiters.length_le_step hw), (h.caller i hi).2⟩
  stopped := h.stopped
  inside := h.inside
  shutdown := by
    simp only [hflag]
    exact h.shutdown

omit [LinearOrder P] in
lemma start (h : Sound t) : Sound t.start := by
  rw [Threads.start]
  split_ifs with hs
  · exact h
  · have hspawn : t.waiters.step .spawn
        = some { t.waiters with threads := t.waiters.threads ++ [.idle] } := rfl
    have hnone : t.matching = none := by
      refine Option.not_isSome_iff_eq_none.mp ?_
      rw [← h.spawned]
      exact hs
    have hwaiting : ∀ i, ¬ t.waiters.Waiting i := by
      intro i hi
      have hm := (h.waiting i hi).1
      rw [hnone] at hm
      cases hm
    have hold := h.waiters hspawn (fun i hi => (by cases hi)) rfl t.pushed
    refine ⟨hold.attended, fun i hi => ?_, rfl, fun m hm => ?_, fun hx => ⟨rfl, (h.hand hx).2⟩,
      fun hx => ⟨rfl, (h.exited hx).2⟩, fun i hi => ⟨(hold.caller i hi).1, fun hm => ?_⟩,
      fun _ => rfl, h.inside, h.shutdown⟩
    · rcases Waiters.waiting_step hspawn hi with hi | hi
      · exact (hwaiting i hi).elim
      · cases hi
    · obtain rfl := Option.some.inj hm
      simp
    · have hlt := (h.caller i hi).1
      rw [← Option.some.inj hm] at hlt
      exact lt_irrefl _ hlt

omit [LinearOrder P] in
lemma stop (h : Sound t) {i : ℕ} (hfree : t.Free i) (hi : t.waiters.threads[i]? = some .idle) :
    Sound (t.stop i) := by
  rw [Threads.stop]
  split_ifs with hs
  · exact h
  · have hst : t.started = true ∧ t.stopped = false := by simpa using hs
    have hflag : t.waiters.shared.shutdown ≠ true := by
      intro hf
      have hstop := (h.shutdown.mp hf).1
      rw [hst.2] at hstop
      cases hstop
    refine ⟨h.attended, h.waiting, h.spawned, h.matching, h.hand, h.exited, fun j hj => ?_,
      fun _ => hst.1, fun _ => rfl, iff_of_false hflag fun hn => hn.2 i rfl⟩
    obtain rfl := Option.some.inj hj
    exact ⟨(List.getElem?_eq_some_iff.mp hi).1, hfree.1⟩

omit [LinearOrder P] in
lemma signal (h : Sound t) {i : ℕ} (hcall : t.stopCall = .flagged i)
    (hw : t.waiters.step (.signal i) = some w) (n : Option ℕ) :
    Sound { t with waiters := w, stopCall := .signalled i, shutdownAt := n } := by
  have hstop : t.stopped = true := h.inside (by rw [hcall]; exact StopCall.noConfusion)
  have hflag : w.shared.shutdown = true := by
    rw [Waiters.shared_signal hw]
    rfl
  have hlen := Waiters.length_le_step hw
  refine ⟨h.attended.step hw,
    fun j hj => h.waiting j ((Waiters.waiting_step hw hj).resolve_right (fun hn => by cases hn)),
    h.spawned, fun m hm => (h.matching m hm).trans_le hlen, h.hand,
    fun hx => ⟨(h.exited hx).1, hflag⟩, fun j hj => ?_, h.stopped, fun _ => hstop,
    iff_of_true hflag ⟨hstop, fun j hj => by cases hj⟩⟩
  obtain rfl := Option.some.inj hj
  have hcaller := h.caller i (by rw [hcall]; rfl)
  exact ⟨hcaller.1.trans_le hlen, hcaller.2⟩

omit [LinearOrder P] in
lemma join (h : Sound t) {i : ℕ} (hcall : t.stopCall = .signalled i) :
    Sound { t with stopCall := .outside } := by
  have hstop : t.stopped = true := h.inside (by rw [hcall]; exact StopCall.noConfusion)
  have hflag : t.waiters.shared.shutdown = true :=
    h.shutdown.mpr ⟨hstop, fun j hj => by rw [hcall] at hj; cases hj⟩
  exact ⟨h.attended, h.waiting, h.spawned, h.matching, h.hand, h.exited, fun j hj => (by cases hj),
    h.stopped, fun _ => hstop, iff_of_true hflag ⟨hstop, fun j hj => (by cases hj)⟩⟩

omit [LinearOrder P] in
/-- The test of the matching thread: only when it falls asleep does it wait. -/
lemma received (h : Sound t) {m : ℕ} (hin : t.inHand = none) (hexit : t.exited = false)
    (hm : t.matching = some m) (hw : t.waiters.step (.test m) = some w) :
    Sound (t.received w) := by
  have hstarted : t.started = true := by rw [h.spawned, hm]; rfl
  have hlen := Waiters.length_le_step hw
  have hwait : ∀ i, w.Waiting i → i = m := by
    intro i hi
    rcases Waiters.waiting_step hw hi with hi | hi
    · exact Option.some.inj ((h.waiting i hi).1.symm.trans hm)
    · cases hi
      rfl
  have hawake : w.threads = t.waiters.threads.set m .idle → ∀ i, ¬ w.Waiting i := by
    intro hthreads i hi
    obtain rfl := hwait i hi
    simp only [Waiters.Waiting, hthreads, List.getElem?_set, if_true] at hi
    split_ifs at hi
    · simp at hi
    · simp at hi
  have hmatching : ∀ m, t.matching = some m → m < w.threads.length :=
    fun m hm => (h.matching m hm).trans_le hlen
  have hcaller : ∀ i, t.stopCall.thread? = some i →
      i < w.threads.length ∧ t.matching ≠ some i :=
    fun i hi => ⟨(h.caller i hi).1.trans_le hlen, (h.caller i hi).2⟩
  rcases received_cases hin hexit hw with ⟨-, -, hmove, heq⟩ | ⟨-, hflag, hshared, hthreads, heq⟩
    | ⟨x, -, hflag, hthreads, heq⟩
  · rw [heq]
    refine ⟨h.attended.step hw, fun i hi => ?_, h.spawned, hmatching, h.hand, fun hx => ?_, hcaller,
      h.stopped, h.inside, ?_⟩
    · obtain rfl := hwait i hi
      exact ⟨hm, hin, hexit⟩
    · rw [hexit] at hx
      cases hx
    · rw [hmove]
      exact h.shutdown
  · rw [heq]
    refine ⟨h.attended.step hw, fun i hi => (hawake hthreads i hi).elim, h.spawned, hmatching,
      fun hx => (hx hin).elim, fun _ => ⟨hstarted, by rw [hshared, hflag]⟩, hcaller, h.stopped,
      h.inside, ?_⟩
    rw [hshared]
    exact h.shutdown
  · rw [heq]
    refine ⟨h.attended.step hw, fun i hi => (hawake hthreads i hi).elim, h.spawned, hmatching,
      fun _ => ⟨hstarted, hexit⟩, fun hx => ?_, hcaller, h.stopped, h.inside, ?_⟩
    · rw [hexit] at hx
      cases hx
    · rw [hflag]
      exact h.shutdown

/-- The request in hand processed: the matching thread is at its loop again. -/
lemma process (h : Sound t) {x : Posted P} : Sound (t.process x) :=
  ⟨h.attended, fun i hi => ⟨(h.waiting i hi).1, rfl, (h.waiting i hi).2.2⟩, h.spawned, h.matching,
    fun hx => (hx rfl).elim, h.exited, h.caller, h.stopped, h.inside, h.shutdown⟩

/-- **Every step keeps the invariant.** -/
lemma step (h : Sound t) {ev : Event P} {t' : Threads P} (hs : t.step ev = some t') :
    Sound t' := by
  rcases step_cases hs with ⟨-, rfl⟩ | ⟨wev, w, hev, hw, rfl⟩ | ⟨i, request, w, -, hfree, hw, rfl⟩
    | ⟨i, -, rfl⟩ | ⟨i, -, hfree, hi, -, rfl⟩ | ⟨i, w, -, hcall, hw, rfl⟩
    | ⟨i, -, hcall, -, rfl⟩ | ⟨m, w, -, hin, hexit, hm, hw, rfl⟩ | ⟨x, -, -, rfl⟩
  · exact ⟨h.attended, h.waiting, h.spawned, h.matching, h.hand, h.exited, h.caller, h.stopped,
      h.inside, h.shutdown⟩
  · refine h.waiters hw ?_ (by rw [shared_of_waiters? hev hw]) t.pushed
    rintro i rfl
    cases ev <;> cases hev
  · refine h.waiters hw (fun j hj => by cases hj) ?_ _
    rw [Waiters.shared_enqueue hw]
    rfl
  · exact h.start
  · exact h.stop hfree hi
  · exact h.signal hcall hw _
  · exact h.join hcall
  · exact h.received hin hexit hm hw
  · exact h.process

end Sound

/-! ### Refinement -/

/-- The push an event makes. -/
def Event.pushed? : Event P → Option (ℕ × Request P)
  | .push i request => some (i, request)
  | _ => none

omit [LinearOrder P] in
lemma abs_running {t : Threads P} (hstarted : t.started = true) (hexit : t.exited = false) :
    t.abs.engine.matchingThread = .running := by
  simp [abs, hexit, hstarted]

/-- The test of the matching thread is a turn where it leaves its loop; a request that it takes in
hand is still queued in what the threads amount to. -/
lemma Sound.abs_received {t : Threads P} {w : Waiters (Posted P)} {m : ℕ} (h : Sound t)
    (hin : t.inHand = none) (hexit : t.exited = false) (hm : t.matching = some m)
    (hw : t.waiters.step (.test m) = some w) :
    ∃ evs, Transitions.run Execution.step t.abs evs = some (t.received w).abs
      ∧ evs.filterMap Leviathan.Event.pushed? = [] := by
  have hstarted : t.started = true := by rw [h.spawned, hm]; rfl
  rcases received_cases hin hexit hw with ⟨-, -, rfl, heq⟩ | ⟨hnil, hflag, hshared, -, heq⟩
    | ⟨x, hq, hflag, -, heq⟩
  · exact ⟨[], by rw [heq]; rfl, rfl⟩
  · refine ⟨[.turn], ?_, rfl⟩
    have hpop : t.abs.engine.queue.pop = some (none, t.abs.engine.queue) := by
      simp [abs, hin, hnil, hflag, ThreadSafeQueue.pop]
    refine Transitions.run_cons.mpr
      ⟨_, Execution.step_turn_exit (abs_running hstarted hexit) hpop, congrArg some ?_⟩
    rw [heq]
    simp [Execution.exit, abs, hshared]
  · refine ⟨[], ?_, rfl⟩
    rw [heq]
    simp [Transitions.run, abs, hin, hq, hflag]

/-- Processing the request in hand is the turn that pops it. -/
lemma Sound.abs_process {t : Threads P} {x : Posted P} (h : Sound t) (hx : t.inHand = some x) :
    Transitions.run Execution.step t.abs [.turn] = some (t.process x).abs := by
  obtain ⟨hstarted, hexit⟩ := h.hand (by rw [hx]; exact Option.some_ne_none x)
  have hpop : t.abs.engine.queue.pop = some (some x, t.waiters.shared) := by
    simp [abs, hx, ThreadSafeQueue.pop]
  exact Transitions.run_cons.mpr
    ⟨_, Execution.step_turn_process (abs_running hstarted hexit) hpop, rfl⟩

/-- **A step of a thread** is a step of the execution that the threads amount to, or none. -/
lemma abs_step {t t' : Threads P} {ev : Event P} (h : Sound t) (hs : t.step ev = some t') :
    ∃ evs, Transitions.run Execution.step t.abs evs = some t'.abs
      ∧ evs.filterMap Leviathan.Event.pushed? = ev.pushed?.toList := by
  rcases step_cases hs with ⟨rfl, rfl⟩ | ⟨wev, w, hev, hw, rfl⟩
    | ⟨i, request, w, rfl, hfree, hw, rfl⟩ | ⟨i, rfl, rfl⟩ | ⟨i, rfl, -, -, -, rfl⟩
    | ⟨i, w, rfl, hcall, hw, rfl⟩ | ⟨i, rfl, -, -, rfl⟩ | ⟨m, w, rfl, hin, hexit, hm, hw, rfl⟩
    | ⟨x, rfl, hx, rfl⟩
  · exact ⟨[.construct], rfl, rfl⟩
  · refine ⟨[], ?_, ?_⟩
    · simp only [Transitions.run, abs, shared_of_waiters? hev hw]
    · cases ev <;> first | rfl | cases hev
  · refine ⟨[.push i request], ?_, rfl⟩
    have hshared := Waiters.shared_enqueue hw
    have hblocked : ¬ t.abs.Blocked i := hfree.2.2
    rw [Transitions.run_cons]
    refine ⟨_, if_neg hblocked, ?_⟩
    simp [Transitions.run, Execution.push, abs, hshared, ThreadSafeQueue.push]
  · refine ⟨[.start], ?_, rfl⟩
    refine Transitions.run_cons.mpr ⟨_, rfl, congrArg some ?_⟩
    rw [Threads.start]
    split_ifs with hst
    · simp [abs, MatchingEngine.start, hst]
    · have hexit : t.exited = false :=
        Bool.eq_false_iff.mpr fun hx => hst (h.exited hx).1
      simp [abs, MatchingEngine.start, hst, hexit]
  · refine ⟨[], congrArg some ?_, rfl⟩
    rw [Threads.stop]
    split_ifs <;> rfl
  · refine ⟨[.stop], ?_, rfl⟩
    have hshared := Waiters.shared_signal hw
    have hstarted : t.started = true :=
      h.stopped (h.inside (by rw [hcall]; exact StopCall.noConfusion))
    have hflag : t.waiters.shared.shutdown = false := by
      refine Bool.eq_false_iff.mpr fun hf => ?_
      exact (h.shutdown.mp hf).2 i hcall
    refine Transitions.run_cons.mpr ⟨_, rfl, congrArg some ?_⟩
    simp [Execution.stop, MatchingEngine.stop, abs, hshared, hstarted, hflag,
      ThreadSafeQueue.signalShutdown]
  · exact ⟨[], rfl, rfl⟩
  · exact h.abs_received hin hexit hm hw
  · exact ⟨[.turn], h.abs_process hx, rfl⟩

/-- **The threads refine the execution.**  Whatever the interleaving of the threads' critical
sections, notifications, wake-ups and steps of the matching thread, there is a run of `Execution`,
with the pushes of the same calls in the same order, to what the threads amount to: the same book,
counter, history and flags, with a request in hand counted as queued. -/
theorem refines (counter : UInt64) (evs : List (Event P)) (t : Threads P)
    (h : Transitions.run step (init counter) evs = some t) :
    ∃ evs', Transitions.run Execution.step (Execution.init counter) evs' = some t.abs
      ∧ evs'.filterMap Leviathan.Event.pushed? = evs.filterMap Event.pushed? :=
  Transitions.run_refines abs Event.pushed? Leviathan.Event.pushed? Sound
    (fun _ _ _ h hs => h.step hs) (fun _ _ _ h hs => abs_step h hs) h (.init counter)

/-- An owner, a producer and the matching thread, number 2: it is woken for the first request, the
second one is queued while the first is in hand, and it leaves its loop before it is notified. -/
def sampleEvents : List (Event ℤ) :=
  [.spawn, .spawn, .start 0, .test, .push 1 (.submit ⟨1, .buy, 100, 5, 0, .limit⟩),
   .notifyOne 1 (some 2), .test, .push 1 .bestBid, .process, .notifyOne 1 none, .test, .process,
   .stop 0, .shutdown 0, .test, .notifyAll 0, .join 0]

/-- Both requests are answered before the thread exits, and the execution has the same pushes. -/
theorem refines_sample :
    ∃ t, Transitions.run step (init 0) sampleEvents = some t
      ∧ t.exited = true ∧ t.stopCall = .outside
      ∧ t.fulfilled = [(0, .trades []), (1, .price (some 100))]
      ∧ ∃ evs', Transitions.run Execution.step (Execution.init 0) evs' = some t.abs
        ∧ evs'.filterMap Leviathan.Event.pushed? = sampleEvents.filterMap Event.pushed? := by
  have hrun : ∃ t ∈ Transitions.run step (init 0) sampleEvents,
      t.exited = true ∧ t.stopCall = .outside
        ∧ t.fulfilled = [(0, .trades []), (1, .price (some 100))] := by
    decide
  obtain ⟨t, ht, hx, hcall, hful⟩ := hrun
  exact ⟨t, ht, hx, hcall, hful, refines 0 sampleEvents t ht⟩

end Threads

end Leviathan
