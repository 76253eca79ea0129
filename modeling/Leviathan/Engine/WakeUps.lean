import Leviathan.Foundations.Transitions
import Leviathan.Engine.Engine

/-!
The threads of `ThreadSafeQueue` and its condition variable.

`push` and `shutdown` notify after they have released the lock, so the state of the queue and what
its sleepers are told come apart: another thread can take the item before the sleeper that was
woken for it looks again.

* `Waiters.step` is one atomic step of one thread: a critical section, a notification, or a
  spurious wake-up.  `notify_one` wakes a sleeper if there is one, `notify_all` every sleeper.
* `Attended`, kept by every step: while a thread sleeps, the items are covered by notifications to
  come and threads that were woken, and the shutdown flag by a `notify_all` to come.
* `no_lost_wakeup`: no thread is left asleep with work to do, and the items leave in the order in
  which they came, each once.
-/

namespace Leviathan

/-- Where a thread is: outside the queue, before the `notify_one` of its `push`, before the
`notify_all` of its `shutdown`, asleep in its `pop`, or woken and about to test again. -/
inductive Phase where
  | idle | notifyOne | notifyAll | asleep | woken
  deriving DecidableEq, Repr

/-- The queue among its threads, and what its `pop`s have returned, in the order in which they
returned. -/
structure Waiters (T : Type*) where
  shared : ThreadSafeQueue T
  threads : List Phase
  returned : List (ℕ × Option T)
  deriving DecidableEq

/-- An atomic step of a thread, known by its number. -/
inductive Waiters.Event (T : Type*) where
  | spawn
  | enqueue (thread : ℕ) (item : T)
  | notifyOne (thread : ℕ) (sleeper : Option ℕ)
  | signal (thread : ℕ)
  | notifyAll (thread : ℕ)
  | test (thread : ℕ)
  | spurious (thread : ℕ)
  deriving DecidableEq

/-- The item an event enqueues. -/
def Waiters.Event.item? {T : Type*} : Waiters.Event T → Option T
  | .enqueue _ item => some item
  | _ => none

namespace Waiters

variable {T : Type*}

/-- An empty queue and no thread. -/
def init : Waiters T := ⟨.empty, [], []⟩

/-- The thread goes on to another phase. -/
def move (w : Waiters T) (thread : ℕ) (p : Phase) : Waiters T :=
  { w with threads := w.threads.set thread p }

/-- Every sleeper woken. -/
def wakeAll (w : Waiters T) : Waiters T :=
  { w with threads := w.threads.map fun p => if p = .asleep then .woken else p }

/-- The predicate of `pop` tested under the lock: the thread returns, or it sleeps. -/
def test (w : Waiters T) (thread : ℕ) : Waiters T :=
  match w.shared.pop with
  | none => w.move thread .asleep
  | some (r, shared) =>
      { w.move thread .idle with shared := shared, returned := w.returned ++ [(thread, r)] }

/-- A step of one of the threads. -/
def step (w : Waiters T) : Event T → Option (Waiters T)
  | .spawn => some { w with threads := w.threads ++ [.idle] }
  | .enqueue thread item =>
      if w.threads[thread]? = some .idle then
        some { w.move thread .notifyOne with shared := w.shared.push item }
      else none
  | .notifyOne thread sleeper =>
      if w.threads[thread]? = some .notifyOne then
        match sleeper with
        | none => if .asleep ∈ w.threads then none else some (w.move thread .idle)
        | some j =>
            if w.threads[j]? = some .asleep then some ((w.move thread .idle).move j .woken)
            else none
      else none
  | .signal thread =>
      if w.threads[thread]? = some .idle then
        some { w.move thread .notifyAll with shared := w.shared.signalShutdown }
      else none
  | .notifyAll thread =>
      if w.threads[thread]? = some .notifyAll then some (w.move thread .idle).wakeAll else none
  | .test thread =>
      if w.threads[thread]? = some .idle ∨ w.threads[thread]? = some .woken then
        some (w.test thread)
      else none
  | .spurious thread =>
      if w.threads[thread]? = some .asleep then some (w.move thread .woken) else none

/-- **What a step can do.** -/
lemma step_cases {w w' : Waiters T} {ev : Event T} (h : w.step ev = some w') :
    (ev = .spawn ∧ w' = { w with threads := w.threads ++ [.idle] })
      ∨ (∃ i item, ev = .enqueue i item ∧ w.threads[i]? = some .idle
          ∧ w' = { w.move i .notifyOne with shared := w.shared.push item })
      ∨ (∃ i, ev = .notifyOne i none ∧ w.threads[i]? = some .notifyOne ∧ .asleep ∉ w.threads
          ∧ w' = w.move i .idle)
      ∨ (∃ i j, ev = .notifyOne i (some j) ∧ w.threads[i]? = some .notifyOne
          ∧ w.threads[j]? = some .asleep ∧ w' = (w.move i .idle).move j .woken)
      ∨ (∃ i, ev = .signal i ∧ w.threads[i]? = some .idle
          ∧ w' = { w.move i .notifyAll with shared := w.shared.signalShutdown })
      ∨ (∃ i, ev = .notifyAll i ∧ w.threads[i]? = some .notifyAll ∧ w' = (w.move i .idle).wakeAll)
      ∨ (∃ i p, ev = .test i ∧ w.threads[i]? = some p ∧ (p = .idle ∨ p = .woken)
          ∧ w' = w.test i)
      ∨ (∃ i, ev = .spurious i ∧ w.threads[i]? = some .asleep ∧ w' = w.move i .woken) := by
  cases ev with
  | spawn => exact Or.inl ⟨rfl, (Option.some.inj h).symm⟩
  | enqueue i item =>
      rw [step] at h
      split_ifs at h with hi
      exact Or.inr (Or.inl ⟨i, item, rfl, hi, (Option.some.inj h).symm⟩)
  | notifyOne i sleeper =>
      cases sleeper with
      | none =>
          rw [step] at h
          split_ifs at h with hi hs
          exact Or.inr (Or.inr (Or.inl ⟨i, rfl, hi, hs, (Option.some.inj h).symm⟩))
      | some j =>
          rw [step] at h
          split_ifs at h with hi hj
          exact Or.inr (Or.inr (Or.inr (Or.inl ⟨i, j, rfl, hi, hj, (Option.some.inj h).symm⟩)))
  | signal i =>
      rw [step] at h
      split_ifs at h with hi
      exact Or.inr (Or.inr (Or.inr (Or.inr (Or.inl ⟨i, rfl, hi, (Option.some.inj h).symm⟩))))
  | notifyAll i =>
      rw [step] at h
      split_ifs at h with hi
      exact Or.inr (Or.inr (Or.inr (Or.inr (Or.inr (Or.inl
        ⟨i, rfl, hi, (Option.some.inj h).symm⟩)))))
  | test i =>
      rw [step] at h
      split_ifs at h with hi
      rcases hi with hi | hi
      · exact Or.inr (Or.inr (Or.inr (Or.inr (Or.inr (Or.inr (Or.inl
          ⟨i, .idle, rfl, hi, Or.inl rfl, (Option.some.inj h).symm⟩))))))
      · exact Or.inr (Or.inr (Or.inr (Or.inr (Or.inr (Or.inr (Or.inl
          ⟨i, .woken, rfl, hi, Or.inr rfl, (Option.some.inj h).symm⟩))))))
  | spurious i =>
      rw [step] at h
      split_ifs at h with hi
      exact Or.inr (Or.inr (Or.inr (Or.inr (Or.inr (Or.inr (Or.inr
        ⟨i, rfl, hi, (Option.some.inj h).symm⟩))))))

/-! ### The counts of the phases -/

/-- A thread that moves leaves one phase and enters another. -/
lemma count_set {l : List Phase} {i : ℕ} {p : Phase} (h : l[i]? = some p) (p' q : Phase) :
    (l.set i p').count q + (if p = q then 1 else 0) = l.count q + if p' = q then 1 else 0 := by
  obtain ⟨hlt, rfl⟩ := List.getElem?_eq_some_iff.mp h
  have hle : (if l[i] == q then 1 else 0) ≤ l.count q := List.boole_getElem_le_count hlt
  simp only [List.count_set hlt, beq_iff_eq] at hle ⊢
  omega

/-- Nobody sleeps after `notify_all`. -/
lemma asleep_notMem_wakeAll (w : Waiters T) : .asleep ∉ w.wakeAll.threads := by
  intro h
  obtain ⟨p, -, hp⟩ := List.mem_map.mp h
  split_ifs at hp with hs
  exact hs hp

/-- While a thread sleeps, the items are covered by the notifications to come and the threads
woken, and the flag by a `notify_all` to come. -/
structure Attended (w : Waiters T) : Prop where
  items : 0 < w.threads.count .asleep →
    w.shared.queue.length ≤ w.threads.count .notifyOne + w.threads.count .woken
  flag : 0 < w.threads.count .asleep → w.shared.shutdown = true → 0 < w.threads.count .notifyAll

namespace Attended

variable {w : Waiters T} {i : ℕ}

lemma init : Attended (init : Waiters T) := ⟨fun h => (by cases h), fun h => (by cases h)⟩

/-- Where nobody sleeps nobody waits for a notification. -/
lemma of_awake (h : .asleep ∉ w.threads) : Attended w := by
  have hzero : w.threads.count .asleep = 0 := List.count_eq_zero.mpr h
  exact ⟨fun hs => by omega, fun hs => by omega⟩

/-- One more item, and one more notification to come. -/
lemma enqueue (h : Attended w) (hi : w.threads[i]? = some .idle) (item : T) :
    Attended { w.move i .notifyOne with shared := w.shared.push item } := by
  have hcount := count_set hi .notifyOne
  have hasleep := hcount .asleep
  have hone := hcount .notifyOne
  have hall := hcount .notifyAll
  have hwoken := hcount .woken
  simp only [reduceCtorEq, if_true, if_false] at hasleep hone hall hwoken
  refine ⟨fun hs => ?_, fun hs hf => ?_⟩
  · simp only [move, ThreadSafeQueue.push, List.length_append, List.length_singleton] at hs ⊢
    have hle := h.items (by omega)
    omega
  · simp only [move, ThreadSafeQueue.push] at hs hf ⊢
    have hpos := h.flag (by omega) hf
    omega

/-- The flag, and a `notify_all` to come. -/
lemma signal (h : Attended w) (hi : w.threads[i]? = some .idle) :
    Attended { w.move i .notifyAll with shared := w.shared.signalShutdown } := by
  have hcount := count_set hi .notifyAll
  have hasleep := hcount .asleep
  have hone := hcount .notifyOne
  have hall := hcount .notifyAll
  have hwoken := hcount .woken
  simp only [reduceCtorEq, if_true, if_false] at hasleep hone hall hwoken
  refine ⟨fun hs => ?_, fun _ _ => ?_⟩
  · simp only [move, ThreadSafeQueue.signalShutdown] at hs ⊢
    have hle := h.items (by omega)
    omega
  · simp only [move]
    omega

/-- A notification spent on a sleeper, who is woken. -/
lemma notifyOne (h : Attended w) {j : ℕ} (hi : w.threads[i]? = some .notifyOne)
    (hj : w.threads[j]? = some .asleep) : Attended ((w.move i .idle).move j .woken) := by
  have hne : i ≠ j := by
    rintro rfl
    rw [hi] at hj
    cases hj
  have hj' : (w.threads.set i .idle)[j]? = some .asleep := by
    rw [List.getElem?_set_ne hne, hj]
  have hcount := fun q => count_set hi .idle q
  have hcount' := fun q => count_set hj' .woken q
  have hasleep := hcount .asleep
  have hone := hcount .notifyOne
  have hall := hcount .notifyAll
  have hwoken := hcount .woken
  have hasleep' := hcount' .asleep
  have hone' := hcount' .notifyOne
  have hall' := hcount' .notifyAll
  have hwoken' := hcount' .woken
  simp only [reduceCtorEq, if_true, if_false]
    at hasleep hone hall hwoken hasleep' hone' hall' hwoken'
  refine ⟨fun hs => ?_, fun hs hf => ?_⟩
  · simp only [move] at hs ⊢
    have hle := h.items (by omega)
    omega
  · simp only [move] at hs hf ⊢
    have hpos := h.flag (by omega) hf
    omega

/-- A sleeper woken for no reason. -/
lemma spurious (h : Attended w) (hi : w.threads[i]? = some .asleep) :
    Attended (w.move i .woken) := by
  have hcount := count_set hi .woken
  have hasleep := hcount .asleep
  have hone := hcount .notifyOne
  have hall := hcount .notifyAll
  have hwoken := hcount .woken
  simp only [reduceCtorEq, if_true, if_false] at hasleep hone hall hwoken
  refine ⟨fun hs => ?_, fun hs hf => ?_⟩
  · simp only [move] at hs ⊢
    have hle := h.items (by omega)
    omega
  · simp only [move] at hs hf ⊢
    have hpos := h.flag (by omega) hf
    omega

/-- The predicate tested: with nothing to take the queue asks for nobody, and one item taken
leaves one fewer to be covered. -/
lemma test (h : Attended w) {p : Phase} (hi : w.threads[i]? = some p)
    (hp : p = .idle ∨ p = .woken) : Attended (w.test i) := by
  rw [Waiters.test]
  cases hpop : w.shared.pop with
  | none =>
      obtain ⟨hnil, hflag⟩ := ThreadSafeQueue.pop_eq_none hpop
      exact ⟨fun _ => by simp [move, hnil], fun _ hf => by simp [move, hflag] at hf⟩
  | some r =>
      obtain ⟨r, shared⟩ := r
      have hcount := count_set hi .idle
      have hasleep := hcount .asleep
      have hone := hcount .notifyOne
      have hall := hcount .notifyAll
      have hwoken := hcount .woken
      have hshared : shared.shutdown = w.shared.shutdown
          ∧ (shared.queue = [] ∨ w.shared.queue.length = shared.queue.length + 1) := by
        rcases ThreadSafeQueue.pop_eq_some hpop with ⟨-, rfl, hnil, -⟩ | ⟨item, -, hq, hs⟩
        · exact ⟨rfl, Or.inl hnil⟩
        · exact ⟨hs, Or.inr (by rw [hq, List.length_cons])⟩
      obtain ⟨hflag, hlen⟩ := hshared
      refine ⟨fun hs => ?_, fun hs hf => ?_⟩
      · rcases hlen with hnil | hlen
        · simp [move, hnil]
        · rcases hp with rfl | rfl
          all_goals
            simp only [reduceCtorEq, if_true, if_false] at hasleep hone hwoken
            simp only [move] at hs ⊢
            have hle := h.items (by omega)
            omega
      · rcases hp with rfl | rfl
        all_goals
          simp only [reduceCtorEq, if_false] at hasleep hall
          simp only [move, hflag] at hs hf ⊢
          have hpos := h.flag (by omega) hf
          omega

lemma step (h : Attended w) {ev : Event T} {w' : Waiters T} (hs : w.step ev = some w') :
    Attended w' := by
  rcases step_cases hs with ⟨-, rfl⟩ | ⟨i, item, -, hi, rfl⟩ | ⟨i, -, hi, hnone, rfl⟩
    | ⟨i, j, -, hi, hj, rfl⟩ | ⟨i, -, hi, rfl⟩ | ⟨i, -, hi, rfl⟩ | ⟨i, p, -, hi, hp, rfl⟩
    | ⟨i, -, hi, rfl⟩
  · exact ⟨by simpa using h.items, by simpa using h.flag⟩
  · exact h.enqueue hi item
  · refine of_awake fun hmem => hnone ?_
    exact (List.mem_or_eq_of_mem_set hmem).resolve_right (by decide)
  · exact h.notifyOne hi hj
  · exact h.signal hi
  · exact of_awake (asleep_notMem_wakeAll _)
  · exact h.test hi hp
  · exact h.spurious hi

end Attended

/-! ### Runs -/

/-- The items returned and those in the queue. -/
def items (w : Waiters T) : List T := w.returned.filterMap Prod.snd ++ w.shared.queue

/-- A step enqueues its item behind all others, and takes items from the front. -/
lemma items_step {w w' : Waiters T} {ev : Event T} (hs : w.step ev = some w') :
    w'.items = w.items ++ ev.item?.toList := by
  rcases step_cases hs with ⟨rfl, rfl⟩ | ⟨i, item, rfl, hi, rfl⟩ | ⟨i, rfl, hi, hnone, rfl⟩
    | ⟨i, j, rfl, hi, hj, rfl⟩ | ⟨i, rfl, hi, rfl⟩ | ⟨i, rfl, hi, rfl⟩ | ⟨i, p, rfl, hi, hp, rfl⟩
    | ⟨i, rfl, hi, rfl⟩
  · exact (List.append_nil _).symm
  · simp [items, move, ThreadSafeQueue.push, Event.item?]
  · exact (List.append_nil _).symm
  · exact (List.append_nil _).symm
  · exact (List.append_nil _).symm
  · exact (List.append_nil _).symm
  · rw [Waiters.test]
    cases hpop : w.shared.pop with
    | none => exact (List.append_nil _).symm
    | some r =>
        obtain ⟨r, shared⟩ := r
        rcases ThreadSafeQueue.pop_eq_some hpop with ⟨rfl, rfl, -, -⟩ | ⟨item, rfl, hq, -⟩
        · simp [items, Event.item?]
        · simp [items, hq, Event.item?]
  · exact (List.append_nil _).symm

lemma items_run {w w' : Waiters T} {evs : List (Event T)}
    (h : Transitions.run step w evs = some w') :
    w'.items = w.items ++ evs.filterMap Event.item? := by
  induction evs generalizing w with
  | nil =>
      obtain rfl := Option.some.inj h
      exact (List.append_nil _).symm
  | cons ev evs ih =>
      obtain ⟨w₁, hs, hrun⟩ := Transitions.run_cons.mp h
      rw [ih hrun, items_step hs, List.append_assoc]
      cases hitem : ev.item? with
      | none => simp [hitem]
      | some item => simp [hitem]

/-- A thread sleeps with work to do, and nobody is left to tell it or to look. -/
def Lost (w : Waiters T) : Prop :=
  .asleep ∈ w.threads ∧ (w.shared.queue ≠ [] ∨ w.shared.shutdown = true)
    ∧ .notifyOne ∉ w.threads ∧ .notifyAll ∉ w.threads ∧ .woken ∉ w.threads

/-- **No lost wake-up.**  In every state that any threads reach, by any interleaving of their
critical sections, notifications and spurious wake-ups: no thread sleeps while the queue has an
item or is shut down, unless a notification is still to be issued or a woken thread is still to
test again; and the items that the `pop`s have returned, in the order of their returns, and then
those in the queue, are the items enqueued, in the order in which they were. -/
theorem no_lost_wakeup (evs : List (Event T)) (w : Waiters T)
    (h : Transitions.run step init evs = some w) :
    ¬ w.Lost ∧ w.returned.filterMap Prod.snd ++ w.shared.queue = evs.filterMap Event.item? := by
  have hatt : Attended w :=
    Transitions.run_invariant Attended (fun _ _ _ hi hs => hi.step hs) h .init
  refine ⟨?_, items_run h⟩
  rintro ⟨hs, hwork, hone, hall, hwoken⟩
  have hasleep : 0 < w.threads.count .asleep := List.count_pos_iff.mpr hs
  rcases hwork with hne | hf
  · have hle := hatt.items hasleep
    rw [List.count_eq_zero.mpr hone, List.count_eq_zero.mpr hwoken] at hle
    exact hne (List.length_eq_zero_iff.mp (by omega))
  · have hpos := hatt.flag hasleep hf
    rw [List.count_eq_zero.mpr hall] at hpos
    exact lt_irrefl 0 hpos

/-- Two threads that pop and one that pushes: the item that the sleeper 0 is woken for is taken by
the thread 1, and the next one is on its way. -/
def stolenEvents : List (Event ℕ) :=
  [.spawn, .spawn, .spawn, .test 0, .enqueue 2 7, .test 1, .notifyOne 2 (some 0), .test 0,
   .enqueue 2 8]

/-- The sleeper has found nothing and sleeps again, and the notification for the next item is still
to come. -/
theorem no_lost_wakeup_sample :
    ∃ w, Transitions.run step init stolenEvents = some w
      ∧ w.threads = [.asleep, .idle, .notifyOne] ∧ w.shared.queue = [8]
      ∧ w.returned = [(1, some 7)] ∧ ¬ w.Lost := by
  have hrun : ∃ w ∈ Transitions.run step init stolenEvents,
      w.threads = [.asleep, .idle, .notifyOne] ∧ w.shared.queue = [8]
        ∧ w.returned = [(1, some 7)] := by
    decide
  obtain ⟨w, hw, hthreads, hqueue, hreturned⟩ := hrun
  exact ⟨w, hw, hthreads, hqueue, hreturned, (no_lost_wakeup stolenEvents w hw).1⟩

end Waiters

end Leviathan
