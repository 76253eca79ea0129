import Leviathan.Engine.Shutdown
import Leviathan.Engine.Threads

/-!
The threads come to rest.

The steps that finish what has begun are the notifications, the rest of `stop`, and the loop of
the matching thread (`Event.Finishing`); what else happens is that a thread begins a call, draws a
timestamp, or is woken for no reason.

* `work`: what is left to be done.  `work_lt`: each of these steps lowers it, so their runs are
  bounded, whatever their order.
* `atRest_of_quiet`: where none of them can be taken nothing is left undone.  A sleeper with work
  to do would be a lost wake-up, and a call of `stop` left in its join a matching thread that
  never exits; the invariants of the queue and of the threads exclude both.
* `comes_to_rest` puts these together: no fairness of the scheduler is asked for.
-/

namespace Leviathan

/-! ### The notifications to come -/

namespace Waiters

variable {T : Type*} {w w' : Waiters T} {i : ℕ}

/-- How many threads are about to notify. -/
def notifications (w : Waiters T) : ℕ :=
  w.threads.count .notifyOne + w.threads.count .notifyAll

/-- Waking every sleeper leaves the other phases alone. -/
lemma count_wakeAll {q : Phase} (hq : q ≠ .asleep) (hq' : q ≠ .woken) (w : Waiters T) :
    w.wakeAll.threads.count q = w.threads.count q := by
  simp only [wakeAll, List.count_eq_countP, List.countP_map]
  refine List.countP_congr fun p _ => ?_
  by_cases hp : p = .asleep
  · simp [hp, hq.symm, hq'.symm]
  · simp [hp]

/-- A thread that goes on from one phase to another. -/
lemma notifications_move {p : Phase} (h : w.threads[i]? = some p) (p' : Phase) :
    (w.move i p').notifications
        + ((if p = .notifyOne then 1 else 0) + if p = .notifyAll then 1 else 0)
      = w.notifications
        + ((if p' = .notifyOne then 1 else 0) + if p' = .notifyAll then 1 else 0) := by
  have hone := count_set h p' .notifyOne
  have hall := count_set h p' .notifyAll
  simp only [notifications, move]
  omega

lemma notifications_notifyOne {sleeper : Option ℕ}
    (h : w.step (.notifyOne i sleeper) = some w') :
    w'.notifications + 1 = w.notifications := by
  have hidle : ∀ {w₁ : Waiters T}, w.threads[i]? = some .notifyOne → w₁ = w.move i .idle →
      w₁.notifications + 1 = w.notifications := by
    rintro w₁ hi rfl
    have hmove := notifications_move hi .idle
    simp only [reduceCtorEq, if_false, if_true] at hmove
    omega
  cases sleeper with
  | none =>
      rw [step] at h
      split_ifs at h with hi
      exact hidle hi (Option.some.inj h).symm
  | some j =>
      rw [step] at h
      split_ifs at h with hi hj
      have hne : i ≠ j := by
        rintro rfl
        rw [hi] at hj
        cases hj
      have hj' : (w.move i .idle).threads[j]? = some .asleep := by
        rw [move, List.getElem?_set_ne hne, hj]
      have hwoken := notifications_move hj' .woken
      have hone := hidle hi rfl
      rw [← Option.some.inj h]
      simp only [reduceCtorEq, if_false] at hwoken
      omega

lemma notifications_notifyAll (h : w.step (.notifyAll i) = some w') :
    w'.notifications + 1 = w.notifications := by
  rw [step] at h
  split_ifs at h with hi
  have hmove := notifications_move hi .idle
  simp only [reduceCtorEq, if_false, if_true] at hmove
  rw [← Option.some.inj h]
  simp only [notifications] at hmove ⊢
  rw [count_wakeAll (by decide) (by decide), count_wakeAll (by decide) (by decide)]
  omega

lemma notifications_signal (h : w.step (.signal i) = some w') :
    w'.notifications = w.notifications + 1 ∧ w'.shared.queue = w.shared.queue := by
  rw [step] at h
  split_ifs at h with hi
  rw [← Option.some.inj h]
  have hmove := notifications_move hi .notifyAll
  simp only [reduceCtorEq, if_false, if_true] at hmove
  exact ⟨hmove, rfl⟩

/-- A test notifies nobody. -/
lemma notifications_test {p' : Phase} (h : w.step (.test i) = some w')
    (hthreads : w'.threads = w.threads.set i p') (hp : p' ≠ .notifyOne) (hp' : p' ≠ .notifyAll) :
    w'.notifications = w.notifications := by
  have heq : w'.notifications = (w.move i p').notifications := by
    simp only [notifications, hthreads, move]
  rw [heq]
  rw [step] at h
  split_ifs at h with hi
  rcases hi with hi | hi
  · simpa [hp, hp'] using notifications_move hi p'
  · simpa [hp, hp'] using notifications_move hi p'

end Waiters

/-! ### The work left -/

/-- What is left of a call of `stop`: the critical section, the `notify_all` and the thread it
may wake, the join. -/
def StopCall.work : StopCall → ℕ
  | .outside => 0
  | .flagged _ => 5
  | .signalled _ => 1

namespace Threads

variable {P : Type*} [LinearOrder P]

/-- A step that finishes what has begun. -/
def Event.Finishing : Event P → Prop
  | .notifyOne _ _ | .shutdown _ | .notifyAll _ | .join _ | .test | .process => True
  | _ => False

instance : DecidablePred (Event.Finishing (P := P)) := fun ev => by
  cases ev <;> first | exact isTrue trivial | exact isFalse id

/-! ### The work left -/

/-- The phase of the matching thread. -/
def matchingPhase (t : Threads P) : Option Phase :=
  t.matching.bind fun m => t.waiters.threads[m]?

/-- The matching thread is about to test the predicate of `pop`. -/
def Testing (t : Threads P) : Prop :=
  t.inHand = none ∧ t.exited = false
    ∧ (t.matchingPhase = some .idle ∨ t.matchingPhase = some .woken)

instance (t : Threads P) : Decidable t.Testing :=
  inferInstanceAs (Decidable (_ ∧ _ ∧ _))

/-- The work left: an item is to be popped, processed, and the predicate tested again. -/
def work (t : Threads P) : ℕ :=
  3 * t.waiters.shared.queue.length + 2 * t.inHand.toList.length
    + 2 * t.waiters.notifications + (if t.Testing then 1 else 0) + t.stopCall.work

omit [LinearOrder P] in
lemma testing_le (t : Threads P) : (if t.Testing then 1 else 0) ≤ 1 := by
  split_ifs <;> omega

omit [LinearOrder P] in
/-- The matching thread that tests the predicate stands at the test no longer, whatever it finds. -/
lemma work_received_lt {t : Threads P} {w : Waiters (Posted P)} {m : ℕ} (hin : t.inHand = none)
    (hexit : t.exited = false) (hm : t.matching = some m)
    (hw : t.waiters.step (.test m) = some w) : (t.received w).work < t.work := by
  have htesting : t.Testing := by
    refine ⟨hin, hexit, ?_⟩
    rw [matchingPhase, hm, Option.bind_some]
    rw [Waiters.step] at hw
    split_ifs at hw with hready
    exact hready
  rcases received_cases hin hexit hw with ⟨-, -, rfl, heq⟩ | ⟨-, -, hshared, hthreads, heq⟩
    | ⟨x, hq, -, hthreads, heq⟩
  · have hone := Waiters.notifications_test hw rfl (by decide) (by decide)
    have hsleep : ¬ (t.received (t.waiters.move m .asleep)).Testing := by
      rintro ⟨-, -, hp⟩
      rw [heq] at hp
      simp only [matchingPhase, hm, Option.bind_some, Waiters.move, List.getElem?_set,
        if_true] at hp
      split_ifs at hp
      · simp at hp
      · simp at hp
    rw [work, work, if_neg hsleep, if_pos htesting, heq]
    simp only [hone]
    exact Nat.add_lt_add_right (Nat.lt_succ_self _) _
  · have hone := Waiters.notifications_test hw hthreads (by decide) (by decide)
    have hleft : ¬ (t.received w).Testing := by
      rintro ⟨-, hx, -⟩
      rw [heq] at hx
      cases hx
    rw [work, work, if_neg hleft, if_pos htesting, heq]
    simp only [hone, hshared]
    exact Nat.add_lt_add_right (Nat.lt_succ_self _) _
  · have hone := Waiters.notifications_test hw hthreads (by decide) (by decide)
    have hbusy : ¬ (t.received w).Testing := by
      rintro ⟨hx, -, -⟩
      rw [heq] at hx
      cases hx
    rw [work, work, if_neg hbusy, if_pos htesting, heq]
    simp only [hone, hq, hin, List.length_cons, Option.toList_some, Option.toList_none,
      List.length_nil]
    omega

/-- **A step that finishes what has begun lowers the work left.** -/
lemma work_lt {t t' : Threads P} {ev : Event P} (hev : ev.Finishing)
    (hs : t.step ev = some t') : t'.work < t.work := by
  rcases step_cases hs with ⟨rfl, rfl⟩ | ⟨wev, w, hw?, hw, rfl⟩
    | ⟨i, request, w, rfl, -, -, rfl⟩ | ⟨i, rfl, rfl⟩ | ⟨i, rfl, -, -, -, rfl⟩
    | ⟨i, w, rfl, hcall, hw, rfl⟩ | ⟨i, rfl, hcall, -, rfl⟩ | ⟨m, w, rfl, hin, hexit, hm, hw, rfl⟩
    | ⟨x, rfl, hx, rfl⟩
  · cases hev
  · have hshared := shared_of_waiters? hw? hw
    have hone : w.notifications + 1 = t.waiters.notifications := by
      cases ev <;> cases hw?
      · cases hev
      · exact Waiters.notifications_notifyOne hw
      · exact Waiters.notifications_notifyAll hw
      · cases hev
    have htest := testing_le { t with waiters := w }
    simp only [work, hshared]
    omega
  · cases hev
  · cases hev
  · cases hev
  · obtain ⟨hone, hqueue⟩ := Waiters.notifications_signal hw
    have htest := testing_le
      { t with waiters := w, stopCall := .signalled i, shutdownAt := some t.pushed.length }
    simp only [work, hcall, StopCall.work, hone, hqueue]
    omega
  · have htest : (if { t with stopCall := .outside }.Testing then 1 else 0)
        = if t.Testing then 1 else 0 := rfl
    simp only [work, hcall, StopCall.work, htest]
    omega
  · exact work_received_lt hin hexit hm hw
  · have htest := testing_le (t.process x)
    have hleft : (t.process x).inHand = none := rfl
    have hwaiters : (t.process x).waiters = t.waiters := rfl
    have hcall : (t.process x).stopCall = t.stopCall := rfl
    rw [work, work, hleft, hwaiters, hcall, hx]
    simp only [Option.toList_some, Option.toList_none, List.length_cons, List.length_nil]
    omega

/-! ### Where nothing is left to finish -/

/-- No step can be taken that finishes what has begun. -/
def Quiet (t : Threads P) : Prop := ∀ ev : Event P, ev.Finishing → t.step ev = none

/-- Nothing is left undone: every call of `stop` has returned and no notification is to come; an
engine that runs has answered every request, and one that was stopped has left its loop, the
requests pushed before the flag processed. -/
structure AtRest (t : Threads P) : Prop where
  returned : t.stopCall = .outside
  notified : t.waiters.notifications = 0
  answered : t.started = true → t.stopped = false →
    t.processed = t.pushed
      ∧ (∀ x ∈ t.pushed, x.request.hasPromise = true → x.promise ∈ t.fulfilled.map Prod.fst)
      ∧ ∀ i, ¬ t.Blocked i
  joined : t.stopped = true →
    t.exited = true ∧ ∃ n, t.shutdownAt = some n ∧ t.pushed.take n <+: t.processed

namespace Quiet

variable {t : Threads P}

lemma notifyOne (hq : t.Quiet) (i : ℕ) : t.waiters.threads[i]? ≠ some .notifyOne := by
  intro hi
  by_cases hs : .asleep ∈ t.waiters.threads
  · obtain ⟨j, hj⟩ := List.mem_iff_getElem?.mp hs
    have hnone := hq (.notifyOne i (some j)) trivial
    simp [step, Waiters.step, hi, hj] at hnone
  · have hnone := hq (.notifyOne i none) trivial
    simp [step, Waiters.step, hi, hs] at hnone

lemma notifyAll (hq : t.Quiet) (i : ℕ) : t.waiters.threads[i]? ≠ some .notifyAll := by
  intro hi
  have hnone := hq (.notifyAll i) trivial
  simp [step, Waiters.step, hi] at hnone

lemma notifications (hq : t.Quiet) : t.waiters.notifications = 0 := by
  have hone : t.waiters.threads.count .notifyOne = 0 := by
    refine List.count_eq_zero.mpr fun hmem => ?_
    obtain ⟨i, hi⟩ := List.mem_iff_getElem?.mp hmem
    exact hq.notifyOne i hi
  have hall : t.waiters.threads.count .notifyAll = 0 := by
    refine List.count_eq_zero.mpr fun hmem => ?_
    obtain ⟨i, hi⟩ := List.mem_iff_getElem?.mp hmem
    exact hq.notifyAll i hi
  rw [Waiters.notifications, hone, hall]

/-- A thread other than the matching thread is outside the queue. -/
lemma idle (hq : t.Quiet) (h : Sound t) {i : ℕ} (hi : i < t.waiters.threads.length)
    (hm : t.matching ≠ some i) : t.waiters.threads[i]? = some .idle := by
  obtain ⟨p, hp⟩ : ∃ p, t.waiters.threads[i]? = some p := ⟨_, List.getElem?_eq_getElem hi⟩
  cases p with
  | idle => exact hp
  | notifyOne => exact (hq.notifyOne i hp).elim
  | notifyAll => exact (hq.notifyAll i hp).elim
  | asleep => exact (hm (h.waiting i (Or.inl hp)).1).elim
  | woken => exact (hm (h.waiting i (Or.inr hp)).1).elim

/-- The matching thread, while it runs, is asleep with nothing to do. -/
lemma asleep (hq : t.Quiet) (h : Sound t) (hstarted : t.started = true)
    (hexit : t.exited = false) :
    t.inHand = none ∧ t.waiters.shared.queue = [] ∧ t.waiters.shared.shutdown = false := by
  have hin : t.inHand = none := by
    have hnone := hq .process trivial
    rwa [step, Option.map_eq_none_iff] at hnone
  obtain ⟨m, hm⟩ : ∃ m, t.matching = some m := by
    rw [h.spawned] at hstarted
    exact Option.isSome_iff_exists.mp hstarted
  have hready : ¬ (t.waiters.threads[m]? = some .idle ∨ t.waiters.threads[m]? = some .woken) := by
    intro hready
    have hnone := hq .test trivial
    simp [step, hin, hexit, hm, Waiters.step, hready] at hnone
  have hsleep : t.waiters.threads[m]? = some .asleep := by
    obtain ⟨p, hp⟩ : ∃ p, t.waiters.threads[m]? = some p :=
      ⟨_, List.getElem?_eq_getElem (h.matching m hm)⟩
    cases p with
    | idle => exact (hready (Or.inl hp)).elim
    | notifyOne => exact (hq.notifyOne m hp).elim
    | notifyAll => exact (hq.notifyAll m hp).elim
    | asleep => exact hp
    | woken => exact (hready (Or.inr hp)).elim
  have hcount : 0 < t.waiters.threads.count .asleep :=
    List.count_pos_iff.mpr (List.mem_of_getElem? hsleep)
  have hzero := hq.notifications
  rw [Waiters.notifications] at hzero
  have hwoken : t.waiters.threads.count .woken = 0 := by
    refine List.count_eq_zero.mpr fun hmem => ?_
    obtain ⟨i, hi⟩ := List.mem_iff_getElem?.mp hmem
    have him := (h.waiting i (Or.inr hi)).1
    rw [hm] at him
    exact hready (Or.inr (Option.some.inj him ▸ hi))
  have hitems := h.attended.items hcount
  refine ⟨hin, List.length_eq_zero_iff.mp (by omega), ?_⟩
  refine Bool.eq_false_iff.mpr fun hf => ?_
  have hpos := h.attended.flag hcount hf
  omega

/-- No thread is inside `stop`. -/
lemma stopCall (hq : t.Quiet) (h : Sound t) : t.stopCall = .outside := by
  cases hcall : t.stopCall with
  | outside => rfl
  | flagged i =>
      obtain ⟨hi, hm⟩ := h.caller i (by rw [hcall]; rfl)
      have hidle := hq.idle h hi hm
      have hnone := hq (.shutdown i) trivial
      simp [step, hcall, Waiters.step, hidle] at hnone
  | signalled i =>
      obtain ⟨hi, hm⟩ := h.caller i (by rw [hcall]; rfl)
      have hidle := hq.idle h hi hm
      have hstop : t.stopped = true := h.inside (by rw [hcall]; exact StopCall.noConfusion)
      have hflag : t.waiters.shared.shutdown = true :=
        h.shutdown.mpr ⟨hstop, fun j hj => by rw [hcall] at hj; cases hj⟩
      cases hexit : t.exited with
      | false =>
          have hf := (hq.asleep h (h.stopped hstop) hexit).2.2
          rw [hflag] at hf
          cases hf
      | true =>
          have hnone := hq (.join i) trivial
          simp [step, hcall, hidle, hexit] at hnone

end Quiet

/-- **Where nothing is left to finish nothing is left undone.** -/
lemma atRest_of_quiet {t : Threads P} (h : Sound t) (ho : Ordered t.abs) (hd : Drained t.abs)
    (hq : t.Quiet) : t.AtRest := by
  have hcall := hq.stopCall h
  have hflag : t.waiters.shared.shutdown = t.stopped := by
    refine Bool.eq_iff_iff.mpr ⟨fun hf => (h.shutdown.mp hf).1, fun hs => ?_⟩
    exact h.shutdown.mpr ⟨hs, fun i hi => by rw [hcall] at hi; cases hi⟩
  refine ⟨hcall, hq.notifications, fun hstarted hstop => ?_, fun hstop => ?_⟩
  · have hexit : t.exited = false := by
      refine Bool.eq_false_iff.mpr fun hx => ?_
      have hf := (h.exited hx).2
      rw [hflag, hstop] at hf
      cases hf
    obtain ⟨hin, hnil, -⟩ := hq.asleep h hstarted hexit
    have hempty : t.abs.exit.engine.queue.queue = [] := by
      simp [abs, Execution.exit, hin, hnil]
    have ho' : Ordered t.abs.exit := ho.congr rfl rfl rfl rfl rfl
    exact (nothingStranded_of_queue ho').mpr (fun _ => hempty) rfl
  · have hexit : t.exited = true := by
      cases hx : t.exited with
      | true => rfl
      | false =>
          have hf := (hq.asleep h (h.stopped hstop) hx).2.2
          rw [hflag, hstop] at hf
          cases hf
    obtain ⟨n, hn, hle⟩ := hd.exited (by simp [abs, hexit])
    refine ⟨hexit, n, hn, ?_⟩
    have hpush : t.pushed = t.processed ++ t.abs.engine.queue.queue := ho.pushed
    have hle : n ≤ t.processed.length := hle
    rw [hpush, List.take_append_of_le_length hle]
    exact List.take_prefix _ _

/-- A run of such steps begins no call. -/
lemma pushed_finishing {t t' : Threads P} {evs : List (Event P)}
    (h : Transitions.run step t evs = some t') (hevs : ∀ ev ∈ evs, ev.Finishing) :
    t'.pushed = t.pushed ∧ t'.stopped = t.stopped := by
  induction evs generalizing t with
  | nil =>
      obtain rfl := Option.some.inj h
      exact ⟨rfl, rfl⟩
  | cons ev evs ih =>
      obtain ⟨t₁, hs, hrun⟩ := Transitions.run_cons.mp h
      have hstep : t₁.pushed = t.pushed ∧ t₁.stopped = t.stopped := by
        have hev := hevs ev List.mem_cons_self
        rcases step_cases hs with ⟨rfl, rfl⟩ | ⟨wev, w, -, -, rfl⟩
          | ⟨i, request, w, rfl, -, -, rfl⟩ | ⟨i, rfl, rfl⟩ | ⟨i, rfl, -, -, -, rfl⟩
          | ⟨i, w, rfl, -, -, rfl⟩ | ⟨i, rfl, -, -, rfl⟩ | ⟨m, w, rfl, -, -, -, -, rfl⟩
          | ⟨x, rfl, -, rfl⟩
        all_goals first | exact ⟨rfl, rfl⟩ | cases hev
      obtain ⟨hpushed, hstopped⟩ := ih hrun fun ev hev => hevs ev (List.mem_cons_of_mem _ hev)
      exact ⟨hpushed.trans hstep.1, hstopped.trans hstep.2⟩

/-- What the threads amount to is in order. -/
lemma ordered_abs {counter : UInt64} {evs : List (Event P)} {t : Threads P}
    (h : Transitions.run step (init counter) evs = some t) : Ordered t.abs ∧ Drained t.abs := by
  obtain ⟨evs', habs, -⟩ := Transitions.run_refines abs Event.pushed? Leviathan.Event.pushed? Sound
    (fun _ _ _ h hs => h.step hs) (fun _ _ _ h hs => abs_step h hs) h (.init counter)
  exact Transitions.run_invariant (fun e => Ordered e ∧ Drained e)
    (fun _ _ _ hi hs => ⟨hi.1.step hs, hi.2.step hi.1 hs⟩) habs ⟨.init counter, .init counter⟩

/-- **The threads come to rest.**  From every state that the threads reach, whatever the order in
which they go on with what has begun: they take at most `work` steps; where they can take none,
nothing is left undone of what had been pushed; and such a state is reached. -/
theorem comes_to_rest (counter : UInt64) (evs : List (Event P)) (t : Threads P)
    (h : Transitions.run step (init counter) evs = some t) :
    (∀ evs' t', Transitions.run step t evs' = some t' → (∀ ev ∈ evs', ev.Finishing) →
        evs'.length ≤ t.work ∧ t'.pushed = t.pushed ∧ t'.stopped = t.stopped
          ∧ (t'.Quiet → t'.AtRest))
      ∧ ∃ evs' t', (∀ ev ∈ evs', ev.Finishing) ∧ Transitions.run step t evs' = some t'
          ∧ t'.AtRest := by
  have hsound : Sound t :=
    Transitions.run_invariant Sound (fun _ _ _ h hs => h.step hs) h (.init counter)
  have hrest : ∀ evs' t', Transitions.run step t evs' = some t' → t'.Quiet → t'.AtRest := by
    intro evs' t' h' hq
    have hrun : Transitions.run step (init counter) (evs ++ evs') = some t' := by
      rw [Transitions.run_append, h, Option.bind_some, h']
    obtain ⟨ho, hd⟩ := ordered_abs hrun
    exact atRest_of_quiet
      (Transitions.run_invariant Sound (fun _ _ _ h hs => h.step hs) h' hsound) ho hd hq
  refine ⟨fun evs' t' h' hevs => ?_, ?_⟩
  · have hle := Transitions.length_add_le Event.Finishing (fun _ _ _ h hs => Sound.step h hs)
      (fun _ _ _ _ hev hs => work_lt hev hs) h' hsound hevs
    obtain ⟨hpushed, hstopped⟩ := pushed_finishing h' hevs
    exact ⟨by omega, hpushed, hstopped, hrest evs' t' h'⟩
  · obtain ⟨evs', t', hevs, h', hq⟩ := Transitions.exists_rest Event.Finishing
      (fun _ _ _ h hs => Sound.step h hs) (fun _ _ _ _ hev hs => work_lt hev hs) hsound
    exact ⟨evs', t', hevs, h', hrest evs' t' h' hq⟩

/-- The matching thread sleeps, a read is queued and not yet announced, and `stop` has begun. -/
def busyEvents : List (Event ℤ) :=
  [.spawn, .spawn, .start 0, .test, .push 1 .bestBid, .stop 0]

/-- At most ten steps of work are left, and they lead to rest. -/
theorem comes_to_rest_sample :
    ∃ t, Transitions.run step (init 0) busyEvents = some t
      ∧ t.Blocked 1 ∧ t.stopCall = .flagged 0 ∧ t.work = 10
      ∧ ∃ evs' t', (∀ ev ∈ evs', ev.Finishing) ∧ Transitions.run step t evs' = some t'
          ∧ t'.AtRest := by
  have hrun : ∃ t ∈ Transitions.run step (init 0) busyEvents,
      t.Blocked 1 ∧ t.stopCall = .flagged 0 ∧ t.work = 10 := by
    decide
  obtain ⟨t, ht, hblocked, hcall, hwork⟩ := hrun
  exact ⟨t, ht, hblocked, hcall, hwork, (comes_to_rest 0 busyEvents t ht).2⟩

end Threads

end Leviathan
