import Leviathan.Engine.Linearizable

/-!
What `stop` leaves behind.

The queue takes a push at any time, also after the matching thread has seen it shut down and
empty and has left its loop.  `NothingStranded` says of a state in which the thread has exited
that every request pushed has been processed; `nothingStranded_iff` says in which runs this
holds all along: those in which no call pushes after the exit (`PushesBeforeExit`).
-/

namespace Leviathan

variable {P : Type*} [LinearOrder P]

/-- If the matching thread has exited, every request that was pushed has been processed, every
promise is fulfilled, and no caller of a read waits. -/
def NothingStranded (e : Execution P) : Prop :=
  e.engine.matchingThread = .exited →
    e.processed = e.pushed
      ∧ (∀ x ∈ e.pushed, x.request.hasPromise = true → x.promise ∈ e.fulfilled.map Prod.fst)
      ∧ ∀ producer, ¬ e.Blocked producer

/-- The step is no push, once the matching thread has exited. -/
def PushesBeforeExit (e : Execution P) (ev : Event P) : Prop :=
  e.engine.matchingThread = .exited → ev.pushed? = none

/-- Nothing is stranded where nothing is queued. -/
lemma nothingStranded_of_queue {e : Execution P} (h : Ordered e) :
    NothingStranded e ↔ (e.engine.matchingThread = .exited → e.engine.queue.queue = []) := by
  constructor
  · intro hn hx
    have heq := h.pushed
    rw [(hn hx).1] at heq
    simpa using heq
  · intro hq hx
    have heq := h.pushed
    rw [hq hx, List.append_nil] at heq
    have hful : ∀ x ∈ e.pushed, x.request.hasPromise = true →
        x.promise ∈ e.fulfilled.map Prod.fst := by
      intro x hx' hprom
      obtain ⟨k, hk⟩ := List.mem_iff_getElem?.mp hx'
      rw [h.promise k x hk]
      rw [heq] at hk
      exact h.kept k x hk hprom
    refine ⟨heq.symm, hful, ?_⟩
    rintro producer ⟨x, hx', -, hblocks, hnot⟩
    refine hnot (hful x hx' ?_)
    cases hr : x.request <;> rw [hr] at hblocks <;> first | rfl | cases hblocks

/-- **One step** strands a request exactly when it pushes after the exit. -/
lemma nothingStranded_step {e e' : Execution P} {ev : Event P} (ho : Ordered e)
    (hn : NothingStranded e) (hs : e.step ev = some e') :
    NothingStranded e' ↔ PushesBeforeExit e ev := by
  rw [nothingStranded_of_queue (ho.step hs)]
  rw [nothingStranded_of_queue ho] at hn
  rcases Execution.step_cases hs with ⟨rfl, rfl⟩ | ⟨producer, r, rfl, -, rfl⟩ | ⟨rfl, rfl⟩
    | ⟨rfl, rfl⟩ | ⟨rfl, -, hnil, -, rfl⟩ | ⟨rfl, hrun, x, queue, -, -, rfl⟩
  · exact iff_of_true hn fun _ => rfl
  · have hpush : (e.push producer r).engine.queue.queue ≠ [] := by
      simp [Execution.push, ThreadSafeQueue.push]
    constructor
    · intro h hx
      exact absurd (h hx) hpush
    · intro h hx
      cases h hx
  · refine iff_of_true (fun hx => ?_) fun _ => rfl
    simp only [MatchingEngine.start] at hx ⊢
    split_ifs at hx ⊢
    · exact hn hx
  · refine iff_of_true (fun hx => ?_) fun _ => rfl
    simp only [Execution.stop, MatchingEngine.stop, ThreadSafeQueue.signalShutdown] at hx ⊢
    split_ifs at hx ⊢
    · exact hn hx
    · exact hn hx
  · exact iff_of_true (fun _ => hnil) fun _ => rfl
  · refine iff_of_true (fun hx => ?_) fun _ => rfl
    simp only [Execution.process] at hx
    rw [hrun] at hx
    cases hx

/-- **Nothing is stranded along a run** exactly when no call of it pushes after the matching
thread has exited. -/
theorem nothingStranded_iff (counter : UInt64) (evs : List (Event P)) :
    (∀ e ∈ Transitions.trail Execution.step (Execution.init counter) evs, NothingStranded e)
      ↔ Transitions.Along Execution.step PushesBeforeExit (Execution.init counter) evs :=
  Transitions.trail_iff Ordered NothingStranded (fun _ _ _ ho hs => ho.step hs)
    (fun _ _ _ ho hn hs => nothingStranded_step ho hn hs) (.init counter)
    (fun h => (by cases h)) evs

/-- A call of `bestBid` after `stop` has returned: the thread has exited, the request stays in
the queue, its caller waits, and the matching thread takes no further step. -/
theorem bestBid_after_stop_stranded :
    ∃ e : Execution ℤ,
      Transitions.run Execution.step (Execution.init 0) [.start, .stop, .turn, .push 0 .bestBid]
          = some e
        ∧ e.engine.matchingThread = .exited ∧ e.pushed = [⟨0, 0, .bestBid⟩]
        ∧ e.processed = [] ∧ e.engine.queue.queue = [⟨0, 0, .bestBid⟩] ∧ e.Blocked 0
        ∧ e.step .turn = none ∧ ¬ NothingStranded e := by
  have hrun : ∃ e ∈ Transitions.run Execution.step (Execution.init 0 : Execution ℤ)
        [.start, .stop, .turn, .push 0 .bestBid],
      e.engine.matchingThread = .exited ∧ e.pushed = [⟨0, 0, .bestBid⟩]
        ∧ e.processed = [] ∧ e.engine.queue.queue = [⟨0, 0, .bestBid⟩] ∧ e.Blocked 0
        ∧ e.step .turn = none := by
    decide
  obtain ⟨e, he, hx, hpush, hproc, hq, hb, hturn⟩ := hrun
  exact ⟨e, he, hx, hpush, hproc, hq, hb, hturn, fun hn => (hn hx).2.2 0 hb⟩

end Leviathan
