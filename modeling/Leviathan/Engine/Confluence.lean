import Leviathan.Book.NonCrossing
import Leviathan.Engine.Linearizable

/-!
Flow that crosses nothing, through the engine.

Producers submit LIMIT orders whose buy prices lie below their sell prices.  Whatever the order in
which their pushes take the lock, no submission trades, and the book that remains is the one that
adding the orders one by one leaves (`Quiet`, kept by every step).  Two orders of arrival are
permutations of each other that agree on the orders of each producer (`Interleaves.perm`), so
`noncrossing_flow` follows from what `addAll` says about permuted lists.
-/

namespace Leviathan

variable {P : Type*} [LinearOrder P]

/-- The order an event submits, with its producer. -/
def Event.submitted? : Event P → Option (ℕ × Order P)
  | .push producer (.submit order) => some (producer, order)
  | _ => none

/-- What the producers submit, in the order in which they take the lock. -/
def submissions (evs : List (Event P)) : List (ℕ × Order P) := evs.filterMap Event.submitted?

/-- Lists of LIMIT orders of positive quantity, one for each producer, with distinct ids and every
buy price below every sell price. -/
structure Flow (lists : ℕ → List (Order P)) : Prop where
  limit : ∀ k, ∀ o ∈ lists k, o.type = .limit
  positive : ∀ k, ∀ o ∈ lists k, o.quantity ≠ 0
  apart : ∀ j k, ∀ x ∈ lists j, ∀ y ∈ lists k, x.side = .buy → y.side = .sell → x.price < y.price
  nodup : ∀ k, ((lists k).map Order.id).Nodup
  distinct : ∀ j k, j ≠ k → ∀ x ∈ lists j, ∀ y ∈ lists k, x.id ≠ y.id

/-- The pushes submit the orders of the lists, each producer its own in their order. -/
structure Interleaves (lists : ℕ → List (Order P)) (evs : List (Event P)) : Prop where
  submits : ∀ k r, Event.push k r ∈ evs → ∃ o, r = .submit o
  each : ∀ k, ((submissions evs).filter (·.1 = k)).map Prod.snd = lists k

/-- The events lead to `e`, with everything submitted and processed. -/
structure Served (lists : ℕ → List (Order P)) (counter : UInt64) (evs : List (Event P))
    (e : Execution P) : Prop where
  interleaves : Interleaves lists evs
  run : Transitions.run Execution.step (Execution.init counter) evs = some e
  processed : e.engine.queue.queue = []

/-! ### Merges of the producers' lists -/

section Merge

variable {α : Type*}

/-- A relation on a merge of lists: inside each list, and between any two. -/
lemma pairwise_of_filter {R : ℕ × α → ℕ × α → Prop} {l : List (ℕ × α)}
    (hin : ∀ k, (l.filter (·.1 = k)).Pairwise R)
    (hbetween : ∀ a ∈ l, ∀ b ∈ l, a.1 ≠ b.1 → R a b) : l.Pairwise R := by
  induction l with
  | nil => exact List.Pairwise.nil
  | cons a l ih =>
      refine List.pairwise_cons.mpr ⟨fun b hb => ?_, ih (fun k => ?_) ?_⟩
      · by_cases hab : a.1 = b.1
        · have ha := hin a.1
          rw [List.filter_cons_of_pos (by simp)] at ha
          exact List.rel_of_pairwise_cons ha (List.mem_filter.mpr ⟨hb, by simp [hab]⟩)
        · exact hbetween a List.mem_cons_self b (List.mem_cons_of_mem _ hb) hab
      · exact (hin k).sublist ((List.sublist_cons_self a l).filter _)
      · exact fun x hx y hy => hbetween x (List.mem_cons_of_mem _ hx) y (List.mem_cons_of_mem _ hy)

/-- Two merges of the same lists are permutations of each other. -/
lemma perm_of_filter {l l' : List (ℕ × α)}
    (h : ∀ k, (l.filter (·.1 = k)).map Prod.snd = (l'.filter (·.1 = k)).map Prod.snd) :
    l.Perm l' := by
  classical
  have hpairs : ∀ (m : List (ℕ × α)) (k : ℕ),
      ((m.filter (·.1 = k)).map Prod.snd).map (fun x => (k, x)) = m.filter (·.1 = k) := by
    intro m k
    rw [List.map_map]
    refine (List.map_congr_left fun a ha => ?_).trans (List.map_id _)
    have hk : a.1 = k := by simpa using (List.mem_filter.mp ha).2
    rw [← hk]
    rfl
  refine List.perm_iff_count.mpr fun a => ?_
  have hfilter : l.filter (·.1 = a.1) = l'.filter (·.1 = a.1) := by
    rw [← hpairs l, ← hpairs l', h]
  calc l.count a = (l.filter (·.1 = a.1)).count a := (List.count_filter (by simp)).symm
    _ = (l'.filter (·.1 = a.1)).count a := by rw [hfilter]
    _ = l'.count a := List.count_filter (by simp)

end Merge

namespace Interleaves

variable {lists : ℕ → List (Order P)} {evs evs' : List (Event P)}

omit [LinearOrder P] in
lemma mem_lists (h : Interleaves lists evs) {a : ℕ × Order P} (ha : a ∈ submissions evs) :
    a.2 ∈ lists a.1 := by
  rw [← h.each a.1]
  exact List.mem_map_of_mem (List.mem_filter.mpr ⟨ha, by simp⟩)

omit [LinearOrder P] in
/-- The orders submitted are those of the lists. -/
lemma mem_submissions (h : Interleaves lists evs) (o : Order P) :
    o ∈ (submissions evs).map Prod.snd ↔ ∃ k, o ∈ lists k := by
  constructor
  · intro ho
    obtain ⟨a, ha, rfl⟩ := List.mem_map.mp ho
    exact ⟨a.1, h.mem_lists ha⟩
  · rintro ⟨k, ho⟩
    rw [← h.each k] at ho
    exact ((List.filter_sublist (p := fun a => a.1 = k)).map Prod.snd).subset ho

lemma nodup (h : Interleaves lists evs) (hl : Flow lists) :
    (((submissions evs).map Prod.snd).map Order.id).Nodup := by
  rw [List.map_map]
  refine List.pairwise_map.mpr (pairwise_of_filter (fun k => ?_) fun a ha b hb hab => ?_)
  · have hk := hl.nodup k
    rw [← h.each k, List.map_map] at hk
    exact List.pairwise_map.mp hk
  · exact hl.distinct a.1 b.1 hab a.2 (h.mem_lists ha) b.2 (h.mem_lists hb)

omit [LinearOrder P] in
lemma perm (h : Interleaves lists evs) (h' : Interleaves lists evs') :
    ((submissions evs).map Prod.snd).Perm ((submissions evs').map Prod.snd) :=
  (perm_of_filter fun k => (h.each k).trans (h'.each k).symm).map Prod.snd

omit [LinearOrder P] in
/-- The pushes of such events are the submissions. -/
lemma pushed (h : ∀ k r, Event.push k r ∈ evs → ∃ o, r = Request.submit o) :
    evs.filterMap Event.pushed? = (submissions evs).map fun a => (a.1, Request.submit a.2) := by
  rw [submissions, List.map_filterMap]
  refine List.filterMap_congr fun ev hev => ?_
  cases ev with
  | push k r =>
      obtain ⟨o, rfl⟩ := h k r hev
      rfl
  | construct => rfl
  | start => rfl
  | stop => rfl
  | turn => rfl

end Interleaves

/-! ### One step -/

/-- No submission has traded, and the book is what adding the orders leaves. -/
def Quiet (e : Execution P) : Prop :=
  ∃ os : List (Order P), e.processed.map Posted.request = os.map Request.submit
    ∧ e.engine.book = addAll os ∧ ∀ a ∈ e.fulfilled, a.2 = .trades []

namespace Quiet

variable {lists : ℕ → List (Order P)} {e : Execution P}

/-- A step that touches neither the book nor the history. -/
lemma congr {e' : Execution P} (h : Quiet e) (hbook : e'.engine.book = e.engine.book)
    (hproc : e'.processed = e.processed) (hful : e'.fulfilled = e.fulfilled) : Quiet e' := by
  rw [Quiet, hbook, hproc, hful]
  exact h

/-- The order at the front of the queue crosses none of those before it. -/
lemma process (hl : Flow lists) (h : Quiet e) (ho : Ordered e) {x : Posted P}
    {queue : ThreadSafeQueue (Posted P)} (hq : e.engine.queue.queue = x :: queue.queue)
    (hpushed : ∀ x ∈ e.pushed, ∃ o k, x.request = .submit o ∧ o ∈ lists k) :
    Quiet (e.process x queue) := by
  obtain ⟨os, hproc, hbook, hful⟩ := h
  have hmem : x ∈ e.pushed := by
    rw [ho.pushed, hq]
    exact List.mem_append_right _ List.mem_cons_self
  obtain ⟨o, k, hx, hok⟩ := hpushed x hmem
  have hos : ∀ m ∈ os, ∃ j, m ∈ lists j := by
    intro m hm
    have hreq : Request.submit m ∈ e.processed.map Posted.request :=
      hproc ▸ List.mem_map_of_mem hm
    obtain ⟨y, hy, hym⟩ := List.mem_map.mp hreq
    obtain ⟨o', j, hy', hj⟩ := hpushed y (ho.pushed ▸ List.mem_append_left _ hy)
    rw [hym] at hy'
    exact ⟨j, Request.submit.inj hy' ▸ hj⟩
  have hno : ∀ m ∈ (addAll os).resting o.side.opposite, ¬ o.Crosses m.price := by
    intro m hm
    obtain ⟨hmos, hms⟩ := mem_resting_addAll.mp hm
    obtain ⟨j, hj⟩ := hos m hmos
    have hlim := hl.limit k o hok
    cases hside : o.side with
    | buy =>
        rw [hside] at hms
        have hlt := hl.apart k j o hok m hj hside hms
        simp [Order.Crosses, Side.Within, hlim, hside, not_le.mpr hlt]
    | sell =>
        rw [hside] at hms
        have hlt := hl.apart j k m hj o hok hms hside
        simp [Order.Crosses, Side.Within, hlim, hside, not_le.mpr hlt]
  have hsub : submitOrder e.engine.book o = ([], addAll (os ++ [o])) := by
    rw [hbook, addAll_concat]
    exact submitOrder_of_no_cross (wf_addAll os) (hl.limit k o hok) (hl.positive k o hok) hno
  refine ⟨os ++ [o], ?_, ?_, ?_⟩
  · simp only [Execution.process, List.map_append, List.map_singleton, hproc, hx]
  · simp only [Execution.process, hx, processRequest, hsub]
  · intro a ha
    simp only [Execution.process, hx, processRequest, hsub, Option.map_some, Option.toList_some]
      at ha
    rcases List.mem_append.mp ha with ha | ha
    · exact hful a ha
    · rw [List.mem_singleton.mp ha]

lemma step (hl : Flow lists) (h : Quiet e) (ho : Ordered e) {ev : Event P} {e' : Execution P}
    (hs : e.step ev = some e')
    (hpushed : ∀ x ∈ e.pushed, ∃ o k, x.request = .submit o ∧ o ∈ lists k) : Quiet e' := by
  rcases Execution.step_cases hs with ⟨-, rfl⟩ | ⟨producer, r, -, -, rfl⟩ | ⟨-, rfl⟩ | ⟨-, rfl⟩
    | ⟨-, -, -, -, rfl⟩ | ⟨-, -, x, queue, hq, -, rfl⟩
  · exact h.congr rfl rfl rfl
  · exact h.congr rfl rfl rfl
  · refine h.congr ?_ rfl rfl
    simp only [MatchingEngine.start]
    split_ifs <;> rfl
  · refine h.congr ?_ rfl rfl
    simp only [Execution.stop, MatchingEngine.stop]
    split_ifs <;> rfl
  · exact h.congr rfl rfl rfl
  · exact process hl h ho hq hpushed

end Quiet

/-- What has been pushed stays. -/
lemma pushed_subset {e e' : Execution P} {ev : Event P} (hs : e.step ev = some e') :
    e.pushed ⊆ e'.pushed := by
  rcases Execution.step_cases hs with ⟨-, rfl⟩ | ⟨producer, r, -, -, rfl⟩ | ⟨-, rfl⟩ | ⟨-, rfl⟩
    | ⟨-, -, -, -, rfl⟩ | ⟨-, -, x, queue, -, -, rfl⟩
  · exact List.Subset.refl _
  · exact List.subset_append_left _ _
  · exact List.Subset.refl _
  · exact List.Subset.refl _
  · exact List.Subset.refl _
  · exact List.Subset.refl _

/-! ### Whole runs -/

section Flow

variable {lists : ℕ → List (Order P)} {counter : UInt64} {evs rest : List (Event P)}
  {e : Execution P}

/-- The beginning of a run of such a flow. -/
lemma quiet_run (hl : Flow lists) (hi : Interleaves lists (evs ++ rest))
    (h : Transitions.run Execution.step (Execution.init counter) evs = some e) :
    Ordered e ∧ Quiet e
      ∧ e.pushed.map (fun x => (x.producer, x.request))
        = (submissions evs).map fun a => (a.1, Request.submit a.2) := by
  have hpushes : e.pushed.map (fun x => (x.producer, x.request))
      = (submissions evs).map fun a => (a.1, Request.submit a.2) := by
    rw [pushed_run h, Interleaves.pushed fun k r hr => hi.submits k r (List.mem_append_left _ hr)]
    rfl
  have hgood : ∀ x ∈ e.pushed, ∃ o k, x.request = .submit o ∧ o ∈ lists k := by
    intro x hx
    have hmem : (x.producer, x.request)
        ∈ (submissions evs).map fun a => (a.1, Request.submit a.2) :=
      hpushes ▸ List.mem_map_of_mem hx
    obtain ⟨a, ha, heq⟩ := List.mem_map.mp hmem
    have hall : a ∈ submissions (evs ++ rest) := by
      rw [submissions, List.filterMap_append]
      exact List.mem_append_left _ ha
    exact ⟨a.2, a.1, (Prod.mk.inj heq).2.symm, hi.mem_lists hall⟩
  -- the pushes grow along the run, so they are of the lists at every state on the way
  have hrun := Transitions.run_invariant (fun e : Execution P => Ordered e
      ∧ ((∀ x ∈ e.pushed, ∃ o k, x.request = .submit o ∧ o ∈ lists k) → Quiet e))
    (fun _ _ _ hinv hs => ⟨hinv.1.step hs, fun hgood =>
      have hbefore := fun x hx => hgood x (pushed_subset hs hx)
      (hinv.2 hbefore).step hl hinv.1 hs hbefore⟩) h
    ⟨.init counter, fun _ => ⟨[], rfl, rfl, fun a ha => by simp [Execution.init] at ha⟩⟩
  exact ⟨hrun.1, hrun.2 hgood, hpushes⟩

/-- The book of a flow that has been served. -/
lemma Served.book_eq (hl : Flow lists) (h : Served lists counter evs e) :
    e.engine.book = addAll ((submissions evs).map Prod.snd) := by
  have hi : Interleaves lists (evs ++ []) := by simpa using h.interleaves
  obtain ⟨ho, ⟨os, hproc, hbook, -⟩, hpushes⟩ := quiet_run hl hi h.run
  have hos : os.map Request.submit = ((submissions evs).map Prod.snd).map Request.submit := by
    have hreq := congrArg (List.map Prod.snd) hpushes
    rw [ho.pushed, h.processed, List.append_nil, List.map_map, List.map_map] at hreq
    rw [← hproc, List.map_map]
    exact hreq
  rw [hbook, (List.map_injective_iff.mpr fun _ _ heq => Request.submit.inj heq) hos]

/-- **Non-crossing flow is order-independent.**  Producers submit LIMIT orders of positive
quantity with distinct ids, every buy price below every sell price.  In every interleaving no
future yields a trade.  When all has been processed every future has been fulfilled; the book
holds the submitted orders, whole, each in the queue of its side and price, the orders of one
producer as it submitted them; and the queues up to order, and the answers of the queries, are
those of every other interleaving. -/
theorem noncrossing_flow (hl : Flow lists) :
    (∀ counter evs rest e, Interleaves lists (evs ++ rest) →
        Transitions.run Execution.step (Execution.init counter) evs = some e →
          ∀ a ∈ e.fulfilled, a.2 = .trades [])
      ∧ (∀ counter evs e, Served lists counter evs e →
          (∀ k < (submissions evs).length, (k, .trades []) ∈ e.fulfilled)
            ∧ e.engine.book.restingAll.Perm ((submissions evs).map Prod.snd)
            ∧ (∀ s p o, o ∈ e.engine.book.queueAt s p
                ↔ (∃ k, o ∈ lists k) ∧ o.side = s ∧ o.price = p)
            ∧ ∀ k s p, ((lists k).filter fun o => o.side = s ∧ o.price = p).Sublist
                (e.engine.book.queueAt s p))
      ∧ ∀ counter evs e counter' evs' e', Served lists counter evs e →
          Served lists counter' evs' e' →
            (∀ s p, (e.engine.book.queueAt s p).Perm (e'.engine.book.queueAt s p))
              ∧ totalOrderCount e.engine.book = totalOrderCount e'.engine.book
              ∧ bestBid e.engine.book = bestBid e'.engine.book
              ∧ bestAsk e.engine.book = bestAsk e'.engine.book
              ∧ ∀ maxSize s maxLevels, getDepth maxSize e.engine.book s maxLevels
                  = getDepth maxSize e'.engine.book s maxLevels := by
  refine ⟨fun counter evs rest e hi h => ?_, fun counter evs e h => ⟨?_, ?_, ?_, ?_⟩,
    fun counter evs e counter' evs' e' h h' => ?_⟩
  · obtain ⟨-, ⟨os, -, -, hful⟩, -⟩ := quiet_run hl hi h
    exact hful
  · have hi : Interleaves lists (evs ++ []) := by simpa using h.interleaves
    obtain ⟨ho, ⟨os, -, -, hful⟩, hpushes⟩ := quiet_run hl hi h.run
    intro k hk
    have hproc : e.pushed = e.processed := by simpa [h.processed] using ho.pushed
    have hlen : k < e.processed.length := by
      have hlength := congrArg List.length hpushes
      rw [List.length_map, List.length_map, hproc] at hlength
      omega
    have hx : e.processed[k]? = some e.processed[k] := List.getElem?_eq_getElem hlen
    have hprom : e.processed[k].request.hasPromise = true := by
      have hmem : (e.processed[k].producer, e.processed[k].request)
          ∈ (submissions evs).map fun a => (a.1, Request.submit a.2) := by
        rw [← hpushes, hproc]
        exact List.mem_map_of_mem (List.getElem_mem hlen)
      obtain ⟨a, -, heq⟩ := List.mem_map.mp hmem
      rw [← (Prod.mk.inj heq).2]
      rfl
    obtain ⟨⟨k', v⟩, hkv, rfl⟩ := List.mem_map.mp (ho.kept k _ hx hprom)
    have hv : v = .trades [] := hful _ hkv
    exact hv ▸ hkv
  · rw [h.book_eq hl]
    exact restingAll_addAll _
  · intro s p o
    rw [h.book_eq hl, queueAt_addAll, ← h.interleaves.mem_submissions o]
    simp
  · intro k s p
    rw [h.book_eq hl, queueAt_addAll, ← h.interleaves.each k]
    exact ((List.filter_sublist (p := fun a => a.1 = k)).map Prod.snd).filter _
  · rw [h.book_eq hl, h'.book_eq hl]
    exact addAll_perm (h.interleaves.perm h'.interleaves) (h.interleaves.nodup hl)

end Flow

/-- Two producers: one bids twice at a price, the other bids there once and offers above. -/
def sampleFlow : ℕ → List (Order ℤ)
  | 0 => [⟨1, .buy, 100, 5, 0, .limit⟩, ⟨2, .buy, 100, 2, 1, .limit⟩]
  | 1 => [⟨3, .sell, 101, 4, 2, .limit⟩, ⟨4, .buy, 100, 1, 3, .limit⟩]
  | _ => []

lemma flow_sampleFlow : Flow sampleFlow where
  limit := by rintro (_ | _ | k) <;> simp [sampleFlow]
  positive := by rintro (_ | _ | k) <;> simp [sampleFlow]
  apart := by rintro (_ | _ | j) (_ | _ | k) <;> simp [sampleFlow]
  nodup := by rintro (_ | _ | k) <;> simp [sampleFlow]
  distinct := by rintro (_ | _ | j) (_ | _ | k) <;> simp [sampleFlow]

/-- The second producer comes last. -/
def sampleEarly : List (Event ℤ) :=
  [.push 0 (.submit ⟨1, .buy, 100, 5, 0, .limit⟩), .push 0 (.submit ⟨2, .buy, 100, 2, 1, .limit⟩),
   .start, .turn, .push 1 (.submit ⟨3, .sell, 101, 4, 2, .limit⟩), .turn,
   .push 1 (.submit ⟨4, .buy, 100, 1, 3, .limit⟩), .turn, .turn]

/-- The second producer comes in between. -/
def sampleLate : List (Event ℤ) :=
  [.push 1 (.submit ⟨3, .sell, 101, 4, 2, .limit⟩), .push 0 (.submit ⟨1, .buy, 100, 5, 0, .limit⟩),
   .push 1 (.submit ⟨4, .buy, 100, 1, 3, .limit⟩), .push 0 (.submit ⟨2, .buy, 100, 2, 1, .limit⟩),
   .start, .turn, .turn, .turn, .turn]

/-- Events of two producers that submit what `sampleFlow` lists. -/
lemma interleaves_sampleFlow {evs : List (Event ℤ)}
    (hpush : ∀ ev ∈ evs, ev.submitted? = none → ev = .start ∨ ev = .turn)
    (hfew : ∀ a ∈ submissions evs, a.1 < 2)
    (hzero : ((submissions evs).filter (·.1 = 0)).map Prod.snd = sampleFlow 0)
    (hone : ((submissions evs).filter (·.1 = 1)).map Prod.snd = sampleFlow 1) :
    Interleaves sampleFlow evs where
  submits k r hr := by
    cases r with
    | submit o => exact ⟨o, rfl⟩
    | _ => simpa using hpush _ hr rfl
  each := by
    rintro (_ | _ | k)
    · exact hzero
    · exact hone
    · have hnone : ∀ a ∈ submissions evs, ¬ a.1 = k + 2 := fun a ha => by
        have := hfew a ha
        omega
      rw [List.filter_eq_nil_iff.mpr (by simpa using hnone)]
      rfl

lemma interleaves_sampleEarly : Interleaves sampleFlow sampleEarly :=
  interleaves_sampleFlow (by decide) (by decide) rfl rfl

lemma interleaves_sampleLate : Interleaves sampleFlow sampleLate :=
  interleaves_sampleFlow (by decide) (by decide) rfl rfl

/-- The two queues differ in their order only. -/
theorem noncrossing_flow_sample :
    ∃ e e', Transitions.run Execution.step (Execution.init 4) sampleEarly = some e
      ∧ Transitions.run Execution.step (Execution.init 4) sampleLate = some e'
      ∧ (e.engine.book.queueAt .buy 100).map Order.id = [1, 2, 4]
      ∧ (e'.engine.book.queueAt .buy 100).map Order.id = [1, 4, 2]
      ∧ (∀ a ∈ e.fulfilled ++ e'.fulfilled, a.2 = .trades [])
      ∧ getDepth 10 e.engine.book .buy 1 = getDepth 10 e'.engine.book .buy 1 := by
  have hrun : ∃ e ∈ Transitions.run Execution.step (Execution.init 4) sampleEarly,
      e.engine.queue.queue = [] ∧ (e.engine.book.queueAt .buy 100).map Order.id = [1, 2, 4] := by
    decide
  have hrun' : ∃ e ∈ Transitions.run Execution.step (Execution.init 4) sampleLate,
      e.engine.queue.queue = [] ∧ (e.engine.book.queueAt .buy 100).map Order.id = [1, 4, 2] := by
    decide
  obtain ⟨e, he, hq, hids⟩ := hrun
  obtain ⟨e', he', hq', hids'⟩ := hrun'
  obtain ⟨hquiet, -, hsame⟩ := noncrossing_flow flow_sampleFlow
  refine ⟨e, e', he, he', hids, hids', fun a ha => ?_,
    (hsame 4 sampleEarly e 4 sampleLate e' ⟨interleaves_sampleEarly, he, hq⟩
      ⟨interleaves_sampleLate, he', hq'⟩).2.2.2.2 10 .buy 1⟩
  rcases List.mem_append.mp ha with ha | ha
  · exact hquiet 4 sampleEarly [] e (by simpa using interleaves_sampleEarly) he a ha
  · exact hquiet 4 sampleLate [] e' (by simpa using interleaves_sampleLate) he' a ha

end Leviathan
