import Leviathan.Foundations.Transitions
import Leviathan.Log.TornLine

/-!
Crashes of a recorder.

Every method of `RecordingOrderBook` writes its request line and flushes it before it touches the
book, and writes and flushes the TRADE lines behind that, before it returns.  `Recorder.step` takes
a method apart at these points.

A crash leaves of the text what was flushed, and of the rest what happened to be written through:
some first lines of the log.  `crash_recovery` says what replaying them gives, at whatever step the
crash comes: the book of the calls executed, or of these and the one whose request line was
written; and no trade that was returned to a caller is missing from the log.
-/

namespace Leviathan

variable {P : Type*} [LinearOrder P]

/-! ### The steps of a recorder -/

/-- Where a method of the recorder is: its request line written, the line flushed, the book changed
and trades to be logged. -/
inductive Stage (P : Type*) where
  | idle
  | requested (c : Call P)
  | flushed (c : Call P)
  | executed (response : Response P) (unlogged : List (Trade P))
  deriving DecidableEq

/-- A recorder among its callers: the text that is sure to survive, the call it is in, the calls
begun and the responses returned. -/
structure Recorder (P : Type*) where
  live : RecordingOrderBook P
  durable : List Char
  stage : Stage P
  begun : List (Call P)
  returned : List (Response P)

namespace Recorder

/-- A step of a method. -/
inductive Event (P : Type*) where
  | begin (c : Call P)
  | flush
  | execute
  | logTrade
  | finish
  deriving DecidableEq

omit [LinearOrder P] in
/-- A recorder on an empty stream. -/
def init : Recorder P := ⟨RecordingOrderBook.empty, [], .idle, [], []⟩

/-- One step. -/
def step (fmt : PriceFormat P) (s : Recorder P) (ev : Event P) : Option (Recorder P) :=
  match s.stage, ev with
  | .idle, .begin c =>
      some { s with
        live := s.live.write fun seq => requestLine fmt seq c
        stage := .requested c
        begun := s.begun ++ [c] }
  | .requested c, .flush => some { s with durable := s.live.log, stage := .flushed c }
  | .flushed c, .execute =>
      let r := call s.live.book c
      some { s with
        live := { s.live with book := r.2 }
        stage := .executed r.1 r.1.tradeList }
  | .executed response (t :: ts), .logTrade =>
      some { s with
        live := s.live.write fun seq => tradeLine fmt seq t
        stage := .executed response ts }
  | .executed response [], .finish =>
      some { s with
        durable := if response.tradeList = [] then s.durable else s.live.log
        stage := .idle
        returned := s.returned ++ [response] }
  | _, _ => none

/-! ### The states that are reached -/

section Lines

variable (fmt : PriceFormat P)

/-- The recorder that has written the request line of a call. -/
def requested (done : List (Call P)) (c : Call P) : RecordingOrderBook P :=
  (RecordingOrderBook.record fmt done).write fun seq => requestLine fmt seq c

/-- The recorder that has executed a call and logged some of its trades. -/
def logged (done : List (Call P)) (c : Call P) (ts : List (Trade P)) : RecordingOrderBook P :=
  RecordingOrderBook.logTrades fmt
    { requested fmt done c with book := (call (RecordingOrderBook.record fmt done).book c).2 } ts

omit [LinearOrder P] in
lemma logTrades_concat (r : RecordingOrderBook P) (ts : List (Trade P)) (t : Trade P) :
    r.logTrades fmt (ts ++ [t])
      = (r.logTrades fmt ts).write fun seq => tradeLine fmt seq t := by
  induction ts generalizing r with
  | nil => rfl
  | cons u ts ih => exact ih _

/-- A method of the recorder is its steps. -/
lemma call_eq_logged (done : List (Call P)) (c : Call P) :
    ((RecordingOrderBook.record fmt done).call fmt c).2
      = logged fmt done c (call (RecordingOrderBook.record fmt done).book c).1.tradeList := by
  cases c with
  | addOrder o => rfl
  | cancelOrder id => rfl
  | submitOrder o => rfl
  | modifyOrder counter id p q =>
      rw [tradeList_modifyOrder]
      rfl

lemma record_concat (done : List (Call P)) (c : Call P) :
    RecordingOrderBook.record fmt (done ++ [c])
      = ((RecordingOrderBook.record fmt done).call fmt c).2 :=
  Machine.final_append _ _ done [c]

end Lines

/-- The recorder stands behind the calls `done`, which have returned, and is idle or somewhere in
one more. -/
inductive Behind (fmt : PriceFormat P) (done : List (Call P)) : Recorder P → Prop where
  | idle : Behind fmt done
      ⟨RecordingOrderBook.record fmt done, (RecordingOrderBook.record fmt done).log, .idle, done,
        responses done⟩
  | requested (c : Call P) : Behind fmt done
      ⟨requested fmt done c, (RecordingOrderBook.record fmt done).log, .requested c, done ++ [c],
        responses done⟩
  | flushed (c : Call P) : Behind fmt done
      ⟨Recorder.requested fmt done c, (Recorder.requested fmt done c).log, .flushed c, done ++ [c],
        responses done⟩
  | executed (c : Call P) (ts unlogged : List (Trade P))
      (h : (call (after done) c).1.tradeList = ts ++ unlogged) : Behind fmt done
      ⟨logged fmt done c ts, (Recorder.requested fmt done c).log,
        .executed (call (after done) c).1 unlogged, done ++ [c], responses done⟩

section Behind

variable {fmt : PriceFormat P} {done : List (Call P)}

lemma responses_concat (c : Call P) :
    responses (done ++ [c]) = responses done ++ [(call (after done) c).1] :=
  Machine.answers_append call OrderBook.empty done [c]

/-- **A step** leaves the recorder behind the same calls, or behind one more. -/
lemma Behind.step {s s' : Recorder P} {ev : Event P} (h : Behind fmt done s)
    (hs : s.step fmt ev = some s') : ∃ done', Behind fmt done' s' := by
  cases h with
  | idle =>
      cases ev with
      | begin c =>
          obtain rfl := Option.some.inj hs
          exact ⟨done, .requested c⟩
      | _ => cases hs
  | requested c =>
      cases ev with
      | flush =>
          obtain rfl := Option.some.inj hs
          exact ⟨done, .flushed c⟩
      | _ => cases hs
  | flushed c =>
      cases ev with
      | execute =>
          obtain rfl := Option.some.inj hs
          have hbook : (Recorder.requested fmt done c).book = after done := book_record fmt done
          have hstart : Behind fmt done _ :=
            .executed c [] (call (after done) c).1.tradeList rfl
          refine ⟨done, ?_⟩
          simp only [hbook]
          rw [logged, RecordingOrderBook.logTrades, book_record] at hstart
          exact hstart
      | _ => cases hs
  | executed c ts unlogged h =>
      cases ev with
      | logTrade =>
          cases unlogged with
          | nil => cases hs
          | cons t rest =>
              obtain rfl := Option.some.inj hs
              have hnext : Behind fmt done _ :=
                .executed c (ts ++ [t]) rest (by rw [h, List.append_assoc]; rfl)
              rw [logged, logTrades_concat] at hnext
              exact ⟨done, hnext⟩
      | finish =>
          cases unlogged with
          | nil =>
              obtain rfl := Option.some.inj hs
              rw [List.append_nil] at h
              have hidle : Behind fmt (done ++ [c]) _ := .idle
              have hlog : (if (call (after done) c).1.tradeList = []
                  then (Recorder.requested fmt done c).log else (logged fmt done c ts).log)
                    = (logged fmt done c ts).log := by
                split_ifs with hnil
                · rw [← h, hnil]
                  rfl
                · rfl
              have hcall := call_eq_logged fmt done c
              rw [book_record, h] at hcall
              rw [record_concat, hcall, responses_concat] at hidle
              exact ⟨done ++ [c], by simpa only [hlog] using hidle⟩
          | cons t rest => cases hs
      | _ => cases unlogged <;> cases hs

end Behind

/-! ### What a crash leaves -/

section Lines

omit [LinearOrder P] in
lemma length_unlines (ls : List (List Char)) :
    (unlines ls).length = ls.length + (ls.map List.length).sum := by
  induction ls with
  | nil => rfl
  | cons l ls ih =>
      have htext : unlines (l :: ls) = l ++ '\n' :: unlines ls := by simp [unlines]
      rw [htext, List.length_append, List.length_cons, ih, List.length_cons, List.map_cons,
        List.sum_cons]
      omega

/-- What holds the text of `a` lines holds `a` lines. -/
lemma le_of_unlines_prefix {ls : List (List Char)} {a b : ℕ} (ha : a ≤ ls.length)
    (h : unlines (ls.take a) <+: unlines (ls.take b)) : a ≤ b := by
  by_contra hlt
  have hsplit : ls.take a = ls.take b ++ (ls.take a).drop b := by
    calc ls.take a = (ls.take a).take b ++ (ls.take a).drop b :=
          (List.take_append_drop b (ls.take a)).symm
      _ = ls.take b ++ (ls.take a).drop b := by rw [List.take_take, Nat.min_eq_left (by omega)]
  have hlen := h.length_le
  rw [hsplit, unlines_append, List.length_append, length_unlines ((ls.take a).drop b),
    List.length_drop, List.length_take] at hlen
  omega

end Lines

variable {fmt : PriceFormat P}

/-- The number of lines of a run, call by call. -/
lemma length_runLines_take_lt (fmt : PriceFormat P) (done : List (Call P)) {i : ℕ}
    (hi : i < done.length) : (runLines fmt RecordingOrderBook.empty (done.take i)).length
      < (runLines fmt RecordingOrderBook.empty done).length := by
  have hle := length_tradesOf_take (OrderBook.empty : OrderBook P) done i
  rw [length_runLines, length_runLines, List.length_take]
  have hbook : (RecordingOrderBook.empty : RecordingOrderBook P).book = OrderBook.empty := rfl
  rw [hbook]
  omega

/-- **A cut in the lines of the last call**: the call is executed when its request line is there,
and the trades of the calls before it are recorded. -/
lemma cut_last {done : List (Call P)} {c : Call P} {st : Replay P} {k n m : ℕ}
    (h : CutAt fmt RecordingOrderBook.empty st (done ++ [c]) k n m)
    (hk : (runLines fmt RecordingOrderBook.empty done).length ≤ k) :
    (n = if (runLines fmt RecordingOrderBook.empty done).length < k then done.length + 1
        else done.length)
      ∧ (tradesOf OrderBook.empty done).length ≤ m := by
  have hn := h.n_le
  have hlines := h.lines
  have hlast := h.calls done.length (by simp)
  rw [List.take_left] at hlast
  rw [List.length_append, List.length_singleton] at hn
  have hge : done.length ≤ n := by
    rcases Nat.eq_zero_or_pos done.length with h0 | hpos
    · omega
    · have hcall := h.calls (done.length - 1) (by rw [List.length_append]; omega)
      rw [List.take_append_of_le_length (by omega)] at hcall
      have hlt := length_runLines_take_lt fmt done (show done.length - 1 < _ by omega)
      omega
  have htotal : (runLines fmt RecordingOrderBook.empty done).length = _ := length_runLines _ done
  have htotal' : (runLines fmt RecordingOrderBook.empty (done ++ [c])).length = _ :=
    length_runLines _ (done ++ [c])
  have hbook : (RecordingOrderBook.empty : RecordingOrderBook P).book = OrderBook.empty := rfl
  have hmore := length_tradesOf_take (OrderBook.empty : OrderBook P) (done ++ [c]) done.length
  rw [List.take_left] at hmore
  rw [hbook] at htotal htotal'
  rw [List.length_append, List.length_singleton] at htotal'
  split_ifs with hlt
  · have hn' : n = done.length + 1 := by omega
    exact ⟨hn', by omega⟩
  · have hn' : n = done.length := by omega
    exact ⟨hn', by omega⟩

/-! ### What the recorder has written -/

lemma runLines_concat (done : List (Call P)) (c : Call P) :
    runLines fmt RecordingOrderBook.empty (done ++ [c])
      = runLines fmt RecordingOrderBook.empty done
        ++ callLines fmt (RecordingOrderBook.record fmt done) c := by
  rw [runLines_append, runLines, runLines, List.append_nil]
  rfl

/-- The lines up to some TRADE line of the last call. -/
lemma take_runLines_concat (fmt : PriceFormat P) (done : List (Call P)) (c : Call P) (m : ℕ) :
    unlines ((runLines fmt RecordingOrderBook.empty (done ++ [c])).take
        ((runLines fmt RecordingOrderBook.empty done).length + (m + 1)))
      = (requested fmt done c).log
        ++ unlines (tradeLines fmt (requested fmt done c).seq
          ((call (after done) c).1.tradeList.take m)) := by
  calc unlines ((runLines fmt RecordingOrderBook.empty (done ++ [c])).take
          ((runLines fmt RecordingOrderBook.empty done).length + (m + 1)))
      = unlines (runLines fmt RecordingOrderBook.empty done)
          ++ unlines (requestLine fmt (RecordingOrderBook.record fmt done).seq c
            :: tradeLines fmt ((RecordingOrderBook.record fmt done).seq + 1)
              ((call (after done) c).1.tradeList.take m)) := by
        rw [runLines_concat, List.take_length_add_append, take_callLines, book_record,
          unlines_append]
    _ = _ := by
        rw [← log_record]
        simp [requested, RecordingOrderBook.write, RecordingOrderBook.nextSeq, unlines]

/-- The call whose request is written, or flushed too, while the book is not yet changed. -/
def pending? (s : Recorder P) : Option (Call P) :=
  match s.stage with
  | .requested c | .flushed c => some c
  | _ => none

/-- The recorder has written `written` lines of its calls and flushed `safe` of them; all lines of
the calls `done`, which have returned, are flushed, and so is a request line that the book has
executed. -/
structure Written (fmt : PriceFormat P) (done : List (Call P)) (s : Recorder P) (written safe : ℕ) :
    Prop where
  log : s.live.log = unlines ((runLines fmt RecordingOrderBook.empty s.begun).take written)
  durable : s.durable = unlines ((runLines fmt RecordingOrderBook.empty s.begun).take safe)
  done_le : (runLines fmt RecordingOrderBook.empty done).length ≤ safe
  safe_le : safe ≤ (runLines fmt RecordingOrderBook.empty s.begun).length
  returned : s.returned = responses done
  book : s.begun = done ∧ s.live.book = after done
    ∨ ∃ c, s.begun = done ++ [c] ∧ (s.pending? = some c ∧ s.live.book = after done
      ∨ (runLines fmt RecordingOrderBook.empty done).length < safe
        ∧ s.live.book = (call (after done) c).2)

/-- **The lines of a recorder**, wherever its method stands. -/
lemma Behind.written {done : List (Call P)} {s : Recorder P} (h : Behind fmt done s) :
    ∃ written safe, Written fmt done s written safe := by
  have hbook : (RecordingOrderBook.record fmt done).book = after done := book_record fmt done
  have hfront : ∀ c, unlines ((runLines fmt RecordingOrderBook.empty (done ++ [c])).take
      (runLines fmt RecordingOrderBook.empty done).length)
        = (RecordingOrderBook.record fmt done).log := by
    intro c
    rw [runLines_concat, List.take_left, log_record]
  have hrequest : ∀ c, unlines ((runLines fmt RecordingOrderBook.empty (done ++ [c])).take
      ((runLines fmt RecordingOrderBook.empty done).length + 1))
        = (Recorder.requested fmt done c).log := by
    intro c
    have h := take_runLines_concat fmt done c 0
    rw [List.take_zero, tradeLines] at h
    exact h.trans (List.append_nil _)
  have hlen : ∀ c, (runLines fmt RecordingOrderBook.empty done).length + 1
      ≤ (runLines fmt RecordingOrderBook.empty (done ++ [c])).length := by
    intro c
    rw [runLines_concat, List.length_append, length_callLines]
    omega
  cases h with
  | idle =>
      refine ⟨(runLines fmt RecordingOrderBook.empty done).length, _,
        ⟨?_, ?_, le_rfl, le_rfl, rfl, .inl ⟨rfl, hbook⟩⟩⟩
      · rw [List.take_length, log_record]
      · rw [List.take_length, log_record]
  | requested c =>
      exact ⟨_, _, ⟨(hrequest c).symm, (hfront c).symm, le_rfl, (Nat.le_succ _).trans (hlen c), rfl,
        .inr ⟨c, rfl, .inl ⟨rfl, hbook⟩⟩⟩⟩
  | flushed c =>
      exact ⟨_, _, ⟨(hrequest c).symm, (hrequest c).symm, Nat.le_succ _, hlen c, rfl,
        .inr ⟨c, rfl, .inl ⟨rfl, hbook⟩⟩⟩⟩
  | executed c ts unlogged h =>
      obtain ⟨hafter, hlog⟩ := logTrades_eq fmt
        { Recorder.requested fmt done c with
          book := (call (RecordingOrderBook.record fmt done).book c).2 } ts
      refine ⟨(runLines fmt RecordingOrderBook.empty done).length + (ts.length + 1), _,
        ⟨?_, (hrequest c).symm, Nat.le_succ _, hlen c, rfl,
          .inr ⟨c, rfl, .inr ⟨Nat.lt_succ_self _, ?_⟩⟩⟩⟩
      · have hall := take_runLines_concat fmt done c ts.length
        rw [h, List.take_left] at hall
        exact hlog.trans hall.symm
      · rw [← hbook]
        exact hafter

/-! ### The theorem -/

lemma behind_init : Behind fmt [] (init : Recorder P) := .idle

lemma behind_run {evs : List (Event P)} {s : Recorder P}
    (h : Transitions.run (Recorder.step fmt) Recorder.init evs = some s) :
    ∃ done, Behind fmt done s := by
  refine Transitions.run_invariant (fun s => ∃ done, Behind fmt done s) ?_ h ⟨[], behind_init⟩
  rintro s ev s' ⟨done, hdone⟩ hs
  exact hdone.step hs

lemma tradesOf_startsWith (b : OrderBook P) (cs cs' : List (Call P)) :
    tradesOf b cs <+: tradesOf b (cs ++ cs') := by
  rw [tradesOf, tradesOf, Machine.answers_append, List.flatMap_append]
  exact List.prefix_append _ _

/-- **What a cut in the text of a recorder gives.** -/
lemma Written.cut {done : List (Call P)} {s : Recorder P} {written safe k n m : ℕ} {st : Replay P}
    (h : Written fmt done s written safe) (hsafe : safe ≤ k)
    (hcut : CutAt fmt RecordingOrderBook.empty st s.begun k n m) :
    done <+: s.begun.take n ∧ (tradesOf OrderBook.empty done).length ≤ m
      ∧ (after (s.begun.take n) = s.live.book
        ∨ ∃ c ∈ s.pending?, after (s.begun.take n) = (call s.live.book c).2) := by
  obtain ⟨hbegun, hbook⟩ | ⟨c, hbegun, hlast⟩ := h.book
  · obtain ⟨hn, hm⟩ := hcut.whole (hbegun ▸ h.done_le.trans hsafe)
    subst hn
    rw [List.take_length, hbegun] at hm ⊢
    exact ⟨List.prefix_rfl, hm.ge, .inl hbook.symm⟩
  · rw [hbegun] at hcut ⊢
    obtain ⟨hn, hm⟩ := cut_last hcut (h.done_le.trans hsafe)
    have hall : (done ++ [c]).take (done.length + 1) = done ++ [c] :=
      List.take_of_length_le (by simp)
    have hafter : after (done ++ [c]) = (call (after done) c).2 :=
      Machine.final_append call OrderBook.empty done [c]
    split_ifs at hn with hlt
    · subst hn
      rw [hall, hafter]
      refine ⟨List.prefix_append _ _, hm, ?_⟩
      obtain ⟨hpending, hbook⟩ | ⟨-, hbook⟩ := hlast
      · exact .inr ⟨c, hpending, by rw [hbook]⟩
      · exact .inl hbook.symm
    · subst hn
      rw [List.take_left]
      refine ⟨List.prefix_rfl, hm, ?_⟩
      obtain ⟨-, hbook⟩ | ⟨hexecuted, -⟩ := hlast
      · exact .inl hbook.symm
      · omega

/-- **Recovery from a crash at any step.**  Take a recorder apart into its steps, let it run through
calls at prices that read back, and stop it anywhere; of its text let any first lines survive that
hold all that was flushed.  Replaying them leaves the book as it stood, up to timestamps, or, when a
call had its request written but not yet executed, the book behind that call.  The trades the
replay finds logged begin with all that were returned to a caller, and all of them are replayed. -/
theorem crash_recovery (fmt : PriceFormat P) (evs : List (Event P)) (s : Recorder P)
    (h : Transitions.run (Recorder.step fmt) Recorder.init evs = some s)
    (hprices : ∀ c ∈ s.begun, ∀ p ∈ c.price?, fmt.ReadsBack p) (counter : UInt64) (k : ℕ)
    (hk : s.durable <+: firstLines k s.live.log) :
    let result := replayFromStream fmt counter (firstLines k s.live.log)
    (result.book.untimed = s.live.book.untimed
        ∨ ∃ c ∈ s.pending?, result.book.untimed = (call s.live.book c).2.untimed)
      ∧ (s.returned.flatMap Response.tradeList).map Trade.untimed <+: result.loggedTrades
      ∧ result.loggedTrades <+: result.replayedTrades.map Trade.untimed := by
  intro result
  obtain ⟨done, hbehind⟩ := behind_run h
  obtain ⟨written, safe, hw⟩ := hbehind.written
  have hplain := plain_runLines fmt RecordingOrderBook.empty s.begun
  -- the lines that survive
  have htext : firstLines k s.live.log
      = unlines ((runLines fmt RecordingOrderBook.empty s.begun).take (min k written)) := by
    rw [hw.log, firstLines_unlines fun l hl => hplain l (List.mem_of_mem_take hl), List.take_take]
  have hlines : getlines (firstLines k s.live.log)
      = (runLines fmt RecordingOrderBook.empty s.begun).take (min k written) := by
    rw [htext]
    exact getlines_unlines fun l hl => hplain l (List.mem_of_mem_take hl)
  have hsafe : safe ≤ min k written := by
    rw [htext, hw.durable] at hk
    exact le_of_unlines_prefix hw.safe_le hk
  -- what replaying them does
  obtain ⟨n, m, hcut⟩ := exists_cutAt s.begun hprices RecordingOrderBook.empty BookWF.empty
    (fun s o ho => by cases s <;> cases ho) (min k written)
  have hcut := hcut (Replay.init counter) rfl
  obtain ⟨hstarts, hm, hafter⟩ := hw.cut hsafe hcut
  obtain ⟨hbook, hreplayed, hlogged, -⟩ := hcut.result hlines
  refine ⟨?_, ?_, ?_⟩
  · have hbook : result.book.untimed = (after (s.begun.take n)).untimed := hbook
    obtain hsame | ⟨c, hpending, hnext⟩ := hafter
    · exact .inl (by rw [hbook, hsame])
    · exact .inr ⟨c, hpending, by rw [hbook, hnext]⟩
  · obtain ⟨rest, hrest⟩ := hstarts
    have hreturned : s.returned.flatMap Response.tradeList = tradesOf OrderBook.empty done := by
      rw [hw.returned]
      rfl
    show _ <+: (replayFromStream fmt counter (firstLines k s.live.log)).loggedTrades
    rw [hlogged, hreplayed, hreturned, List.prefix_take_iff, List.length_map, ← hrest]
    exact ⟨(tradesOf_startsWith _ _ _).map _, hm⟩
  · show (replayFromStream fmt counter (firstLines k s.live.log)).loggedTrades <+: _
    rw [hlogged]
    exact List.take_prefix _ _

/-- A buy takes two orders, and the crash comes when the first of the trades is logged. -/
def sampleEvents : List (Event ℤ) :=
  [.begin (.addOrder ⟨1, .sell, 101, 5, 1, .limit⟩), .flush, .execute, .finish,
    .begin (.addOrder ⟨2, .sell, 102, 5, 2, .limit⟩), .flush, .execute, .finish,
    .begin (.submitOrder ⟨3, .buy, 102, 8, 3, .limit⟩), .flush, .execute, .logTrade]

/-- The recorder in which the crash leaves it, one trade of the last call logged. -/
def sampleRecorder : Recorder ℤ :=
  (Transitions.run (Recorder.step wholeFormat) Recorder.init sampleEvents).getD Recorder.init

lemma run_sampleEvents :
    Transitions.run (Recorder.step wholeFormat) Recorder.init sampleEvents
      = some sampleRecorder := by
  obtain ⟨s, hs⟩ := Option.isSome_iff_exists.mp
    (show (Transitions.run (Recorder.step wholeFormat) Recorder.init sampleEvents).isSome by
      decide +kernel)
  rw [sampleRecorder, hs]
  rfl

/-- The text is cut behind the request line, and gives the book all the same. -/
theorem crash_recovery_sample :
    sampleRecorder.live.log.count '\n' = 4
      ∧ (replayFromStream wholeFormat 0 (firstLines 3 sampleRecorder.live.log)).book.untimed
        = sampleRecorder.live.book.untimed := by
  refine ⟨by decide +kernel, ?_⟩
  obtain ⟨hbook | ⟨c, hpending, -⟩, -⟩ := crash_recovery wholeFormat sampleEvents sampleRecorder
    run_sampleEvents (by decide +kernel) 0 3 (by decide +kernel)
  · exact hbook
  · have hnone : sampleRecorder.pending? = none := by decide +kernel
    rw [hnone] at hpending
    cases hpending

end Recorder

end Leviathan
