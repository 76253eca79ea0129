import Leviathan.Book.Snapshot
import Leviathan.Log.Recovery

/-!
Compacting a log.

A log grows with every call.  Replaced up to some call by one ADD line for each order that rests
there, listed so that every queue keeps its order, it is as long as the book and what came after.
`compaction` says that this cannot be told by replaying: cut behind any line of what came after,
both logs leave the same book and report the same mismatches, and the trades that the compacted log
leaves out are those of the calls that it leaves out.
-/

namespace Leviathan

variable {P : Type*} [LinearOrder P] {fmt : PriceFormat P}

/-- **All lines of a run replayed**, on a book that agrees with the live one. -/
lemma replayLines_runLines (cs : List (Call P)) (hcs : ∀ c ∈ cs, ∀ p ∈ c.price?, fmt.ReadsBack p)
    (r : RecordingOrderBook P) (hwf : BookWF r.book)
    (hr : ∀ s, ∀ o ∈ r.book.resting s, fmt.ReadsBack o.price) {st : Replay P}
    (hb : st.book.untimed = r.book.untimed) :
    let st' := replayLines fmt st (runLines fmt r cs)
    st'.book.untimed = (Machine.final call r.book cs).untimed
      ∧ st'.replayedTrades.map Trade.untimed
        = st.replayedTrades.map Trade.untimed ++ (tradesOf r.book cs).map Trade.untimed
      ∧ st'.loggedTrades = st.loggedTrades ++ (tradesOf r.book cs).map Trade.untimed := by
  obtain ⟨n, m, hcut⟩ := exists_cutAt cs hcs r hwf hr (runLines fmt r cs).length
  have hcut := hcut st hb
  obtain ⟨rfl, hm⟩ := hcut.whole le_rfl
  have hbook := hcut.book
  have hreplayed := hcut.replayed
  have hlogged := hcut.logged
  rw [List.take_length] at hbook hreplayed hlogged hm
  rw [List.take_length] at hbook hreplayed hlogged
  refine ⟨hbook, hreplayed, ?_⟩
  rw [hlogged, List.take_of_length_le (by rw [List.length_map, hm])]

/-- The lines that a recorded run adds to its log. -/
lemma record_append (cs cs' : List (Call P)) :
    (RecordingOrderBook.record fmt (cs ++ cs')).log
      = (RecordingOrderBook.record fmt cs).log
        ++ unlines (runLines fmt (RecordingOrderBook.record fmt cs) cs') := by
  rw [RecordingOrderBook.record, Machine.final_append]
  exact (record_run fmt _ cs').2

/-- **A cut behind a replayed run**: `n` more calls executed and `m` of their trades recorded, on
top of a replay that has recorded all the trades it executed. -/
lemma mismatches_behind {r : RecordingOrderBook P} {st : Replay P} {cs : List (Call P)} {k n m : ℕ}
    (h : CutAt fmt r st cs k n m)
    (hst : st.loggedTrades = st.replayedTrades.map Trade.untimed) :
    let st' := replayLines fmt st ((runLines fmt r cs).take k)
    (compareTrades fmt 0 st'.replayedTrades st'.loggedTrades).1
      = (tradesOf r.book (cs.take n)).length - m := by
  intro st'
  have hreplayed : st'.replayedTrades.map Trade.untimed
      = st.replayedTrades.map Trade.untimed
        ++ (tradesOf r.book (cs.take n)).map Trade.untimed := h.replayed
  have hlength : st'.replayedTrades.length
      = st.replayedTrades.length + (tradesOf r.book (cs.take n)).length := by
    simpa using congrArg List.length hreplayed
  have hlogged : st'.loggedTrades
      = (st'.replayedTrades.map Trade.untimed).take (st.replayedTrades.length + m) := by
    rw [hreplayed]
    calc st'.loggedTrades
        = st.loggedTrades ++ ((tradesOf r.book (cs.take n)).map Trade.untimed).take m := h.logged
      _ = _ := by
          have hlen : st.replayedTrades.length = (st.replayedTrades.map Trade.untimed).length := by
            rw [List.length_map]
          rw [hst, hlen, List.take_length_add_append]
  rw [hlogged, compareTrades_take]
  omega

/-- The first lines of what a run adds to a log. -/
lemma firstLines_drop_record (cs cs' : List (Call P)) (k : ℕ) :
    firstLines k ((RecordingOrderBook.record fmt (cs ++ cs')).log.drop
        (RecordingOrderBook.record fmt cs).log.length)
      = unlines ((runLines fmt (RecordingOrderBook.record fmt cs) cs').take k) := by
  rw [record_append, List.drop_left, firstLines_unlines (plain_runLines fmt _ cs')]

/-- The lines of two runs, one behind the other. -/
lemma getlines_record_append (ds cs : List (Call P)) (r : RecordingOrderBook P) (k : ℕ) :
    getlines ((RecordingOrderBook.record fmt ds).log ++ unlines ((runLines fmt r cs).take k))
      = runLines fmt RecordingOrderBook.empty ds ++ (runLines fmt r cs).take k := by
  rw [log_record, ← unlines_append]
  refine getlines_unlines fun line hline => ?_
  rcases List.mem_append.mp hline with hline | hline
  · exact plain_runLines fmt _ ds line hline
  · exact plain_runLines fmt _ cs line (List.mem_of_mem_take hline)

/-- **The log of a run and then the first lines of another**, run on a recorder whose book is the
one that the first run leaves. -/
lemma replayFromStream_behind {ds cs : List (Call P)} {r : RecordingOrderBook P} {k n m : ℕ}
    (hds : ∀ c ∈ ds, ∀ p ∈ c.price?, fmt.ReadsBack p) (hr : after ds = r.book)
    (hcut : ∀ st : Replay P, st.book.untimed = r.book.untimed → CutAt fmt r st cs k n m)
    (counter : UInt64) :
    let result := replayFromStream fmt counter
      ((RecordingOrderBook.record fmt ds).log ++ unlines ((runLines fmt r cs).take k))
    let behind := tradesOf r.book (cs.take n)
    result.book.untimed = (Machine.final call r.book (cs.take n)).untimed
      ∧ result.mismatches = behind.length - m
      ∧ result.replayedTrades.map Trade.untimed
        = (tradesOf OrderBook.empty ds).map Trade.untimed ++ behind.map Trade.untimed
      ∧ result.loggedTrades
        = (tradesOf OrderBook.empty ds).map Trade.untimed
          ++ (behind.map Trade.untimed).take m := by
  intro result behind
  have hstart : (Replay.init counter : Replay P).book.untimed
      = (RecordingOrderBook.empty : RecordingOrderBook P).book.untimed := rfl
  obtain ⟨hbook, hreplayed, hlogged⟩ := replayLines_runLines ds hds RecordingOrderBook.empty
    BookWF.empty (fun s o ho => by cases s <;> cases ho) hstart
  set st := replayLines fmt (Replay.init counter) (runLines fmt RecordingOrderBook.empty ds)
  have hcut := hcut st (hbook.trans (congrArg OrderBook.untimed hr))
  have hreplayed : st.replayedTrades.map Trade.untimed
      = (tradesOf OrderBook.empty ds).map Trade.untimed := hreplayed
  have hlogged : st.loggedTrades = (tradesOf OrderBook.empty ds).map Trade.untimed := hlogged
  have hlines : replayLines fmt (Replay.init counter) (getlines
        ((RecordingOrderBook.record fmt ds).log ++ unlines ((runLines fmt r cs).take k)))
      = replayLines fmt st ((runLines fmt r cs).take k) := by
    rw [getlines_record_append, replayLines_append]
  have hresult : result = replayFromStream fmt counter _ := rfl
  rw [replayFromStream, hlines] at hresult
  rw [hresult]
  refine ⟨hcut.book, mismatches_behind hcut (hlogged.trans hreplayed.symm), ?_, ?_⟩
  · rw [← hreplayed]
    exact hcut.replayed
  · rw [← hlogged]
    exact hcut.logged

/-- Adding trades nothing. -/
lemma tradesOf_addOrder (b : OrderBook P) (l : List (Order P)) :
    tradesOf b (l.map Call.addOrder) = [] := by
  induction l generalizing b with
  | nil => rfl
  | cons o l ih => exact ih (addOrder b o)

/-- **A compacted log replays like the full one.**  For every run of calls at prices that read back,
whose first part `cs` reuses no resting id, every listing `l` of the book that `cs` leaves, and
every `k`: the log of `cs` and then the first `k` lines of what follows, and in its place the ADD
lines of `l` and then the same `k` lines, leave the same book up to timestamps and report as many
mismatches; the full log replays and records the trades of `cs` first, and then the same. -/
theorem compaction (fmt : PriceFormat P) (cs cs' : List (Call P))
    (hcs : ∀ c ∈ cs ++ cs', ∀ p ∈ c.price?, fmt.ReadsBack p)
    (hfresh : Machine.Guarded call FreshIds OrderBook.empty cs) (l : List (Order P))
    (hl : Lists l (after cs)) (counter counter' : UInt64) (k : ℕ) :
    let head := (RecordingOrderBook.record fmt cs).log
    let tail := firstLines k ((RecordingOrderBook.record fmt (cs ++ cs')).log.drop head.length)
    let listing := (RecordingOrderBook.record fmt (l.map Call.addOrder)).log
    let full := replayFromStream fmt counter (head ++ tail)
    let compact := replayFromStream fmt counter' (listing ++ tail)
    compact.book.untimed = full.book.untimed
      ∧ compact.mismatches = full.mismatches
      ∧ full.replayedTrades.map Trade.untimed
        = (RecordingOrderBook.empty.trades fmt cs).map Trade.untimed
          ++ compact.replayedTrades.map Trade.untimed
      ∧ full.loggedTrades
        = (RecordingOrderBook.empty.trades fmt cs).map Trade.untimed ++ compact.loggedTrades := by
  intro head tail listing full compact
  have hex := indexExact_after hfresh
  obtain ⟨hcs₁, hcs₂⟩ := List.forall_mem_append.mp hcs
  have hrest : ∀ s, ∀ o ∈ (after cs).resting s, fmt.ReadsBack o.price :=
    prices_run BookWF.empty (fun s o ho => by cases s <;> cases ho) hcs₁
  have hadds : ∀ c ∈ l.map Call.addOrder, ∀ p ∈ c.price?, fmt.ReadsBack p := by
    intro c hc p hp
    obtain ⟨o, ho, rfl⟩ := List.mem_map.mp hc
    obtain rfl := Option.some.inj hp
    exact hrest o.side o (hl.mem_resting hex.wf ho)
  have hbook := book_record fmt cs
  have hlisted : after (l.map Call.addOrder) = after cs :=
    (final_addOrder OrderBook.empty l).trans (addAll_eq hex hl)
  -- the tail is cut at the same calls and trades behind either part
  obtain ⟨n, m, hcut⟩ := exists_cutAt cs' hcs₂ (RecordingOrderBook.record fmt cs)
    (hbook ▸ wf_after cs) (hbook ▸ hrest) k
  have hfull := replayFromStream_behind hcs₁ hbook.symm hcut counter
  have hcompact := replayFromStream_behind hadds (hlisted.trans hbook.symm) hcut counter'
  rw [← firstLines_drop_record] at hfull hcompact
  obtain ⟨hfullbook, hfullmismatches, hfullreplayed, hfulllogged⟩ := hfull
  obtain ⟨hbook', hmismatches', hreplayed', hlogged'⟩ := hcompact
  rw [tradesOf_addOrder, List.map_nil, List.nil_append] at hreplayed' hlogged'
  refine ⟨hbook'.trans hfullbook.symm, hmismatches'.trans hfullmismatches.symm, ?_, ?_⟩
  · rw [trades_eq]
    exact hfullreplayed.trans (congrArg (_ ++ ·) hreplayed'.symm)
  · rw [trades_eq]
    exact hfulllogged.trans (congrArg (_ ++ ·) hlogged'.symm)

/-- The sample book after a partial fill, written down in two lines instead of ten, and a cut
in front of the last TRADE line of what came after. -/
theorem compaction_sample :
    let cs : List (Call ℤ) := sampleCalls
      ++ [.submitOrder ⟨6, .buy, 102, 6, 5, .ioc⟩, .cancelOrder 4]
    let cs' : List (Call ℤ) := [.submitOrder ⟨7, .sell, 98, 4, 6, .limit⟩, .cancelOrder 5]
    let listing := (RecordingOrderBook.record wholeFormat
      ((after cs).restingAll.map Call.addOrder)).log
    let head := (RecordingOrderBook.record wholeFormat cs).log
    let tail := firstLines 1 ((RecordingOrderBook.record wholeFormat (cs ++ cs')).log.drop
      head.length)
    listing.count '\n' = 2 ∧ head.count '\n' = 10
      ∧ (replayFromStream wholeFormat 0 (listing ++ tail)).mismatches
        = (replayFromStream wholeFormat 0 (head ++ tail)).mismatches := by
  intro cs cs' listing head tail
  refine ⟨by decide +kernel, by decide +kernel, ?_⟩
  have hfresh : Machine.Guarded call FreshIds OrderBook.empty cs := by decide
  exact (compaction wholeFormat cs cs' (by decide +kernel) hfresh _
    (lists_restingAll (wf_after cs)) 0 0 1).2.1

end Leviathan
