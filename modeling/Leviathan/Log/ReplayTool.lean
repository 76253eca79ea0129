import Leviathan.Book.Depth
import Leviathan.Engine.Linearizable
import Leviathan.Log.History

/-!
`tools/replay_tool.cpp`, what it prints and the code it exits with.

* `replayTool_spec`: on the log of a run the tool reports that all trades matched and prints the
  state of the live book, its best prices, its count and its depth, and exits with 0; on any text it
  exits with 0 exactly when it records as many trades as its requests produce and, position by
  position, the two do not differ by the comparison of `compareTrades`.
* `replay_reproducible`: a replay, and so the tool, depends on the text alone.  The process-wide
  counter that stamps the replayed orders shows in the timestamps only.
-/

namespace Leviathan

variable {P : Type*}

/-! ### The tool -/

/-- `std::left << std::setw(width)`. -/
def setw (width : ℕ) (text : List Char) : List Char :=
  text ++ List.replicate (width - text.length) ' '

/-- A line of the depth table. -/
def depthRow (price quantity orders : List Char) : List Char :=
  "    ".toList ++ setw 16 price ++ setw 16 quantity ++ setw 12 orders ++ ['\n']

/-- `printDepthSide`; `none` is the exception that `getDepth` lets through. -/
def printDepthSide (fmt : PriceFormat P) (maxSize : ℕ) (book : OrderBook P) (side : Side)
    (label : String) (maxLevels : UInt64) : Option (List Char) :=
  (getDepth maxSize book side maxLevels).map fun levels =>
    "  ".toList ++ label.toList ++ " (".toList ++ Decimal.natural levels.length
      ++ " levels):\n".toList
      ++ if levels.isEmpty then "    (empty)\n".toList
        else depthRow "Price".toList "Agg Quantity".toList "Orders".toList
          ++ "    ".toList ++ List.replicate 44 '-' ++ ['\n']
          ++ levels.flatMap fun lvl => depthRow (fmt.fixed6 lvl.price)
            (printWord lvl.aggregateQuantity) (Decimal.natural lvl.orderCount)

/-- The trade verification, from the numbers of trades and of mismatches and the report. -/
def verification (replayed logged mismatches : ℕ) (mismatchReport : List Char) : List Char :=
  "=== TRADE VERIFICATION ===\n".toList
    ++ "Trades replayed: ".toList ++ Decimal.natural replayed ++ ['\n']
    ++ "Trades logged:   ".toList ++ Decimal.natural logged ++ ['\n']
    ++ if mismatches = 0 then
        "Result: ALL ".toList ++ Decimal.natural replayed ++ " trades MATCHED\n".toList
      else
        "Result: ".toList ++ Decimal.natural mismatches ++ " MISMATCHES\n".toList
          ++ mismatchReport

/-- A best price, or its absence. -/
def printBest (fmt : PriceFormat P) : Option P → List Char
  | some price => fmt.fixed6 price
  | none => "none".toList

/-- The final book state and the depth. -/
def finalState (fmt : PriceFormat P) (maxSize : ℕ) (book : OrderBook P) : Option (List Char) := do
  let bids ← printDepthSide fmt maxSize book .buy "BIDS (highest first)" 5
  let asks ← printDepthSide fmt maxSize book .sell "ASKS (lowest first)" 5
  return "\n=== FINAL BOOK STATE ===\n".toList
    ++ "Best Bid:     ".toList ++ printBest fmt (bestBid book) ++ ['\n']
    ++ "Best Ask:     ".toList ++ printBest fmt (bestAsk book) ++ ['\n']
    ++ "Total Orders: ".toList ++ Decimal.natural (totalOrderCount book) ++ ['\n']
    ++ "\n=== MARKET DEPTH (top 5 levels) ===\n".toList
    ++ bids ++ ['\n'] ++ asks ++ ['\n']

variable [LinearOrder P]

/-- `replayFromFile`; `none` is the error of a file that cannot be opened. -/
def replayFromFile (fmt : PriceFormat P) (counter : UInt64) (files : List Char → Option (List Char))
    (filepath : List Char) : Option (ReplayResult P) :=
  (files filepath).map (replayFromStream fmt counter)

/-- `main`, with the arguments behind the program's name: the exit code and what is printed on the
standard output; `none` is an exception that is not caught. -/
def replayTool (fmt : PriceFormat P) (maxSize : ℕ) (counter : UInt64)
    (files : List Char → Option (List Char)) (args : List (List Char)) :
    Option (ℕ × List Char) :=
  match args with
  | [] => some (1, [])
  | filepath :: _ =>
      match replayFromFile fmt counter files filepath with
      | none => some (1, [])
      | some result =>
          (finalState fmt maxSize result.book).map fun state =>
            (if result.mismatches = 0 then 0 else 1,
              verification result.replayedTrades.length result.loggedTrades.length
                result.mismatches result.mismatchReport ++ state)

/-! ### What it prints -/

section Print

variable {fmt : PriceFormat P} {maxSize : ℕ}

/-- Where all trades matched, no report is shown. -/
lemma verification_zero (replayed logged : ℕ) (report report' : List Char) :
    verification replayed logged 0 report = verification replayed logged 0 report' := by
  unfold verification
  rw [if_pos rfl, if_pos rfl]

omit [LinearOrder P] in
lemma aggregate_untimed (p : P) (q : List (Order P)) :
    aggregate p (q.map Order.untimed) = aggregate p q := by
  rw [aggregate, aggregate, List.foldl_map, List.length_map]
  rfl

omit [LinearOrder P] in
lemma getDepth_untimed (b : OrderBook P) (s : Side) (n : UInt64) :
    getDepth maxSize b.untimed s n = getDepth maxSize b s n := by
  rw [getDepth_eq, getDepth_eq, OrderBook.untimed_side, depthFromMap, depthFromMap]
  split_ifs
  · rfl
  · rw [SideMap.untimed, ← List.map_take, List.map_map]
    exact congrArg some (List.map_congr_left fun l _ => aggregate_untimed l.1 l.2)

omit [LinearOrder P] in
/-- Timestamps are not printed. -/
lemma finalState_untimed (b : OrderBook P) :
    finalState fmt maxSize b.untimed = finalState fmt maxSize b := by
  have hcount : totalOrderCount b.untimed = totalOrderCount b := rfl
  simp only [finalState, printDepthSide, getDepth_untimed, bestBid_untimed, bestAsk_untimed, hcount]

omit [LinearOrder P] in
/-- No exception is let through where a vector can hold five levels. -/
lemma finalState_eq_some (hmax : 5 ≤ maxSize) (b : OrderBook P) :
    ∃ state, finalState fmt maxSize b = some state := by
  have hdepth : ∀ s, ∃ levels, getDepth maxSize b s 5 = some levels := fun s =>
    ⟨_, getDepth_eq_some.mpr ⟨hmax, rfl⟩⟩
  obtain ⟨bids, hbids⟩ := hdepth .buy
  obtain ⟨asks, hasks⟩ := hdepth .sell
  exact ⟨_, by simp only [finalState, printDepthSide, hbids, hasks]; rfl⟩

end Print

/-- **The log of a run replayed**: the live book up to timestamps, the trades of the run, and no
mismatch. -/
lemma replay_record (fmt : PriceFormat P) (counter : UInt64) (cs : List (Call P))
    (hcs : ∀ c ∈ cs, ∀ p ∈ c.price?, fmt.ReadsBack p) :
    let live := RecordingOrderBook.record fmt cs
    let result := replayFromStream fmt counter live.log
    result.book.untimed = live.book.untimed
      ∧ result.replayedTrades.length = (RecordingOrderBook.empty.trades fmt cs).length
      ∧ result.loggedTrades.length = (RecordingOrderBook.empty.trades fmt cs).length
      ∧ result.mismatches = 0 := by
  intro live result
  have hlines : getlines live.log
      = (runLines fmt RecordingOrderBook.empty cs).take
        (runLines fmt RecordingOrderBook.empty cs).length := by
    rw [List.take_length]
    exact getlines_record cs
  obtain ⟨n, m, hcut⟩ := exists_cutAt cs hcs RecordingOrderBook.empty BookWF.empty
    (fun s o ho => by cases s <;> cases ho) (runLines fmt RecordingOrderBook.empty cs).length
  have hcut := hcut (Replay.init counter) rfl
  obtain ⟨rfl, hm⟩ := hcut.whole le_rfl
  obtain ⟨hbook, hreplayed, hlogged, hmismatches⟩ := hcut.result hlines
  rw [List.take_length] at hbook hreplayed hmismatches hm
  have hlive : live.book = Machine.final call OrderBook.empty cs := book_record fmt cs
  have htrades : (RecordingOrderBook.empty.trades fmt cs).length
      = (tradesOf OrderBook.empty cs).length := by
    rw [trades_eq]
    rfl
  have hm : m = (tradesOf OrderBook.empty cs).length := hm
  have hlength : result.replayedTrades.length = (tradesOf OrderBook.empty cs).length := by
    simpa using congrArg List.length hreplayed
  refine ⟨by rw [hlive]; exact hbook, hlength.trans htrades.symm, ?_, ?_⟩
  · have htake := congrArg List.length hlogged
    rw [List.length_take, List.length_map] at htake
    have hlength' : (replayFromStream fmt counter live.log).replayedTrades.length
        = (tradesOf OrderBook.empty cs).length := hlength
    rw [htrades]
    exact htake.trans (by omega)
  · have hmismatches : result.mismatches + m = (tradesOf OrderBook.empty cs).length := hmismatches
    omega

/-- **The replay tool.**  Where five levels can be reserved, the tool on a file that can be opened
exits with 0 exactly when the text records as many trades as its requests produce and, position by
position, the two do not differ in ids, quantity, or price by more than `1e-9`, in exact arithmetic;
and on the log of a run at prices that read back it exits with 0 and prints that the trades of the
run matched and the final state of the live book. -/
theorem replayTool_spec (fmt : PriceFormat P) (maxSize : ℕ) (hmax : 5 ≤ maxSize)
    (counter : UInt64) (files : List Char → Option (List Char)) (filepath text : List Char)
    (args : List (List Char)) (hfile : files filepath = some text) :
    ∃ code out, replayTool fmt maxSize counter files (filepath :: args) = some (code, out)
      ∧ (code = 0 ↔ List.Forall₂ (fun r l => ¬ tradesDiffer fmt r l)
          (produced counter (requests fmt (getlines text))) (recorded fmt (getlines text)))
      ∧ ∀ cs : List (Call P), (∀ c ∈ cs, ∀ p ∈ c.price?, fmt.ReadsBack p) →
          text = (RecordingOrderBook.record fmt cs).log →
          let live := RecordingOrderBook.record fmt cs
          let trades := RecordingOrderBook.empty.trades fmt cs
          code = 0 ∧ ∃ state, finalState fmt maxSize live.book = some state
            ∧ out = verification trades.length trades.length 0 [] ++ state := by
  have hresult : replayFromFile fmt counter files filepath
      = some (replayFromStream fmt counter text) := by
    rw [replayFromFile, hfile]
    rfl
  obtain ⟨state, hstate⟩ : ∃ state,
      finalState fmt maxSize (replayFromStream fmt counter text).book = some state :=
    finalState_eq_some hmax _
  let result := replayFromStream fmt counter text
  refine ⟨if result.mismatches = 0 then 0 else 1,
    verification result.replayedTrades.length result.loggedTrades.length result.mismatches
      result.mismatchReport ++ state, ?_, ?_, ?_⟩
  · rw [replayTool, hresult]
    simp only [hstate, Option.map_some, result]
  · have hzero := compareTrades_eq_zero_iff fmt 0 (produced counter (requests fmt (getlines text)))
      (recorded fmt (getlines text))
    have hjudge : result.mismatches = (compareTrades fmt 0
        (produced counter (requests fmt (getlines text))) (recorded fmt (getlines text))).1 :=
      congrArg ReplayResult.mismatches (replay_eq_judge fmt counter text)
    rw [← hzero, ← hjudge]
    split_ifs with hnone
    · exact ⟨fun _ => hnone, fun _ => rfl⟩
    · exact ⟨fun h => absurd h (by decide), fun h => absurd h hnone⟩
  · rintro cs hcs rfl live trades
    obtain ⟨hbook, hreplayed, hlogged, hmismatches⟩ := replay_record fmt counter cs hcs
    refine ⟨if_pos hmismatches, state, ?_, ?_⟩
    · rw [← finalState_untimed, ← hbook, finalState_untimed, hstate]
    · rw [hreplayed, hlogged, hmismatches, verification_zero]

/-- On a log with three trades, two of them at one price, the tool exits with 0 and shows what is
left of the order that was met in part. -/
theorem replayTool_spec_sample :
    let cs : List (Call ℤ) := sampleCalls ++ [.submitOrder ⟨9, .buy, 102, 8, 10, .limit⟩]
    let log := (RecordingOrderBook.record wholeFormat cs).log
    ∃ out, replayTool wholeFormat 384307168202282325 0 (fun _ => some log) ["log".toList]
        = some (0, out)
      ∧ "    102.000000      4               1           ".toList ∈ getlines out := by
  intro cs log
  obtain ⟨code, out, hrun, -, hlive⟩ := replayTool_spec wholeFormat 384307168202282325
    (by decide) 0 (fun _ => some log) "log".toList log [] rfl
  obtain ⟨rfl, state, hstate, rfl⟩ := hlive cs (by decide +kernel) rfl
  obtain rfl : state = (finalState wholeFormat 384307168202282325
      (RecordingOrderBook.record wholeFormat cs).book).getD [] := by rw [hstate]; rfl
  exact ⟨_, hrun, by decide +kernel⟩

/-! ### Replays in different processes -/

/-- **A request** on books that agree up to timestamps, at any counters. -/
lemma request_congr {b b' : OrderBook P × UInt64} (h : b.1.untimed = b'.1.untimed) (e : Entry P) :
    (request b e).1.map Trade.untimed = (request b' e).1.map Trade.untimed
      ∧ (request b e).2.1.untimed = (request b' e).2.1.untimed := by
  have hcall : ∀ c c' : Call P, c.untimed = c'.untimed →
      (call b.1 c).1.tradeList.map Trade.untimed = (call b'.1 c').1.tradeList.map Trade.untimed
        ∧ (call b.1 c).2.untimed = (call b'.1 c').2.untimed := by
    intro c c' hc
    obtain ⟨hresponse, hbook⟩ := call_congr h hc
    exact ⟨by rw [← tradeList_untimed, hresponse, tradeList_untimed], hbook⟩
  cases e with
  | add id s p q t =>
      exact hcall (.addOrder ⟨id, s, p, q, b.2, t⟩) (.addOrder ⟨id, s, p, q, b'.2, t⟩) rfl
  | cancel id => exact hcall (.cancelOrder id) (.cancelOrder id) rfl
  | submit id s p q t =>
      exact hcall (.submitOrder ⟨id, s, p, q, b.2, t⟩) (.submitOrder ⟨id, s, p, q, b'.2, t⟩) rfl
  | modify id p q =>
      have hmodify := hcall (.modifyOrder b.2 id p q) (.modifyOrder b'.2 id p q) rfl
      rwa [tradeList_modifyOrder, tradeList_modifyOrder] at hmodify
  | trade t => exact ⟨rfl, h⟩

/-- The requests of a text, at any counters. -/
lemma requests_congr (counter counter' : UInt64) (es : List (Entry P)) :
    (produced counter es).map Trade.untimed = (produced counter' es).map Trade.untimed
      ∧ (bookOf counter es).untimed = (bookOf counter' es).untimed := by
  obtain ⟨hanswers, hbook⟩ :
      List.Forall₂ (fun ts ts' : List (Trade P) => ts.map Trade.untimed = ts'.map Trade.untimed)
          (Machine.answers request (OrderBook.empty, counter) es)
          (Machine.answers request (OrderBook.empty, counter') es)
        ∧ (Machine.final request (OrderBook.empty, counter) es).1.untimed
          = (Machine.final request (OrderBook.empty, counter') es).1.untimed :=
    Machine.simulation request
      (R := fun b b' : OrderBook P × UInt64 => b.1.untimed = b'.1.untimed) (I := (· = ·))
      (fun _ _ e _ h he => he ▸ request_congr h e) rfl (List.forall₂_refl es)
  refine ⟨?_, hbook⟩
  rw [produced, produced, List.map_flatten, List.map_flatten]
  refine congrArg List.flatten (List.forall₂_eq_eq_eq ▸ ?_)
  exact List.forall₂_map_left_iff.mpr (List.forall₂_map_right_iff.mpr hanswers)

omit [LinearOrder P] in
/-- Timestamps are not compared, nor reported. -/
lemma compareTrades_untimed (fmt : PriceFormat P) (i : ℕ) (rs ls : List (Trade P)) :
    compareTrades fmt i (rs.map Trade.untimed) ls = compareTrades fmt i rs ls := by
  induction rs generalizing i ls with
  | nil => rfl
  | cons r rs ih =>
      cases ls with
      | nil =>
          rw [List.map_cons, compareTrades, compareTrades, ih]
          rfl
      | cons l ls =>
          rw [List.map_cons, compareTrades, compareTrades, ih]
          rfl

/-- The result without timestamps. -/
def ReplayResult.untimed (result : ReplayResult P) : ReplayResult P :=
  { result with
    book := result.book.untimed
    replayedTrades := result.replayedTrades.map Trade.untimed }

/-- **Replays are reproducible.**  Whatever the process-wide counter stands at, and so whatever the
process has done before, a text replays to the same result but for timestamps, and the tool prints
the same and exits with the same code. -/
theorem replay_reproducible (fmt : PriceFormat P) (counter counter' : UInt64) :
    (∀ text, (replayFromStream fmt counter text).untimed
        = (replayFromStream fmt counter' text).untimed)
      ∧ ∀ maxSize files args,
        replayTool fmt maxSize counter files args = replayTool fmt maxSize counter' files args := by
  have hsame : ∀ text, (replayFromStream fmt counter text).untimed
      = (replayFromStream fmt counter' text).untimed := by
    intro text
    obtain ⟨htrades, hbook⟩ := requests_congr counter counter' (requests fmt (getlines text))
    have hcompare : compareTrades fmt 0 (produced counter (requests fmt (getlines text)))
          (recorded fmt (getlines text))
        = compareTrades fmt 0 (produced counter' (requests fmt (getlines text)))
          (recorded fmt (getlines text)) := by
      rw [← compareTrades_untimed, htrades, compareTrades_untimed]
    rw [replay_eq_judge, replay_eq_judge, judge, judge, hcompare]
    simp only [ReplayResult.untimed, htrades, hbook]
  refine ⟨hsame, fun maxSize files args => ?_⟩
  cases args with
  | nil => rfl
  | cons filepath args =>
      rw [replayTool, replayTool, replayFromFile, replayFromFile]
      cases files filepath with
      | none => rfl
      | some text =>
          -- what is printed is read off the result without timestamps
          have hbook : (replayFromStream fmt counter text).book.untimed
              = (replayFromStream fmt counter' text).book.untimed :=
            congrArg ReplayResult.book (hsame text)
          have hstate : finalState fmt maxSize (replayFromStream fmt counter text).book
              = finalState fmt maxSize (replayFromStream fmt counter' text).book := by
            rw [← finalState_untimed, hbook, finalState_untimed]
          have hlength : (replayFromStream fmt counter text).replayedTrades.length
              = (replayFromStream fmt counter' text).replayedTrades.length := by
            have htrades := congrArg (fun r => r.replayedTrades.length) (hsame text)
            simpa [ReplayResult.untimed] using htrades
          have hlogged := congrArg ReplayResult.loggedTrades (hsame text)
          have hmismatches := congrArg ReplayResult.mismatches (hsame text)
          have hreport := congrArg ReplayResult.mismatchReport (hsame text)
          simp only [ReplayResult.untimed] at hlogged hmismatches hreport
          simp only [Option.map_some, hstate, hlength, hlogged, hmismatches, hreport]

end Leviathan
