import Leviathan.Book.Rounded
import Leviathan.Log.Recovery

/-!
A log whose six decimals round the prices.

* Replaying a whole log executes the calls at the prices that their printings read as
  (`replay_wholeLog`), whatever these are.
* With prices as exact numbers, `exactFormat`, a price reads as the multiple of a millionth nearest
  to it, `round6`, a monotone map.
* `replay_rounded`: while no decision of the book falls between a price and its rounding, the
  replay reports no mismatch and ends in the book of the run at rounded prices.
-/

namespace Leviathan

/-! ### Replaying a whole log -/

section Whole

variable {P : Type*} [LinearOrder P] {fmt : PriceFormat P} {f : P → P}
  (hread : ∀ p, fmt.ReadsAs p (f p))

include hread

/-- The lines of a run executed on a book of their own, at the prices that they read as. -/
lemma replay_runLines (cs : List (Call P)) (r : RecordingOrderBook P) {b : OrderBook P}
    {st : Replay P} (hb : st.book.untimed = b.untimed) :
    let st' := replayLines fmt st (runLines fmt r cs)
    st'.book.untimed = (Machine.final call b (cs.map (repriced f).call)).untimed
      ∧ st'.replayedTrades.map Trade.untimed
        = st.replayedTrades.map Trade.untimed
          ++ (tradesOf b (cs.map (repriced f).call)).map Trade.untimed
      ∧ st'.loggedTrades
        = st.loggedTrades ++ ((tradesOf r.book cs).map (repriced f).trade).map Trade.untimed := by
  induction cs generalizing r b st with
  | nil => simpa [runLines, replayLines, tradesOf] using hb
  | cons c cs ih =>
      have hnext := (record_call fmt r c).2.1
      obtain ⟨hbook, hrep, hlog⟩ := replay_request_as hb r.seq fun p _ => hread p
      have hts : ∀ t ∈ (call r.book c).1.tradeList, fmt.ReadsAs t.price (f t.price) := fun t _ =>
        hread t.price
      have hlines : replayLines fmt st (runLines fmt r (c :: cs))
          = replayLines fmt (replayLines fmt st (callLines fmt r c))
            (runLines fmt (r.call fmt c).2 cs) := by
        rw [runLines, replayLines_append]
      have hcall : replayLines fmt st (callLines fmt r c)
          = replayLines fmt (parseLine fmt st (requestLine fmt r.seq c))
            (tradeLines fmt (r.seq + 1) (call r.book c).1.tradeList) :=
        replayLines_cons fmt st (plain_requestLine fmt r.seq c) _
      rw [replay_tradeLines_as _ _ hts] at hcall
      have hafter : (replayLines fmt st (callLines fmt r c)).book.untimed
          = (call b ((repriced f).call c)).2.untimed := by
        rw [hcall]
        exact hbook
      obtain ⟨hbook', hrep', hlog'⟩ := ih (r.call fmt c).2 hafter
      rw [hlines]
      refine ⟨hbook', ?_, ?_⟩
      · rw [hrep', hcall, hrep, List.map_cons, tradesOf_cons, List.map_append, List.append_assoc]
      · rw [hlog', hcall, hlog, hnext, tradesOf_cons, List.map_append, List.map_append,
          List.append_assoc]

/-- **Replaying a whole log** executes the calls at the prices that their printings read as. -/
lemma replay_wholeLog (cs : List (Call P)) (counter : UInt64) :
    let result := replayFromStream fmt counter (RecordingOrderBook.record fmt cs).log
    result.book.untimed = (after (cs.map (repriced f).call)).untimed
      ∧ result.replayedTrades.map Trade.untimed
        = (tradesOf OrderBook.empty (cs.map (repriced f).call)).map Trade.untimed
      ∧ result.loggedTrades
        = ((tradesOf OrderBook.empty cs).map (repriced f).trade).map Trade.untimed := by
  intro result
  have hlines : getlines (RecordingOrderBook.record fmt cs).log
      = runLines fmt RecordingOrderBook.empty cs := by
    calc getlines (RecordingOrderBook.record fmt cs).log
        = getlines (unlines (runLines fmt RecordingOrderBook.empty cs)) :=
          congrArg getlines (record_run fmt RecordingOrderBook.empty cs).2
      _ = runLines fmt RecordingOrderBook.empty cs :=
          getlines_unlines (plain_runLines fmt RecordingOrderBook.empty cs)
  have hinit : (Replay.init counter : Replay P).book.untimed
      = (OrderBook.empty : OrderBook P).untimed := rfl
  obtain ⟨hbook, hrep, hlog⟩ := replay_runLines hread cs RecordingOrderBook.empty hinit
  rw [← hlines] at hbook hrep hlog
  exact ⟨hbook, hrep, hlog⟩

end Whole

/-! ### Exact prices -/

/-- Prices as exact numbers, printed with six decimals and read exactly. -/
def exactFormat (general : ℚ → List Char) : PriceFormat ℚ := ⟨id, some, general⟩

/-- The multiple of a millionth nearest to a number, ties to even. -/
def round6 (p : ℚ) : ℚ := roundHalfEven (p * 10 ^ 6) / 10 ^ 6

lemma floor_le_roundHalfEven (q : ℚ) : ⌊q⌋ ≤ roundHalfEven q := by
  rw [roundHalfEven]
  split_ifs <;> omega

lemma roundHalfEven_le (q : ℚ) : roundHalfEven q ≤ ⌊q⌋ + 1 := by
  rw [roundHalfEven]
  split_ifs <;> omega

/-- Rounding to the nearest integer is monotone. -/
lemma roundHalfEven_mono : Monotone roundHalfEven := by
  intro p q hpq
  rcases (Int.floor_mono hpq).lt_or_eq with hlt | heq
  · calc roundHalfEven p ≤ ⌊p⌋ + 1 := roundHalfEven_le p
      _ ≤ ⌊q⌋ := hlt
      _ ≤ roundHalfEven q := floor_le_roundHalfEven q
  · -- with one floor the fractions decide
    have hsub : p - ⌊p⌋ ≤ q - ⌊p⌋ := sub_le_sub_right hpq _
    rw [roundHalfEven, roundHalfEven, ← heq]
    split_ifs <;> first | omega | (exfalso; linarith)

lemma round6_mono : Monotone round6 := by
  intro p q hpq
  have hscaled : roundHalfEven (p * 10 ^ 6) ≤ roundHalfEven (q * 10 ^ 6) :=
    roundHalfEven_mono (by linarith)
  rw [round6, round6]
  gcongr

/-- **A price reads as its rounding.** -/
lemma readsAs_round6 (general : ℚ → List Char) (p : ℚ) :
    (exactFormat general).ReadsAs p (round6 p) := by
  have hnil : Decimal.EndsReal [] := fun c hc => by simp at hc
  have hread := Decimal.real_fixed 6 (p < 0) ((exactFormat general).micros p).natAbs hnil
  rw [List.append_nil] at hread
  have hzero : roundHalfEven 0 = 0 := by decide +kernel
  have hvalue : (if decide (p < 0) then -((((exactFormat general).micros p).natAbs : ℚ) / 10 ^ 6)
      else (((exactFormat general).micros p).natAbs : ℚ) / 10 ^ 6) = round6 p := by
    have hmicros : (exactFormat general).micros p = roundHalfEven (p * 10 ^ 6) := rfl
    rw [hmicros, round6]
    by_cases hp : p < 0
    · have hle : roundHalfEven (p * 10 ^ 6) ≤ 0 := by
        rw [← hzero]
        exact roundHalfEven_mono (by linarith)
      have habs : ((roundHalfEven (p * 10 ^ 6)).natAbs : ℚ) = -roundHalfEven (p * 10 ^ 6) := by
        rw [Nat.cast_natAbs, abs_of_nonpos hle, Int.cast_neg]
      rw [if_pos (by simpa using hp), habs]
      ring
    · have hle : 0 ≤ roundHalfEven (p * 10 ^ 6) := by
        rw [← hzero]
        exact roundHalfEven_mono (by linarith)
      have habs : ((roundHalfEven (p * 10 ^ 6)).natAbs : ℚ) = roundHalfEven (p * 10 ^ 6) := by
        rw [Nat.cast_natAbs, abs_of_nonneg hle]
      rw [if_neg (by simpa using hp), habs]
  rw [hvalue] at hread
  rw [PriceFormat.ReadsAs, readPrice, PriceFormat.fixed6]
  show (Decimal.real (Decimal.fixed 6 (decide (p < 0))
    ((exactFormat general).micros p).natAbs)).bind _ = _
  rw [hread]
  rfl

/-! ### The replay at rounded prices -/

section Untimed

variable {P : Type*} [LinearOrder P]

lemma modifyBranch_untimed (b : OrderBook P) (id : UInt64) (p : P) (q : UInt64) :
    modifyBranch b.untimed id p q = modifyBranch b id p q := by
  rw [modifyBranch, modifyBranch, OrderBook.untimed_orderIndex]
  cases b.orderIndex.lookup id with
  | none => rfl
  | some loc =>
      obtain ⟨s, price⟩ := loc
      simp only [OrderBook.untimed_side, findOrderInDeque_untimed]
      cases findOrderInDeque s (b.side s) price id <;> rfl

omit [LinearOrder P] in
/-- Trades compared with themselves without their timestamps. -/
lemma mismatches_self (fmt : PriceFormat P) (ts : List (Trade P)) :
    (compareTrades fmt 0 ts (ts.map Trade.untimed)).1 = 0 := by
  have h : (compareTrades fmt 0 ts ((ts.map Trade.untimed).take ts.length)).1
      = ts.length - ts.length := compareTrades_take 0 ts ts.length
  rw [List.take_of_length_le (by simp)] at h
  omega

end Untimed

/-- The trades at rounded prices are those of the run at rounded prices. -/
lemma tradesOf_rounded {cs : List (Call ℚ)}
    (hans : responses (cs.map (repriced round6).call)
      = (responses cs).map (repriced round6).response) :
    tradesOf OrderBook.empty (cs.map (repriced round6).call)
      = (tradesOf OrderBook.empty cs).map (repriced round6).trade := by
  have hlist : ∀ r : Response ℚ,
      ((repriced round6).response r).tradeList = r.tradeList.map (repriced round6).trade := by
    intro r
    cases r with
    | modified o => cases o <;> rfl
    | _ => rfl
  calc tradesOf OrderBook.empty (cs.map (repriced round6).call)
      = ((responses cs).map (repriced round6).response).flatMap Response.tradeList :=
        congrArg (List.flatMap Response.tradeList) hans
    _ = (responses cs).flatMap fun r => r.tradeList.map (repriced round6).trade := by
        rw [List.flatMap_map]
        exact List.flatMap_congr fun r _ => hlist r
    _ = (tradesOf OrderBook.empty cs).map (repriced round6).trade := List.map_flatMap.symm

/-- **Replay at rounded prices.**  Let every call of a run make the same decisions at the rounded
prices, at the book it comes to: no level is merged with another, no order meets more orders or is
previewed otherwise, no modification takes another way.  Then, however many of the calls are
logged, replaying the log reports no mismatch; every level stands at its recorded price, distinct
levels at distinct prices, with its queue as it was; the index points to the recorded prices; and
`modifyOrder`, when it comes next, takes the same way on the replayed book as on the live one. -/
theorem replay_rounded (general : ℚ → List Char) (cs : List (Call ℚ))
    (hcs : Machine.Guarded call (RoundsAlike round6) OrderBook.empty cs) (counter : UInt64)
    (n : ℕ) :
    let live := RecordingOrderBook.record (exactFormat general) (cs.take n)
    let result := replayFromStream (exactFormat general) counter live.log
    result.mismatches = 0
      ∧ (∀ s, SideMap.untimed (result.book.side s)
          = SideMap.untimed ((repriced round6).levels (live.book.side s)))
      ∧ (∀ s, ((live.book.side s).map fun l => round6 l.1).Nodup)
      ∧ (∀ id, result.book.orderIndex.lookup id
          = (live.book.orderIndex.lookup id).map fun loc => ⟨loc.side, round6 loc.price⟩)
      ∧ ∀ counter' id p q, cs[n]? = some (.modifyOrder counter' id p q) →
          let way := modifyBranch live.book id p q
          modifyBranch result.book id (round6 p) q = way.map round6
            ∧ modifyOrder live.book counter' id p q = way.run live.book counter' id p q
            ∧ ∀ counter'', modifyOrder result.book counter'' id (round6 p) q
              = (way.map round6).run result.book counter'' id (round6 p) q := by
  intro live result
  obtain ⟨hbook, hrep, hlog⟩ :=
    replay_wholeLog (readsAs_round6 general) (cs.take n) counter
  have hbook : result.book.untimed = (after ((cs.take n).map (repriced round6).call)).untimed :=
    hbook
  obtain ⟨hans, hrel⟩ := rounded_run round6_mono (hcs.take n)
  have hlive : live.book = after (cs.take n) :=
    (record_run (exactFormat general) RecordingOrderBook.empty (cs.take n)).1
  have hwf' := wf_after ((cs.take n).map (repriced round6).call)
  rw [hlive]
  refine ⟨?_, ?_, hrel.nodup_rounded hwf', ?_, fun counter' id p q hn => ?_⟩
  · rw [tradesOf_rounded hans] at hrep
    show (compareTrades _ 0 result.replayedTrades result.loggedTrades).1 = 0
    rw [hlog.trans hrep.symm]
    exact mismatches_self _ _
  · intro s
    calc SideMap.untimed (result.book.side s)
        = result.book.untimed.side s := (OrderBook.untimed_side _ s).symm
      _ = SideMap.untimed ((after ((cs.take n).map (repriced round6).call)).side s) := by
          rw [hbook, OrderBook.untimed_side]
      _ = SideMap.untimed ((repriced round6).levels ((after (cs.take n)).side s)) :=
          congrArg _ (hrel.side s)
  · intro id
    calc result.book.orderIndex.lookup id
        = result.book.untimed.orderIndex.lookup id := by rw [OrderBook.untimed_orderIndex]
      _ = (after ((cs.take n).map (repriced round6).call)).orderIndex.lookup id := by
          rw [hbook, OrderBook.untimed_orderIndex]
      _ = _ := hrel.index id
  · intro way
    have hway : modifyBranch result.book id (round6 p) q = way.map round6 := by
      calc modifyBranch result.book id (round6 p) q
          = modifyBranch result.book.untimed id (round6 p) q :=
            (modifyBranch_untimed _ _ _ _).symm
        _ = modifyBranch (after ((cs.take n).map (repriced round6).call)) id (round6 p) q := by
            rw [hbook, modifyBranch_untimed]
        _ = way.map round6 :=
            rounded_branch round6_mono (indexSound_after _) hwf' hrel (hcs.getElem? hn)
    refine ⟨hway, modifyOrder_eq_branch _ _ _ _ _, fun counter'' => ?_⟩
    rw [← hway]
    exact modifyOrder_eq_branch _ _ _ _ _

/-- An ask and a bid half a millionth apart, the ask taken in part and then decreased. -/
def closeCalls : List (Call ℚ) :=
  [.addOrder ⟨1, .sell, 1000000004 / 10000000, 5, 0, .limit⟩,
   .submitOrder ⟨2, .buy, 1000000011 / 10000000, 2, 1, .limit⟩,
   .modifyOrder 2 1 (1000000004 / 10000000) 1]

/-- The decrease in place comes next, and takes the same way on the replayed book. -/
theorem replay_rounded_sample :
    let live := RecordingOrderBook.record (exactFormat fun _ => []) (closeCalls.take 2)
    let result := replayFromStream (exactFormat fun _ => []) 0 live.log
    result.mismatches = 0 ∧ modifyBranch result.book 1 100 1 = .inPlace .sell 100 := by
  intro live result
  have hcs : Machine.Guarded call (RoundsAlike round6) OrderBook.empty closeCalls := by
    decide +kernel
  obtain ⟨hmis, -, -, -, hbranch⟩ := replay_rounded (fun _ => []) closeCalls hcs 0 2
  have hround : round6 (1000000004 / 10000000) = 100 := by decide +kernel
  obtain ⟨hway, -, -⟩ := hbranch 2 1 (1000000004 / 10000000) 1 rfl
  rw [hround] at hway
  exact ⟨hmis, hway.trans (by decide +kernel)⟩

/-- **Rounding lets two orders meet.**  An ask at 100.0000004 and a bid at 100.0000001 rest side by
side, but both are logged at 100.000000, and the replay trades them. -/
theorem rounding_makes_trade :
    let cs : List (Call ℚ) := [.addOrder ⟨1, .sell, 1000000004 / 10000000, 5, 0, .limit⟩,
      .submitOrder ⟨2, .buy, 1000000001 / 10000000, 5, 1, .limit⟩]
    let live := RecordingOrderBook.record (exactFormat fun _ => []) cs
    let result := replayFromStream (exactFormat fun _ => []) 0 live.log
    live.book.restingIds = [2, 1] ∧ result.book.restingIds = [] ∧ result.mismatches = 1 := by
  intro cs live result
  have hrep : result.replayedTrades = [⟨2, 1, 100, 5, 1⟩] := by decide +kernel
  have hlog : result.loggedTrades = [] := by decide +kernel
  have hmis : result.mismatches = (compareTrades (exactFormat fun _ => []) 0
      result.replayedTrades result.loggedTrades).1 := rfl
  refine ⟨by decide +kernel, by decide +kernel, ?_⟩
  rw [hmis, hrep, hlog]
  simp [compareTrades]

end Leviathan
