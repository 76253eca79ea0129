import Leviathan.Log.RoundTrip

/-!
Recovery from a log cut at any line.

* `runLines` are the lines a run of calls is logged by: each call's request line and then a
  TRADE line for each of its trades.
* `CutAt`: replaying the first `k` of these lines executes the first `n` calls and records the
  first `m` trades of them.  `exists_cutAt` finds `n` and `m` for every `k`, by induction on
  the calls; the relation it carries between the live and the replayed book is equality up to
  timestamps.
* `replay_firstLines` is the statement about the text and the result of the replay.
-/

namespace Leviathan

variable {P : Type*} [LinearOrder P]

/-- The text of the first `k` lines. -/
def firstLines : ℕ → List Char → List Char
  | 0, _ => []
  | _ + 1, [] => []
  | k + 1, c :: text => c :: firstLines (if c = '\n' then k else k + 1) text

/-- The trades of a run. -/
def tradesOf (b : OrderBook P) (cs : List (Call P)) : List (Trade P) :=
  (Machine.answers call b cs).flatMap Response.tradeList

/-! ### The text of a log -/

omit [LinearOrder P] in
lemma firstLines_line {line : List Char} (h : Plain line) (k : ℕ) (text : List Char) :
    firstLines (k + 1) (line ++ '\n' :: text) = line ++ '\n' :: firstLines k text := by
  induction line with
  | nil => simp [firstLines]
  | cons c line ih =>
      have hc := (h c List.mem_cons_self).1
      have ih := ih fun d hd => h d (List.mem_cons_of_mem c hd)
      rw [List.cons_append, firstLines, if_neg hc, ih]
      rfl

omit [LinearOrder P] in
lemma firstLines_unlines {lines : List (List Char)} (h : ∀ l ∈ lines, Plain l) (k : ℕ) :
    firstLines k (unlines lines) = unlines (lines.take k) := by
  induction lines generalizing k with
  | nil => cases k <;> rfl
  | cons l lines ih =>
      have hl := h l List.mem_cons_self
      have ih := ih fun l' hl' => h l' (List.mem_cons_of_mem l hl')
      have htext : ∀ ls, unlines (l :: ls) = l ++ '\n' :: unlines ls := by simp [unlines]
      cases k with
      | zero => cases l <;> rfl
      | succ k => rw [htext, firstLines_line hl, ih, List.take_succ_cons, htext]

omit [LinearOrder P] in
/-- A text of plain lines has as many line breaks. -/
lemma count_unlines {lines : List (List Char)} (h : ∀ l ∈ lines, Plain l) :
    (unlines lines).count '\n' = lines.length := by
  induction lines with
  | nil => rfl
  | cons l lines ih =>
      have hl : '\n' ∉ l := fun hmem => (h l List.mem_cons_self _ hmem).1 rfl
      have ih := ih fun l' hl' => h l' (List.mem_cons_of_mem l hl')
      have htext : unlines (l :: lines) = l ++ '\n' :: unlines lines := by simp [unlines]
      rw [htext, List.count_append, List.count_cons_self, ih, List.count_eq_zero.mpr hl,
        List.length_cons]
      omega

/-! ### The lines of a run -/

variable (fmt : PriceFormat P)

/-- The TRADE lines of a list of trades, from a sequence number on. -/
def tradeLines (fmt : PriceFormat P) : UInt64 → List (Trade P) → List (List Char)
  | _, [] => []
  | seq, t :: ts => tradeLine fmt seq t :: tradeLines fmt (seq + 1) ts

/-- The lines of a call. -/
def callLines (r : RecordingOrderBook P) (c : Call P) : List (List Char) :=
  requestLine fmt r.seq c :: tradeLines fmt (r.seq + 1) (call r.book c).1.tradeList

/-- The lines of a run. -/
def runLines : RecordingOrderBook P → List (Call P) → List (List Char)
  | _, [] => []
  | r, c :: cs => callLines fmt r c ++ runLines (r.call fmt c).2 cs

section Lines

omit [LinearOrder P] in
lemma length_tradeLines (seq : UInt64) (ts : List (Trade P)) :
    (tradeLines fmt seq ts).length = ts.length := by
  induction ts generalizing seq with
  | nil => rfl
  | cons t ts ih => rw [tradeLines, List.length_cons, ih, List.length_cons]

omit [LinearOrder P] in
lemma take_tradeLines (seq : UInt64) (ts : List (Trade P)) (m : ℕ) :
    (tradeLines fmt seq ts).take m = tradeLines fmt seq (ts.take m) := by
  induction ts generalizing seq m with
  | nil => cases m <;> rfl
  | cons t ts ih =>
      cases m with
      | zero => rfl
      | succ m => rw [tradeLines, List.take_succ_cons, ih, List.take_succ_cons, tradeLines]

omit [LinearOrder P] in
lemma plain_tradeLines (seq : UInt64) (ts : List (Trade P)) :
    ∀ l ∈ tradeLines fmt seq ts, Plain l := by
  induction ts generalizing seq with
  | nil => simp [tradeLines]
  | cons t ts ih => exact List.forall_mem_cons.mpr ⟨plain_tradeLine fmt seq t, ih _⟩

lemma plain_runLines (r : RecordingOrderBook P) (cs : List (Call P)) :
    ∀ l ∈ runLines fmt r cs, Plain l := by
  induction cs generalizing r with
  | nil => simp [runLines]
  | cons c cs ih =>
      intro l hl
      rcases List.mem_append.mp hl with hl | hl
      · exact List.forall_mem_cons.mpr
          ⟨plain_requestLine fmt r.seq c, plain_tradeLines fmt _ _⟩ l hl
      · exact ih _ l hl

omit [LinearOrder P] in
lemma logTrades_eq (r : RecordingOrderBook P) (ts : List (Trade P)) :
    (r.logTrades fmt ts).book = r.book
      ∧ (r.logTrades fmt ts).log = r.log ++ unlines (tradeLines fmt r.seq ts) := by
  induction ts generalizing r with
  | nil => simp [RecordingOrderBook.logTrades, tradeLines, unlines]
  | cons t ts ih =>
      obtain ⟨hbook, hlog⟩ := ih (r.write fun seq => tradeLine fmt seq t)
      rw [RecordingOrderBook.logTrades, hbook, hlog]
      simp [RecordingOrderBook.write, RecordingOrderBook.nextSeq, tradeLines, unlines]

/-- **A recorded call** is the call itself, with its lines appended to the log. -/
lemma record_call (r : RecordingOrderBook P) (c : Call P) :
    (r.call fmt c).1 = (call r.book c).1 ∧ (r.call fmt c).2.book = (call r.book c).2
      ∧ (r.call fmt c).2.log = r.log ++ unlines (callLines fmt r c) := by
  cases c with
  | addOrder o =>
      refine ⟨rfl, rfl, ?_⟩
      simp [RecordingOrderBook.call, RecordingOrderBook.addOrder, RecordingOrderBook.write,
        RecordingOrderBook.nextSeq, callLines, call, Response.tradeList, tradeLines, unlines,
        requestLine]
  | submitOrder o =>
      have h := logTrades_eq fmt
        { (r.write fun seq => orderLine fmt "SUBMIT" seq o) with
          book := (submitOrder r.book o).2 } (submitOrder r.book o).1
      refine ⟨rfl, h.1, h.2.trans ?_⟩
      simp [RecordingOrderBook.write, RecordingOrderBook.nextSeq, callLines, call,
        Response.tradeList, unlines, requestLine]
  | cancelOrder id =>
      refine ⟨rfl, rfl, ?_⟩
      simp [RecordingOrderBook.call, RecordingOrderBook.cancelOrder, RecordingOrderBook.write,
        RecordingOrderBook.nextSeq, callLines, call, Response.tradeList, tradeLines, unlines,
        requestLine]
  | modifyOrder counter id p q =>
      have h := logTrades_eq fmt
        { (r.write fun seq => modifyLine fmt seq id p q) with
          book := (modifyOrder r.book counter id p q).2.1 }
        ((modifyOrder r.book counter id p q).1.getD [])
      refine ⟨rfl, h.1, h.2.trans ?_⟩
      have htrades : (modifyOrder r.book counter id p q).1.getD []
          = (call r.book (.modifyOrder counter id p q)).1.tradeList := by
        simp only [call]
        cases (modifyOrder r.book counter id p q).1 <;> rfl
      rw [htrades]
      simp [RecordingOrderBook.write, RecordingOrderBook.nextSeq, callLines, unlines, requestLine]

/-- The trades the methods of a recorder return along a run. -/
def RecordingOrderBook.trades (r : RecordingOrderBook P) (cs : List (Call P)) : List (Trade P) :=
  (Machine.answers (RecordingOrderBook.call fmt) r cs).flatMap Response.tradeList

lemma trades_eq (r : RecordingOrderBook P) (cs : List (Call P)) :
    r.trades fmt cs = tradesOf r.book cs := by
  have h : Machine.answers (RecordingOrderBook.call fmt) r cs = Machine.answers call r.book cs := by
    induction cs generalizing r with
    | nil => rfl
    | cons c cs ih =>
        obtain ⟨hresp, hbook, -⟩ := record_call fmt r c
        rw [Machine.answers_cons, Machine.answers_cons, ih, hresp, hbook]
  rw [RecordingOrderBook.trades, h, tradesOf]

/-- **A recorded run** leaves the book of the run and the lines of the run. -/
lemma record_run (r : RecordingOrderBook P) (cs : List (Call P)) :
    (Machine.final (RecordingOrderBook.call fmt) r cs).book = Machine.final call r.book cs
      ∧ (Machine.final (RecordingOrderBook.call fmt) r cs).log
        = r.log ++ unlines (runLines fmt r cs) := by
  induction cs generalizing r with
  | nil => simp [runLines, unlines]
  | cons c cs ih =>
      obtain ⟨-, hbook, hlog⟩ := record_call fmt r c
      obtain ⟨hb, hl⟩ := ih (r.call fmt c).2
      rw [Machine.final_cons, Machine.final_cons, hb, hl, hbook, hlog, runLines, unlines_append,
        List.append_assoc]
      exact ⟨rfl, rfl⟩

lemma book_record (cs : List (Call P)) :
    (RecordingOrderBook.record fmt cs).book = after cs :=
  (record_run fmt RecordingOrderBook.empty cs).1

lemma log_record (cs : List (Call P)) :
    (RecordingOrderBook.record fmt cs).log
      = unlines (runLines fmt RecordingOrderBook.empty cs) :=
  (record_run fmt RecordingOrderBook.empty cs).2

end Lines

/-! ### The lines replayed -/

lemma replayLines_append (st : Replay P) (ls ls' : List (List Char)) :
    replayLines fmt st (ls ++ ls') = replayLines fmt (replayLines fmt st ls) ls' :=
  List.foldl_append

lemma replayLines_cons (st : Replay P) {l : List Char} (hl : Plain l) (ls : List (List Char)) :
    replayLines fmt st (l :: ls) = replayLines fmt (parseLine fmt st l) ls := by
  rw [replayLines, List.foldl_cons, stripReturn_of_plain hl]
  rfl

variable {fmt}

/-- TRADE lines only record their trades, at the prices that these read as. -/
lemma replay_tradeLines_as {f : P → P} (st : Replay P) (seq : UInt64) {ts : List (Trade P)}
    (hts : ∀ t ∈ ts, fmt.ReadsAs t.price (f t.price)) :
    replayLines fmt st (tradeLines fmt seq ts)
      = { st with
          loggedTrades := st.loggedTrades ++ (ts.map (repriced f).trade).map Trade.untimed } := by
  induction ts generalizing st seq with
  | nil => simp [tradeLines, replayLines]
  | cons t ts ih =>
      have ih := ih { st with
        loggedTrades := st.loggedTrades ++ [((repriced f).trade t).untimed] } (seq + 1)
        fun u hu => hts u (List.mem_cons_of_mem t hu)
      rw [tradeLines, replayLines_cons fmt _ (plain_tradeLine fmt seq t),
        parseLine_trade_as st seq (hts t List.mem_cons_self), ih]
      simp

lemma replay_tradeLines (st : Replay P) (seq : UInt64) {ts : List (Trade P)}
    (hts : ∀ t ∈ ts, fmt.ReadsBack t.price) :
    replayLines fmt st (tradeLines fmt seq ts)
      = { st with loggedTrades := st.loggedTrades ++ ts.map Trade.untimed } := by
  have hself : ts.map (repriced id).trade = ts := List.map_id ts
  have h := replay_tradeLines_as (f := id) st seq hts
  rwa [hself] at h

omit [LinearOrder P] in
lemma countP_tradeLines (seq : UInt64) (ts : List (Trade P)) :
    (tradeLines fmt seq ts).countP isTradeLine = ts.length := by
  induction ts generalizing seq with
  | nil => rfl
  | cons t ts ih =>
      rw [tradeLines, List.countP_cons_of_pos (isTradeLine_tradeLine fmt seq t), ih,
        List.length_cons]

omit [LinearOrder P] in
lemma tradeList_untimed (r : Response P) :
    r.untimed.tradeList = r.tradeList.map Trade.untimed := by
  cases r with
  | modified o => cases o <;> rfl
  | _ => rfl

/-- **A request line**, on a book that agrees with `b` up to timestamps, leaves one that agrees
with what the call leaves at the price its price reads as, and the trades of that call. -/
lemma replay_request_as {f : P → P} {st : Replay P} {b : OrderBook P}
    (hb : st.book.untimed = b.untimed) (seq : UInt64) {c : Call P}
    (hc : ∀ p ∈ c.price?, fmt.ReadsAs p (f p)) :
    let st' := parseLine fmt st (requestLine fmt seq c)
    st'.book.untimed = (call b ((repriced f).call c)).2.untimed
      ∧ st'.replayedTrades.map Trade.untimed
        = st.replayedTrades.map Trade.untimed
          ++ (call b ((repriced f).call c)).1.tradeList.map Trade.untimed
      ∧ st'.loggedTrades = st.loggedTrades := by
  obtain ⟨c', hcc, hbook, hrep, hlog⟩ := parseLine_request_as st seq hc
  obtain ⟨hresp, hstate⟩ := call_congr hb hcc
  refine ⟨by rw [hbook, hstate], ?_, hlog⟩
  rw [hrep, List.map_append, ← tradeList_untimed, ← tradeList_untimed, hresp]

lemma replay_request {r : RecordingOrderBook P} {st : Replay P}
    (hb : st.book.untimed = r.book.untimed) {c : Call P}
    (hc : ∀ p ∈ c.price?, fmt.ReadsBack p) :
    let st' := parseLine fmt st (requestLine fmt r.seq c)
    st'.book.untimed = (call r.book c).2.untimed
      ∧ st'.replayedTrades.map Trade.untimed
        = st.replayedTrades.map Trade.untimed
          ++ (call r.book c).1.tradeList.map Trade.untimed
      ∧ st'.loggedTrades = st.loggedTrades := by
  have h := replay_request_as (f := id) hb r.seq hc
  rwa [repriced_id_call] at h

/-- The replay of the first `k` lines of a run: `n` calls executed and `m` of their trades
recorded, with the live book at `r` and the replay at `st` when the run starts. -/
structure CutAt (fmt : PriceFormat P) (r : RecordingOrderBook P) (st : Replay P)
    (cs : List (Call P)) (k n m : ℕ) : Prop where
  n_le : n ≤ cs.length
  lines : n + m = min k (runLines fmt r cs).length
  calls : ∀ i < cs.length, i < n ↔ (runLines fmt r (cs.take i)).length < k
  book : (replayLines fmt st ((runLines fmt r cs).take k)).book.untimed
    = (Machine.final call r.book (cs.take n)).untimed
  replayed : (replayLines fmt st ((runLines fmt r cs).take k)).replayedTrades.map Trade.untimed
    = st.replayedTrades.map Trade.untimed
      ++ (tradesOf r.book (cs.take n)).map Trade.untimed
  m_le : m ≤ (tradesOf r.book (cs.take n)).length
  logged : (replayLines fmt st ((runLines fmt r cs).take k)).loggedTrades
    = st.loggedTrades ++ ((tradesOf r.book (cs.take n)).map Trade.untimed).take m
  count : ((runLines fmt r cs).take k).countP isTradeLine = m

/-- A cut in front of the first line. -/
lemma CutAt.zero {r : RecordingOrderBook P} {st : Replay P}
    (hb : st.book.untimed = r.book.untimed) (cs : List (Call P)) : CutAt fmt r st cs 0 0 0 where
  n_le := Nat.zero_le _
  lines := by simp
  calls := by simp
  book := by simpa [replayLines] using hb
  replayed := by simp [replayLines, tradesOf]
  m_le := Nat.zero_le _
  logged := by simp [replayLines]
  count := by simp

section Cons

variable {r : RecordingOrderBook P} {st : Replay P} {c : Call P} {cs : List (Call P)}

lemma length_callLines :
    (callLines fmt r c).length = 1 + (call r.book c).1.tradeList.length := by
  rw [callLines, List.length_cons, length_tradeLines, Nat.add_comm]

lemma tradesOf_cons {b : OrderBook P} :
    tradesOf b (c :: cs) = (call b c).1.tradeList ++ tradesOf (call b c).2 cs := by
  rw [tradesOf, Machine.answers_cons, List.flatMap_cons, tradesOf]

lemma take_callLines (m : ℕ) : (callLines fmt r c).take (m + 1)
    = requestLine fmt r.seq c
      :: tradeLines fmt (r.seq + 1) ((call r.book c).1.tradeList.take m) := by
  rw [callLines, List.take_succ_cons, take_tradeLines]

/-- The lines of one call up to its `m`-th TRADE line. -/
lemma replay_callLines (hb : st.book.untimed = r.book.untimed)
    (hc : ∀ p ∈ c.price?, fmt.ReadsBack p)
    (hts : ∀ t ∈ (call r.book c).1.tradeList, fmt.ReadsBack t.price) (m : ℕ) :
    let st' := replayLines fmt st ((callLines fmt r c).take (m + 1))
    st'.book.untimed = (call r.book c).2.untimed
      ∧ st'.replayedTrades.map Trade.untimed
        = st.replayedTrades.map Trade.untimed
          ++ (call r.book c).1.tradeList.map Trade.untimed
      ∧ st'.loggedTrades
        = st.loggedTrades ++ ((call r.book c).1.tradeList.map Trade.untimed).take m := by
  obtain ⟨hbook, hrep, hlog⟩ := replay_request hb hc
  have hts' : ∀ t ∈ (call r.book c).1.tradeList.take m, fmt.ReadsBack t.price :=
    fun t ht => hts t (List.mem_of_mem_take ht)
  rw [take_callLines, replayLines_cons fmt _ (plain_requestLine fmt r.seq c),
    replay_tradeLines _ _ hts']
  exact ⟨hbook, hrep, by rw [hlog, List.map_take]⟩

lemma countP_callLines (m : ℕ) : ((callLines fmt r c).take (m + 1)).countP isTradeLine
    = min m (call r.book c).1.tradeList.length := by
  rw [take_callLines, List.countP_cons_of_neg (by simp [isTradeLine_requestLine]),
    countP_tradeLines, List.length_take]

/-- A cut inside the lines of the first call, after `m` of its TRADE lines. -/
lemma CutAt.inside {m : ℕ} (hb : st.book.untimed = r.book.untimed)
    (hc : ∀ p ∈ c.price?, fmt.ReadsBack p)
    (hts : ∀ t ∈ (call r.book c).1.tradeList, fmt.ReadsBack t.price)
    (hm : m < (call r.book c).1.tradeList.length) : CutAt fmt r st (c :: cs) (m + 1) 1 m := by
  have hlen : (callLines fmt r c).length = 1 + (call r.book c).1.tradeList.length :=
    length_callLines
  have htake : (runLines fmt r (c :: cs)).take (m + 1) = (callLines fmt r c).take (m + 1) := by
    rw [runLines, List.take_append_of_le_length (by omega)]
  have hone : tradesOf r.book ((c :: cs).take 1) = (call r.book c).1.tradeList := by
    rw [List.take_succ_cons, List.take_zero, tradesOf_cons]
    simp [tradesOf]
  obtain ⟨hbook, hrep, hlog⟩ := replay_callLines hb hc hts m
  refine ⟨by simp, ?_, ?_, ?_, ?_, ?_, ?_, ?_⟩
  · rw [runLines, List.length_append, hlen]
    omega
  · intro i hi
    cases i with
    | zero => simp [runLines]
    | succ i =>
        rw [List.take_succ_cons, runLines, List.length_append, hlen]
        omega
  · rw [htake]
    exact hbook
  · rw [htake, hone]
    exact hrep
  · rw [hone]
    exact hm.le
  · rw [htake, hone]
    exact hlog
  · rw [htake, countP_callLines]
    omega

/-- A cut `k` lines behind those of the first call. -/
lemma CutAt.behind {k n m : ℕ} (hb : st.book.untimed = r.book.untimed)
    (hc : ∀ p ∈ c.price?, fmt.ReadsBack p)
    (hts : ∀ t ∈ (call r.book c).1.tradeList, fmt.ReadsBack t.price)
    (h : ∀ st' : Replay P, st'.book.untimed = (r.call fmt c).2.book.untimed →
      CutAt fmt (r.call fmt c).2 st' cs k n m) :
    CutAt fmt r st (c :: cs) (1 + (call r.book c).1.tradeList.length + k) (n + 1)
      ((call r.book c).1.tradeList.length + m) := by
  have hlen : (callLines fmt r c).length = (call r.book c).1.tradeList.length + 1 := by
    rw [length_callLines, Nat.add_comm]
  have hall : (callLines fmt r c).take ((call r.book c).1.tradeList.length + 1)
      = callLines fmt r c := List.take_of_length_le hlen.le
  have htake : (runLines fmt r (c :: cs)).take (1 + (call r.book c).1.tradeList.length + k)
      = callLines fmt r c ++ (runLines fmt (r.call fmt c).2 cs).take k := by
    rw [runLines, Nat.add_comm 1, ← hlen, List.take_length_add_append]
  have hnext := (record_call fmt r c).2.1
  obtain ⟨hbook, hrep, hlog⟩ :=
    replay_callLines hb hc hts (call r.book c).1.tradeList.length
  rw [hall] at hbook hrep hlog
  have hcut := h (replayLines fmt st (callLines fmt r c)) (by rw [hbook, hnext])
  have hbook' := hcut.book
  have hrep' := hcut.replayed
  have hlog' := hcut.logged
  have hmle := hcut.m_le
  rw [hnext] at hbook' hrep' hlog' hmle
  have htrades : tradesOf r.book ((c :: cs).take (n + 1))
      = (call r.book c).1.tradeList ++ tradesOf (call r.book c).2 (cs.take n) := by
    rw [List.take_succ_cons, tradesOf_cons]
  refine ⟨?_, ?_, ?_, ?_, ?_, ?_, ?_, ?_⟩
  · have hn := hcut.n_le
    rw [List.length_cons]
    omega
  · have hl := hcut.lines
    rw [runLines, List.length_append, hlen]
    omega
  · intro i hi
    cases i with
    | zero =>
        rw [List.take_zero, runLines, List.length_nil]
        omega
    | succ i =>
        have hcall := hcut.calls i (by rw [List.length_cons] at hi; omega)
        rw [List.take_succ_cons, runLines, List.length_append, hlen]
        omega
  · rw [htake, replayLines_append, hbook', List.take_succ_cons, Machine.final_cons]
  · calc (replayLines fmt st ((runLines fmt r (c :: cs)).take
          (1 + (call r.book c).1.tradeList.length + k))).replayedTrades.map Trade.untimed
        = (replayLines fmt st (callLines fmt r c)).replayedTrades.map Trade.untimed
            ++ (tradesOf (call r.book c).2 (cs.take n)).map Trade.untimed := by
          rw [htake, replayLines_append, hrep']
      _ = st.replayedTrades.map Trade.untimed
            ++ (tradesOf r.book ((c :: cs).take (n + 1))).map Trade.untimed := by
          rw [hrep, htrades, List.map_append, List.append_assoc]
  · rw [htrades, List.length_append]
    omega
  · rw [htake, replayLines_append, hlog', hlog, htrades, List.map_append, List.append_assoc]
    congr 1
    rw [List.take_of_length_le (by simp)]
    have hlen' : (call r.book c).1.tradeList.length
        = ((call r.book c).1.tradeList.map Trade.untimed).length := by rw [List.length_map]
    rw [hlen', List.take_length_add_append]
  · have hcount : ((callLines fmt r c).take ((call r.book c).1.tradeList.length + 1)).countP
        isTradeLine = _ := countP_callLines _
    rw [hall, Nat.min_self] at hcount
    rw [htake, List.countP_append, hcount, hcut.count]

end Cons

/-- **A cut at any line** executes a number of calls and records a number of their trades. -/
lemma exists_cutAt (cs : List (Call P)) (hcs : ∀ c ∈ cs, ∀ p ∈ c.price?, fmt.ReadsBack p)
    (r : RecordingOrderBook P) (hwf : BookWF r.book)
    (hr : ∀ s, ∀ o ∈ r.book.resting s, fmt.ReadsBack o.price) (k : ℕ) :
    ∃ n m, ∀ st : Replay P, st.book.untimed = r.book.untimed → CutAt fmt r st cs k n m := by
  induction cs generalizing r k with
  | nil =>
      refine ⟨0, 0, fun st hb => ?_⟩
      have h : CutAt fmt r st [] 0 0 0 := CutAt.zero hb []
      exact ⟨h.n_le, by simp [runLines], by simp, by simpa [runLines] using h.book,
        by simpa [runLines] using h.replayed, h.m_le, by simpa [runLines] using h.logged,
        by simp [runLines]⟩
  | cons c cs ih =>
      have hc := hcs c List.mem_cons_self
      obtain ⟨hprices, hts⟩ := prices_call hwf hr c hc
      rcases Nat.eq_zero_or_pos k with rfl | hk
      · exact ⟨0, 0, fun st hb => CutAt.zero hb _⟩
      rcases lt_or_ge (k - 1) (call r.book c).1.tradeList.length with hin | hout
      · obtain ⟨m, rfl⟩ : ∃ m, k = m + 1 := ⟨k - 1, by omega⟩
        exact ⟨1, m, fun st hb => CutAt.inside hb hc hts hin⟩
      · obtain ⟨j, rfl⟩ : ∃ j, k = 1 + (call r.book c).1.tradeList.length + j :=
          ⟨k - (1 + (call r.book c).1.tradeList.length), by omega⟩
        have hbook := (record_call fmt r c).2.1
        obtain ⟨n, m, hcut⟩ := ih (fun c' hc' => hcs c' (List.mem_cons_of_mem c hc'))
          (r.call fmt c).2 (hbook ▸ wf_call hwf c) (hbook ▸ hprices) j
        exact ⟨n + 1, _, fun st hb => CutAt.behind hb hc hts hcut⟩

/-! ### The result of the replay -/

omit [LinearOrder P] in
/-- Trades that were recorded without their timestamps differ in nothing else. -/
lemma not_tradesDiffer_untimed (t : Trade P) : ¬ tradesDiffer fmt t t.untimed := by
  simp [tradesDiffer, Trade.untimed]

omit [LinearOrder P] in
/-- Compared with the first `m` of themselves, the trades mismatch where these end. -/
lemma compareTrades_take (i : ℕ) (ts : List (Trade P)) (m : ℕ) :
    (compareTrades fmt i ts ((ts.map Trade.untimed).take m)).1 = ts.length - m := by
  induction ts generalizing i m with
  | nil => simp [compareTrades]
  | cons t ts ih =>
      cases m with
      | zero =>
          have h := ih (i + 1) 0
          rw [List.take_zero] at h
          simp [compareTrades, h]
      | succ m =>
          have h := ih (i + 1) m
          simp [compareTrades, not_tradesDiffer_untimed, h]

lemma length_runLines (r : RecordingOrderBook P) (cs : List (Call P)) :
    (runLines fmt r cs).length = cs.length + (tradesOf r.book cs).length := by
  induction cs generalizing r with
  | nil => rfl
  | cons c cs ih =>
      have hnext := (record_call fmt r c).2.1
      calc (runLines fmt r (c :: cs)).length
          = (callLines fmt r c).length + (runLines fmt (r.call fmt c).2 cs).length := by
            rw [runLines, List.length_append]
        _ = 1 + (call r.book c).1.tradeList.length
              + (cs.length + (tradesOf (call r.book c).2 cs).length) := by
            rw [length_callLines, ih, hnext]
        _ = (c :: cs).length + (tradesOf r.book (c :: cs)).length := by
            rw [tradesOf_cons, List.length_append, List.length_cons]
            omega

lemma length_tradesOf_take (b : OrderBook P) (cs : List (Call P)) (n : ℕ) :
    (tradesOf b (cs.take n)).length ≤ (tradesOf b cs).length := by
  conv_rhs => rw [← List.take_append_drop n cs, tradesOf, Machine.answers_append,
    List.flatMap_append, List.length_append]
  exact Nat.le_add_right _ _

/-- Behind the last line all calls are executed and all trades recorded. -/
lemma CutAt.whole {r : RecordingOrderBook P} {st : Replay P} {cs : List (Call P)} {k n m : ℕ}
    (h : CutAt fmt r st cs k n m) (hk : (runLines fmt r cs).length ≤ k) :
    n = cs.length ∧ m = (tradesOf r.book (cs.take n)).length := by
  have hlines := h.lines
  have hn := h.n_le
  have hm := h.m_le
  have hle := length_tradesOf_take r.book cs n
  rw [Nat.min_eq_right hk, length_runLines] at hlines
  omega

/-- The result of replaying the lines in front of a cut. -/
lemma CutAt.result {cs : List (Call P)} {counter : UInt64} {k n m : ℕ}
    (h : CutAt fmt RecordingOrderBook.empty (Replay.init counter) cs k n m) {input : List Char}
    (hinput : getlines input = (runLines fmt RecordingOrderBook.empty cs).take k) :
    let result := replayFromStream fmt counter input
    result.book.untimed = (Machine.final call OrderBook.empty (cs.take n)).untimed
      ∧ result.replayedTrades.map Trade.untimed
        = (tradesOf OrderBook.empty (cs.take n)).map Trade.untimed
      ∧ result.loggedTrades = (result.replayedTrades.map Trade.untimed).take m
      ∧ result.mismatches + m = (tradesOf OrderBook.empty (cs.take n)).length := by
  intro result
  have hst : replayLines fmt (Replay.init counter) (getlines input)
      = replayLines fmt (Replay.init counter) ((runLines fmt RecordingOrderBook.empty cs).take k) :=
    congrArg _ hinput
  have hreplayed : result.replayedTrades.map Trade.untimed
      = (tradesOf OrderBook.empty (cs.take n)).map Trade.untimed := by
    show (replayLines fmt (Replay.init counter) (getlines input)).replayedTrades.map _ = _
    rw [hst, h.replayed]
    rfl
  have hlogged : result.loggedTrades = (result.replayedTrades.map Trade.untimed).take m := by
    show (replayLines fmt (Replay.init counter) (getlines input)).loggedTrades = _
    rw [hst, h.logged, hreplayed]
    rfl
  refine ⟨?_, hreplayed, hlogged, ?_⟩
  · show (replayLines fmt (Replay.init counter) (getlines input)).book.untimed = _
    rw [hst]
    exact h.book
  · have hlen := congrArg List.length hreplayed
    rw [List.length_map, List.length_map] at hlen
    have hmle : m ≤ (tradesOf OrderBook.empty (cs.take n)).length := h.m_le
    have hmis : result.mismatches = result.replayedTrades.length - m := by
      show (compareTrades fmt 0 result.replayedTrades result.loggedTrades).1 = _
      rw [hlogged, compareTrades_take]
    omega

/-- **Recovery at every line boundary.**  For every run of calls at prices that read back and
every `k`, replaying the first `k` lines of its log executes exactly the first `n` calls, those
whose request line is among these lines (the request line of call `i` stands behind the lines
of the calls before it); up to timestamps it leaves the book and gives the trades of these
calls; the trades it finds recorded are the first of them, one for each TRADE line among the
`k`; and it reports as many mismatches as there are TRADE lines missing, none for the whole
log. -/
theorem replay_firstLines (fmt : PriceFormat P) (cs : List (Call P))
    (hcs : ∀ c ∈ cs, ∀ p ∈ c.price?, fmt.ReadsBack p) (counter : UInt64) (k : ℕ) :
    let log := (RecordingOrderBook.record fmt cs).log
    let result := replayFromStream fmt counter (firstLines k log)
    let recorded := (getlines (firstLines k log)).countP isTradeLine
    ∃ n ≤ cs.length,
      (∀ i < cs.length,
          i < n ↔ (RecordingOrderBook.record fmt (cs.take i)).log.count '\n' < k)
        ∧ result.book.untimed
          = (RecordingOrderBook.record fmt (cs.take n)).book.untimed
        ∧ result.replayedTrades.map Trade.untimed
          = (RecordingOrderBook.empty.trades fmt (cs.take n)).map Trade.untimed
        ∧ result.loggedTrades = (result.replayedTrades.map Trade.untimed).take recorded
        ∧ result.mismatches + recorded = (RecordingOrderBook.empty.trades fmt (cs.take n)).length
        ∧ (log.count '\n' ≤ k → n = cs.length ∧ result.mismatches = 0) := by
  intro log result recorded
  have hrun : ∀ cs : List (Call P), (RecordingOrderBook.record fmt cs).book
        = Machine.final call OrderBook.empty cs
      ∧ (RecordingOrderBook.record fmt cs).log
        = unlines (runLines fmt RecordingOrderBook.empty cs) := fun cs =>
    record_run fmt RecordingOrderBook.empty cs
  have hcount : ∀ cs : List (Call P), (RecordingOrderBook.record fmt cs).log.count '\n'
      = (runLines fmt RecordingOrderBook.empty cs).length := fun cs => by
    calc (RecordingOrderBook.record fmt cs).log.count '\n'
        = (unlines (runLines fmt RecordingOrderBook.empty cs)).count '\n' := by rw [(hrun cs).2]
      _ = (runLines fmt RecordingOrderBook.empty cs).length :=
          count_unlines (plain_runLines fmt RecordingOrderBook.empty cs)
  have hplain := plain_runLines fmt RecordingOrderBook.empty cs
  have hlines : getlines (firstLines k log)
      = (runLines fmt RecordingOrderBook.empty cs).take k := by
    calc getlines (firstLines k (RecordingOrderBook.record fmt cs).log)
        = getlines (unlines ((runLines fmt RecordingOrderBook.empty cs).take k)) := by
          rw [(hrun cs).2, firstLines_unlines hplain]
      _ = (runLines fmt RecordingOrderBook.empty cs).take k :=
          getlines_unlines fun l hl => hplain l (List.mem_of_mem_take hl)
  obtain ⟨n, m, hcut⟩ := exists_cutAt cs hcs RecordingOrderBook.empty BookWF.empty
    (fun s o ho => by cases s <;> cases ho) k
  have hcut := hcut (Replay.init counter) rfl
  have hrec : recorded = m := by
    show (getlines (firstLines k log)).countP isTradeLine = m
    rw [hlines, hcut.count]
  obtain ⟨hbook, hreplayed, hlogged, hmis⟩ := hcut.result hlines
  have htrades : RecordingOrderBook.empty.trades fmt (cs.take n)
      = tradesOf OrderBook.empty (cs.take n) := trades_eq fmt _ _
  refine ⟨n, hcut.n_le, ?_, ?_, ?_, ?_, ?_, ?_⟩
  · intro i hi
    rw [hcount]
    exact hcut.calls i hi
  · rw [(hrun _).1]
    exact hbook
  · rw [htrades]
    exact hreplayed
  · rw [hrec]
    exact hlogged
  · rw [hrec, htrades]
    exact hmis
  · intro hk
    have hk : (RecordingOrderBook.record fmt cs).log.count '\n' ≤ k := hk
    rw [hcount] at hk
    obtain ⟨hn, hm⟩ := hcut.whole hk
    have hm : m = (tradesOf OrderBook.empty (cs.take n)).length := hm
    refine ⟨hn, ?_⟩
    show (replayFromStream fmt counter (firstLines k log)).mismatches = 0
    omega

/-- Whole prices, as the log sees them. -/
def wholeFormat : PriceFormat ℤ where
  value p := p
  nearest q := some (round q)
  general p := (if p < 0 then ['-'] else []) ++ Decimal.natural p.natAbs

/-- The log cut behind the first of three trade lines: the replayed book is whole all the same, and
the two trades that are not in the log are reported. -/
theorem replay_firstLines_sample :
    let cs := sampleCalls ++ [.submitOrder ⟨9, .buy, 102, 8, 10, .limit⟩]
    let log := (RecordingOrderBook.record wholeFormat cs).log
    let result := replayFromStream wholeFormat 0 (firstLines 7 log)
    result.book.untimed = (RecordingOrderBook.record wholeFormat cs).book.untimed
      ∧ result.mismatches = 2 := by
  intro cs log result
  obtain ⟨n, hn, hcalls, hbook, -, -, hmis, -⟩ :=
    replay_firstLines wholeFormat cs (by decide +kernel) 0 7
  -- the request line of the last call is the sixth
  have h6 : 5 < n := (hcalls 5 (by decide)).mpr (by decide +kernel)
  obtain rfl : n = 6 := le_antisymm hn h6
  have hrec : (getlines (firstLines 7 log)).countP isTradeLine = 1 := by decide +kernel
  have htrades : (RecordingOrderBook.empty.trades wholeFormat (cs.take 6)).length = 3 := by
    decide +kernel
  have hmis : result.mismatches + (getlines (firstLines 7 log)).countP isTradeLine
      = (RecordingOrderBook.empty.trades wholeFormat (cs.take 6)).length := hmis
  exact ⟨hbook, by omega⟩

end Leviathan
