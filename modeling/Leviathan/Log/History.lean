import Leviathan.Log.Compaction
import Leviathan.Log.Verdict

/-!
A log is the history of its run.

* `history` are the calls that the lines of a text ask for, without the timestamps, which are not
  written; `seqOf` is the number a line carries.
* `history_log`: the history of the log of a run is the run, the trades it records are those the
  methods returned, and its lines are numbered from zero without a gap, the TRADE lines among them.
* `log_startsWith_iff`: one log is the beginning of another exactly when the one run is the
  beginning of the other.  So the log determines the run, and timestamps leave no trace in it.
-/

namespace Leviathan

variable {P : Type*}

/-- The call an entry asks for, of an order stamped zero. -/
def Entry.call? : Entry P → Option (Call P)
  | .add orderId side price quantity type =>
      some (.addOrder ⟨orderId, side, price, quantity, 0, type⟩)
  | .cancel orderId => some (.cancelOrder orderId)
  | .submit orderId side price quantity type =>
      some (.submitOrder ⟨orderId, side, price, quantity, 0, type⟩)
  | .modify orderId newPrice newQuantity => some (.modifyOrder 0 orderId newPrice newQuantity)
  | .trade _ => none

/-- The calls that the lines of a text ask for. -/
def history (fmt : PriceFormat P) (text : List Char) : List (Call P) :=
  (entries fmt (getlines text)).filterMap Entry.call?

/-- The sequence number of a line, the field behind its tag. -/
def seqOf (line : List Char) : Option UInt64 := (readWord (splitTag line).2).map Prod.fst

/-! ### What the written lines are read as -/

section Lines

variable {fmt : PriceFormat P}

/-- The entry of a call. -/
def Call.entry : Call P → Entry P
  | .addOrder o => .add o.id o.side o.price o.quantity o.type
  | .submitOrder o => .submit o.id o.side o.price o.quantity o.type
  | .cancelOrder id => .cancel id
  | .modifyOrder _ id p q => .modify id p q

lemma entry_call? (c : Call P) : c.entry.call? = some c.untimed := by cases c <;> rfl

lemma entry_trade? (c : Call P) : c.entry.trade? = none := by cases c <;> rfl

lemma entryOf_requestLine (seq : UInt64) {c : Call P} (hc : ∀ p ∈ c.price?, fmt.ReadsBack p) :
    entryOf fmt (requestLine fmt seq c) = some c.entry := by
  cases c with
  | addOrder o =>
      have hfields := orderFields_commas seq (hc _ rfl)
      simp only [entryOf, requestLine, orderLine, splitTag_commas "ADD" (by decide), if_true,
        hfields]
      rfl
  | submitOrder o =>
      have hfields := orderFields_commas seq (hc _ rfl)
      have hadd : "SUBMIT".toList ≠ "ADD".toList := by decide
      have hcancel : "SUBMIT".toList ≠ "CANCEL".toList := by decide
      simp only [entryOf, requestLine, orderLine, splitTag_commas "SUBMIT" (by decide), if_neg hadd,
        if_neg hcancel, if_true, hfields]
      rfl
  | cancelOrder id =>
      have hadd : "CANCEL".toList ≠ "ADD".toList := by decide
      simp only [entryOf, requestLine, cancelLine, splitTag_commas "CANCEL" (by decide),
        if_neg hadd, if_true, idField_commas]
      rfl
  | modifyOrder counter id p q =>
      have hfields := modifyFields_commas seq id (hc p rfl) q
      have hadd : "MODIFY".toList ≠ "ADD".toList := by decide
      have hcancel : "MODIFY".toList ≠ "CANCEL".toList := by decide
      have hsubmit : "MODIFY".toList ≠ "SUBMIT".toList := by decide
      simp only [entryOf, requestLine, modifyLine, splitTag_commas "MODIFY" (by decide),
        if_neg hadd, if_neg hcancel, if_neg hsubmit, if_true, hfields]
      rfl

lemma entryOf_tradeLine (seq : UInt64) {t : Trade P} (ht : fmt.ReadsBack t.price) :
    entryOf fmt (tradeLine fmt seq t) = some (.trade t.untimed) := by
  have hfields := tradeFields_commas seq ht
  have hadd : "TRADE".toList ≠ "ADD".toList := by decide
  have hcancel : "TRADE".toList ≠ "CANCEL".toList := by decide
  have hsubmit : "TRADE".toList ≠ "SUBMIT".toList := by decide
  have hmodify : "TRADE".toList ≠ "MODIFY".toList := by decide
  simp only [entryOf, tradeLine, splitTag_commas "TRADE" (by decide), if_neg hadd,
    if_neg hcancel, if_neg hsubmit, if_neg hmodify, if_true, hfields]
  rfl

/-- The number behind a tag, in front of more fields. -/
lemma seqOf_commas (tag : String) (h : ',' ∉ tag.toList) (seq : UInt64) (f : List Char)
    (fs : List (List Char)) :
    seqOf (commas (tag.toList :: printWord seq :: f :: fs)) = some seq := by
  have hfields : commas (printWord seq :: f :: fs) = printWord seq ++ ',' :: commas (f :: fs) := rfl
  rw [seqOf, splitTag_commas tag h, hfields, readWord_printWord seq (ends_comma _)]
  rfl

lemma seqOf_requestLine (seq : UInt64) (c : Call P) :
    seqOf (requestLine fmt seq c) = some seq := by
  cases c with
  | addOrder o => exact seqOf_commas "ADD" (by decide) seq _ _
  | submitOrder o => exact seqOf_commas "SUBMIT" (by decide) seq _ _
  | cancelOrder id => exact seqOf_commas "CANCEL" (by decide) seq _ _
  | modifyOrder _ id p q => exact seqOf_commas "MODIFY" (by decide) seq _ _

lemma seqOf_tradeLine (seq : UInt64) (t : Trade P) : seqOf (tradeLine fmt seq t) = some seq :=
  seqOf_commas "TRADE" (by decide) seq _ _

end Lines

/-! ### The lines of a run -/

variable [LinearOrder P] {fmt : PriceFormat P}

omit [LinearOrder P] in
lemma entries_tradeLines (seq : UInt64) {ts : List (Trade P)}
    (hts : ∀ t ∈ ts, fmt.ReadsBack t.price) :
    entries fmt (tradeLines fmt seq ts) = ts.map fun t => .trade t.untimed := by
  induction ts generalizing seq with
  | nil => rfl
  | cons t ts ih =>
      obtain ⟨ht, hts⟩ := List.forall_mem_cons.mp hts
      rw [tradeLines, entries_cons, stripReturn_of_plain (plain_tradeLine fmt seq t),
        entryOf_tradeLine seq ht, ih _ hts]
      rfl

/-- **The entries of a call**: its own, and one for each of its trades. -/
lemma entries_callLines {r : RecordingOrderBook P} {c : Call P}
    (hc : ∀ p ∈ c.price?, fmt.ReadsBack p)
    (hts : ∀ t ∈ (Leviathan.call r.book c).1.tradeList, fmt.ReadsBack t.price) :
    entries fmt (callLines fmt r c)
      = c.entry :: (Leviathan.call r.book c).1.tradeList.map fun t => .trade t.untimed := by
  rw [callLines, entries_cons, stripReturn_of_plain (plain_requestLine fmt r.seq c),
    entryOf_requestLine r.seq hc, entries_tradeLines _ hts]
  rfl

/-- **The entries of a run**: its calls, and its trades between them. -/
lemma entries_runLines (cs : List (Call P)) (hcs : ∀ c ∈ cs, ∀ p ∈ c.price?, fmt.ReadsBack p)
    (r : RecordingOrderBook P) (hwf : BookWF r.book)
    (hr : ∀ s, ∀ o ∈ r.book.resting s, fmt.ReadsBack o.price) :
    (entries fmt (runLines fmt r cs)).filterMap Entry.call? = cs.map Call.untimed
      ∧ (entries fmt (runLines fmt r cs)).filterMap Entry.trade?
        = (tradesOf r.book cs).map Trade.untimed := by
  induction cs generalizing r with
  | nil => exact ⟨rfl, rfl⟩
  | cons c cs ih =>
      obtain ⟨hc, hcs⟩ := List.forall_mem_cons.mp hcs
      obtain ⟨hprices, hts⟩ := prices_call hwf hr c hc
      have hbook := (record_call fmt r c).2.1
      obtain ⟨hcalls, htrades⟩ := ih hcs (r.call fmt c).2 (hbook ▸ wf_call hwf c) (hbook ▸ hprices)
      have hnone : ∀ ts : List (Trade P),
          (ts.map fun t => Entry.trade t.untimed).filterMap Entry.call? = [] := fun ts => by
        rw [List.filterMap_map]
        exact List.filterMap_eq_nil_iff.mpr fun t _ => rfl
      have hsome : ∀ ts : List (Trade P),
          (ts.map fun t => Entry.trade t.untimed).filterMap Entry.trade? = ts.map Trade.untimed :=
        fun ts => by
          rw [List.filterMap_map, ← List.filterMap_eq_map]
          rfl
      rw [runLines, entries_append, entries_callLines hc hts, List.cons_append]
      refine ⟨?_, ?_⟩
      · rw [List.filterMap_cons_some (entry_call? c), List.filterMap_append, hnone, hcalls]
        rfl
      · rw [List.filterMap_cons_none (entry_trade? c), List.filterMap_append, hsome, htrades,
          tradesOf_cons, hbook, List.map_append]

/-! ### Numbers -/

/-- The lines are numbered from `seq` on. -/
def Numbered : UInt64 → List (List Char) → Prop
  | _, [] => True
  | seq, line :: lines => seqOf line = some seq ∧ Numbered (seq + 1) lines

lemma Numbered.append {seq : UInt64} {ls ls' : List (List Char)} (h : Numbered seq ls)
    (h' : Numbered (seq + UInt64.ofNat ls.length) ls') : Numbered seq (ls ++ ls') := by
  induction ls generalizing seq with
  | nil => simpa using h'
  | cons l ls ih =>
      refine ⟨h.1, ih h.2 ?_⟩
      have hseq : seq + UInt64.ofNat (l :: ls).length = seq + 1 + UInt64.ofNat ls.length := by
        rw [List.length_cons, UInt64.ofNat_add, UInt64.add_assoc, UInt64.add_comm 1]
        rfl
      rwa [hseq] at h'

lemma Numbered.getElem? {seq : UInt64} {ls : List (List Char)} (h : Numbered seq ls) {k : ℕ}
    {line : List Char} (hk : ls[k]? = some line) : seqOf line = some (seq + UInt64.ofNat k) := by
  induction ls generalizing seq k with
  | nil => simp at hk
  | cons l ls ih =>
      cases k with
      | zero =>
          obtain rfl : l = line := by simpa using hk
          simpa using h.1
      | succ k =>
          rw [ih h.2 (by simpa using hk), UInt64.ofNat_add, UInt64.add_assoc, UInt64.add_comm 1]
          rfl

omit [LinearOrder P] in
lemma numbered_tradeLines (seq : UInt64) (ts : List (Trade P)) :
    Numbered seq (tradeLines fmt seq ts) := by
  induction ts generalizing seq with
  | nil => trivial
  | cons t ts ih => exact ⟨seqOf_tradeLine seq t, ih _⟩

omit [LinearOrder P] in
lemma seq_logTrades (r : RecordingOrderBook P) (ts : List (Trade P)) :
    (r.logTrades fmt ts).seq = r.seq + UInt64.ofNat ts.length := by
  induction ts generalizing r with
  | nil => simp [RecordingOrderBook.logTrades]
  | cons t ts ih =>
      rw [RecordingOrderBook.logTrades, ih, List.length_cons, UInt64.ofNat_add,
        UInt64.add_comm (UInt64.ofNat ts.length), ← UInt64.add_assoc]
      rfl

/-- A call takes as many numbers as it writes lines. -/
lemma seq_call (r : RecordingOrderBook P) (c : Call P) :
    (r.call fmt c).2.seq = r.seq + UInt64.ofNat (callLines fmt r c).length := by
  have hone : ∀ n : ℕ, r.seq + UInt64.ofNat (1 + n) = r.seq + 1 + UInt64.ofNat n := fun n => by
    rw [UInt64.ofNat_add, ← UInt64.add_assoc]
    rfl
  rw [length_callLines, hone]
  cases c with
  | addOrder o => exact (UInt64.add_zero _).symm
  | submitOrder o => exact seq_logTrades _ _
  | cancelOrder id => exact (UInt64.add_zero _).symm
  | modifyOrder counter id p q =>
      rw [tradeList_modifyOrder]
      exact seq_logTrades _ _

lemma numbered_callLines (r : RecordingOrderBook P) (c : Call P) :
    Numbered r.seq (callLines fmt r c) :=
  ⟨seqOf_requestLine r.seq c, numbered_tradeLines _ _⟩

lemma numbered_runLines (r : RecordingOrderBook P) (cs : List (Call P)) :
    Numbered r.seq (runLines fmt r cs) := by
  induction cs generalizing r with
  | nil => trivial
  | cons c cs ih => exact (numbered_callLines r c).append (seq_call r c ▸ ih _)

/-! ### The history of a log -/

lemma getlines_record (cs : List (Call P)) :
    getlines (RecordingOrderBook.record fmt cs).log
      = runLines fmt RecordingOrderBook.empty cs := by
  rw [log_record, getlines_unlines (plain_runLines fmt _ cs)]

/-- **The log of a run is its history.**  For every run at prices that read back: the calls its log
asks for are the calls of the run, timestamps aside; the trades it records are those the methods
returned; and the `k`-th of its lines carries the number `k`, as a word. -/
theorem history_log (fmt : PriceFormat P) (cs : List (Call P))
    (hcs : ∀ c ∈ cs, ∀ p ∈ c.price?, fmt.ReadsBack p) :
    let log := (RecordingOrderBook.record fmt cs).log
    history fmt log = cs.map Call.untimed
      ∧ recorded fmt (getlines log)
        = (RecordingOrderBook.empty.trades fmt cs).map Trade.untimed
      ∧ ∀ (k : ℕ) (line : List Char), (getlines log)[k]? = some line →
          seqOf line = some (UInt64.ofNat k) := by
  intro log
  have hlines : getlines log = runLines fmt RecordingOrderBook.empty cs := getlines_record cs
  obtain ⟨hcalls, htrades⟩ := entries_runLines cs hcs RecordingOrderBook.empty BookWF.empty
    fun s o ho => by cases s <;> cases ho
  refine ⟨?_, ?_, fun k line hk => ?_⟩
  · rw [history, hlines, hcalls]
  · rw [recorded, hlines, htrades, trades_eq]
  · rw [hlines] at hk
    rw [(numbered_runLines RecordingOrderBook.empty cs).getElem? hk]
    exact congrArg some (UInt64.zero_add _)

/-- The calls of the sample book and one that trades, read back from the log.  Its last line, a
trade, is the line 8. -/
theorem history_log_sample :
    let cs : List (Call ℤ) := sampleCalls ++ [.submitOrder ⟨9, .buy, 102, 8, 10, .limit⟩]
    history wholeFormat (RecordingOrderBook.record wholeFormat cs).log = cs.map Call.untimed
      ∧ ((getlines (RecordingOrderBook.record wholeFormat cs).log).map seqOf).getLast?
        = some (some 8) := by
  intro cs
  exact ⟨(history_log wholeFormat cs (by decide +kernel)).1, by decide +kernel⟩

/-! ### Logs and beginnings -/

omit [LinearOrder P] in
/-- A text of plain lines that begins with another has its lines first. -/
lemma lines_startsWith {ls ls' : List (List Char)} (h : ∀ l ∈ ls, Plain l)
    (h' : ∀ l ∈ ls', Plain l) (hle : unlines ls <+: unlines ls') : ls <+: ls' := by
  induction ls generalizing ls' with
  | nil => exact List.nil_prefix
  | cons l ls ih =>
      have htext : ∀ l ls, unlines (l :: ls) = l ++ '\n' :: unlines ls := by simp [unlines]
      obtain ⟨hl, hls⟩ := List.forall_mem_cons.mp h
      obtain ⟨rest, hrest⟩ := hle
      cases ls' with
      | nil => simp [unlines] at hrest
      | cons l' ls' =>
          obtain ⟨hl', hls'⟩ := List.forall_mem_cons.mp h'
          rw [htext, htext, List.append_assoc, List.cons_append] at hrest
          have hfirst : ∀ {l : List Char}, Plain l → ∀ s,
              (l ++ '\n' :: s).takeWhile (fun c => decide (c ≠ '\n')) = l := by
            intro l hl s
            have hall : ∀ c ∈ l, decide (c ≠ '\n') = true := fun c hc => by simp [(hl c hc).1]
            rw [List.takeWhile_append_of_pos hall]
            simp
          have hsame : l = l' := by
            rw [← hfirst hl, hrest, hfirst hl']
          subst hsame
          obtain ⟨-, htail⟩ := List.cons.inj (List.append_cancel_left hrest)
          exact (List.prefix_cons_inj l).mpr (ih hls hls' ⟨rest, htail⟩)

omit [LinearOrder P] in
lemma tradeLines_untimed (seq : UInt64) (ts : List (Trade P)) :
    tradeLines fmt seq (ts.map Trade.untimed) = tradeLines fmt seq ts := by
  induction ts generalizing seq with
  | nil => rfl
  | cons t ts ih => rw [List.map_cons, tradeLines, tradeLines, ih]; rfl

/-- **Timestamps are not written**: recorders that agree up to them write the same lines for calls
that agree up to them. -/
lemma runLines_congr {r r' : RecordingOrderBook P} (hseq : r.seq = r'.seq)
    (hbook : r.book.untimed = r'.book.untimed) {cs cs' : List (Call P)}
    (hcs : cs.map Call.untimed = cs'.map Call.untimed) :
    runLines fmt r cs = runLines fmt r' cs' := by
  induction cs generalizing r r' cs' with
  | nil =>
      obtain rfl : cs' = [] := by simpa using hcs.symm
      rfl
  | cons c cs ih =>
      cases cs' with
      | nil => simp at hcs
      | cons c' cs' =>
          obtain ⟨hc, hcs⟩ := List.cons.inj hcs
          obtain ⟨hresponse, hnext⟩ := call_congr hbook hc
          have hrequest : ∀ c : Call P, requestLine fmt r.seq c
              = requestLine fmt r.seq c.untimed := fun c => by cases c <;> rfl
          have htrades : (Leviathan.call r.book c).1.tradeList.map Trade.untimed
              = (Leviathan.call r'.book c').1.tradeList.map Trade.untimed := by
            rw [← tradeList_untimed, hresponse, tradeList_untimed]
          have hlines : callLines fmt r c = callLines fmt r' c' := by
            rw [callLines, callLines, ← hseq, hrequest c, hc, ← hrequest c',
              ← tradeLines_untimed, htrades, tradeLines_untimed]
          rw [runLines, runLines, hlines]
          refine congrArg _ (ih ?_ ?_ hcs)
          · rw [seq_call, seq_call, hlines, hseq]
          · rw [(record_call fmt r c).2.1, (record_call fmt r' c').2.1, hnext]

/-- **Logs begin as their runs do.**  For runs at prices that read back, the log of the one is the
beginning of the log of the other exactly when, timestamps aside, the one run is the beginning of
the other. -/
theorem log_startsWith_iff (fmt : PriceFormat P) (cs cs' : List (Call P))
    (hcs : ∀ c ∈ cs, ∀ p ∈ c.price?, fmt.ReadsBack p)
    (hcs' : ∀ c ∈ cs', ∀ p ∈ c.price?, fmt.ReadsBack p) :
    (RecordingOrderBook.record fmt cs).log <+: (RecordingOrderBook.record fmt cs').log
      ↔ cs.map Call.untimed <+: cs'.map Call.untimed := by
  have hcalls : ∀ cs : List (Call P), (∀ c ∈ cs, ∀ p ∈ c.price?, fmt.ReadsBack p) →
      (entries fmt (runLines fmt RecordingOrderBook.empty cs)).filterMap Entry.call?
        = cs.map Call.untimed := fun cs hcs =>
    (entries_runLines cs hcs RecordingOrderBook.empty BookWF.empty
      fun s o ho => by cases s <;> cases ho).1
  constructor
  · intro hle
    rw [log_record, log_record] at hle
    have hlines := lines_startsWith (plain_runLines fmt _ cs) (plain_runLines fmt _ cs') hle
    rw [← hcalls cs hcs, ← hcalls cs' hcs']
    exact (hlines.filterMap _).filterMap _
  · intro hle
    obtain ⟨ds, rest, rfl, hds⟩ : ∃ ds rest, cs' = ds ++ rest
        ∧ ds.map Call.untimed = cs.map Call.untimed := by
      obtain ⟨rest, hrest⟩ := hle
      obtain ⟨ds, rest', hsplit, hds, -⟩ := List.map_eq_append_iff.mp hrest.symm
      exact ⟨ds, rest', hsplit, hds⟩
    have hsame : (RecordingOrderBook.record fmt cs).log
        = (RecordingOrderBook.record fmt ds).log := by
      rw [log_record, log_record, runLines_congr rfl rfl hds.symm]
    rw [hsame, record_append]
    exact List.prefix_append _ _

/-- The log of an order stamped otherwise begins the log of the sample; a cancellation of 1 is not
the beginning of one of 10. -/
theorem log_startsWith_iff_sample :
    (RecordingOrderBook.record wholeFormat [.addOrder ⟨1, .sell, 101, 5, 77, .limit⟩]).log
        <+: (RecordingOrderBook.record wholeFormat sampleCalls).log
      ∧ ¬ (RecordingOrderBook.record wholeFormat [.cancelOrder 1]).log
        <+: (RecordingOrderBook.record wholeFormat [.cancelOrder 10]).log := by
  refine ⟨?_, fun h => ?_⟩
  · exact (log_startsWith_iff wholeFormat _ _ (by decide +kernel) (by decide +kernel)).mpr
      (by decide)
  · have h := (log_startsWith_iff wholeFormat _ _ (by simp [Call.price?])
      (by simp [Call.price?])).mp h
    exact absurd h (by decide)

end Leviathan
