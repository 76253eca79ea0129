import Leviathan.Log.Grammar

/-!
The verdict of a replay.

* `entries` are the entries that the lines of a text are read as; the rest of the text plays no
  part in a replay but for its warnings (`replayLines_eq`).
* A replay executes the requests among them on one book and keeps the recorded trades apart, so
  its result is that of two lists, `requests` and `recorded` (`replay_eq_judge`).
* `compareTrades_count` and its corollaries: the number of mismatches is the difference of the
  lengths and the number of differing positions, and the report is empty when there are none.
* `Edit` is a change of one line that leaves the two lists as they are: a line skipped put in, a
  carriage return put behind a line, a TRADE line moved past another line.
-/

namespace Leviathan

open Decimal

variable {P : Type*}

/-! ### Carriage returns -/

lemma readValue_append_return (k : Kind) (s : List Char) :
    readValue k (s ++ ['\r']) = (readValue k s).map fun r => (r.1, r.2 ++ ['\r']) := by
  have hc : isSpace '\r' = true := by decide
  cases k with
  | word =>
      simp only [readValue, readWord, unsigned, integer_append_space hc]
      cases integer s with
      | none => rfl
      | some r =>
          simp only [Option.map_some]
          split_ifs <;> rfl
  | side | type =>
      simp only [readValue, readInt, signed, integer_append_space hc]
      cases integer s with
      | none => rfl
      | some r =>
          simp only [Option.map_some]
          split_ifs <;> rfl
  | price =>
      simp only [readValue, real_append_space hc, Option.map_map]
      rfl

lemma readValues_append_return (ks : List Kind) (s : List Char) :
    readValues ks (s ++ ['\r']) = readValues ks s := by
  induction ks generalizing s with
  | nil => rfl
  | cons k ks ih =>
      have hcomma : ∀ s, readComma (s ++ ['\r']) = (readComma s).map (· ++ ['\r']) := fun s => by
        simp only [readComma, character_append_space (show isSpace '\r' = true by decide),
          Option.map_map]
        rfl
      cases ks with
      | nil =>
          simp only [readValues, readValue_append_return, Option.map_map]
          rfl
      | cons k' ks =>
          simp only [readValues, readValue_append_return, Option.bind_map, Function.comp, hcomma,
            ih]

/-- **A carriage return** behind a line does not change what the line is read as. -/
lemma entryOf_append_return (fmt : PriceFormat P) (line : List Char) :
    entryOf fmt (line ++ ['\r']) = entryOf fmt line := by
  have hreturn : ∀ t : Tag, '\r' ∉ t.text := fun t => by cases t <;> decide
  rcases splitTag_cases line with hline | ⟨rest, hline⟩
  · -- without a comma neither line has fields
    have hcomma : ∀ c ∈ line, decide (c ≠ ',') = true := by
      have htake : line.takeWhile (fun c => decide (c ≠ ',')) = line := congrArg Prod.fst hline
      exact List.takeWhile_eq_self_iff.mp htake
    have hsplit : (splitTag (line ++ ['\r'])).1 = line ++ ['\r'] := by
      rw [splitTag, List.takeWhile_append_of_pos hcomma]
      rfl
    have hnone : entryOf fmt (line ++ ['\r']) = none := by
      refine entryOf_untagged fun t ht => hreturn t ?_
      rw [← ht, hsplit]
      simp
    rw [hnone]
    by_cases htag : ∃ t, line = Tag.text t
    · obtain ⟨t, rfl⟩ := htag
      cases t <;> rfl
    · refine (entryOf_untagged fun t ht => htag ⟨t, ?_⟩).symm
      rw [← ht, hline]
  · by_cases htag : ∃ t, (splitTag line).1 = Tag.text t
    · obtain ⟨t, ht⟩ := htag
      rw [ht] at hline
      rw [hline, List.append_assoc, List.cons_append, entryOf_tagged, entryOf_tagged,
        readValues_append_return]
    · have hsame : (splitTag (line ++ ['\r'])).1 = (splitTag line).1 := by
        have hcomma : ',' ∉ (splitTag line).1 := fun hmem => by
          simpa using List.mem_takeWhile_imp hmem
        rw [congrArg (· ++ ['\r']) hline, List.append_assoc, List.cons_append,
          splitTag_comma hcomma]
      rw [entryOf_untagged fun t ht => htag ⟨t, ht⟩,
        entryOf_untagged fun t ht => htag ⟨t, hsame ▸ ht⟩]

/-- So a line is read as what it is read as without its carriage return. -/
lemma entryOf_stripReturn (fmt : PriceFormat P) (line : List Char) :
    entryOf fmt (stripReturn line) = entryOf fmt line := by
  rw [stripReturn]
  split_ifs with hlast
  · obtain ⟨l, rfl⟩ := List.getLast?_eq_some_iff.mp hlast
    rw [List.dropLast_concat, entryOf_append_return]
  · rfl

/-! ### Requests and recorded trades -/

variable (fmt : PriceFormat P)

/-- The entries the lines are read as. -/
def entries (lines : List (List Char)) : List (Entry P) :=
  lines.filterMap fun line => entryOf fmt (stripReturn line)

/-- The trade a TRADE line records. -/
def Entry.trade? : Entry P → Option (Trade P)
  | .trade t => some t
  | _ => none

/-- The accepted request lines. -/
def requests (lines : List (List Char)) : List (Entry P) :=
  (entries fmt lines).filter fun e => e.trade?.isNone

/-- The accepted TRADE lines. -/
def recorded (lines : List (List Char)) : List (Trade P) :=
  (entries fmt lines).filterMap Entry.trade?

lemma entries_append (ls ls' : List (List Char)) :
    entries fmt (ls ++ ls') = entries fmt ls ++ entries fmt ls' := List.filterMap_append

lemma entries_cons (line : List Char) (ls : List (List Char)) :
    entries fmt (line :: ls) = (entryOf fmt (stripReturn line)).toList ++ entries fmt ls := by
  cases he : entryOf fmt (stripReturn line) <;> simp [entries, he]

variable [LinearOrder P]

/-- A request executed on a book: the trades it produces, and the book and the counter it
leaves. -/
def request (b : OrderBook P × UInt64) : Entry P → List (Trade P) × OrderBook P × UInt64
  | .add orderId side price quantity type =>
      let (order, counter) := Order.new b.2 orderId side price quantity type
      ([], addOrder b.1 order, counter)
  | .cancel orderId => ([], (cancelOrder b.1 orderId).2, b.2)
  | .submit orderId side price quantity type =>
      let (order, counter) := Order.new b.2 orderId side price quantity type
      ((submitOrder b.1 order).1, (submitOrder b.1 order).2, counter)
  | .modify orderId newPrice newQuantity =>
      let (result, book, counter) := modifyOrder b.1 b.2 orderId newPrice newQuantity
      (result.getD [], book, counter)
  | .trade _ => ([], b)

/-- The trades a fresh book produces when the requests are executed in order. -/
def produced (counter : UInt64) (es : List (Entry P)) : List (Trade P) :=
  (Machine.answers request (OrderBook.empty, counter) es).flatten

/-- The book they leave. -/
def bookOf (counter : UInt64) (es : List (Entry P)) : OrderBook P :=
  (Machine.final request (OrderBook.empty, counter) es).1

/-- An entry does the request it is, and records the trade it is. -/
lemma execute_eq (st : Replay P) (e : Entry P) :
    st.execute e =
      ⟨(request (st.book, st.counter) e).2.1, (request (st.book, st.counter) e).2.2,
        st.replayedTrades ++ (request (st.book, st.counter) e).1,
        st.loggedTrades ++ e.trade?.toList, st.warnings⟩ := by
  cases e <;> simp [Replay.execute, request, Entry.trade?, Order.new, nextTimestamp]

/-- A recorded trade is no request. -/
lemma request_of_trade {e : Entry P} (h : e.trade?.isNone = false) (b : OrderBook P × UInt64) :
    request b e = ([], b) := by
  cases e with
  | trade t => rfl
  | _ => simp [Entry.trade?] at h

/-- **The entries executed** one after the other: the requests among them on one book, the trades
among them put behind each other. -/
lemma foldl_execute (st : Replay P) (es : List (Entry P)) :
    es.foldl Replay.execute st =
      ⟨(Machine.final request (st.book, st.counter) (es.filter fun e => e.trade?.isNone)).1,
        (Machine.final request (st.book, st.counter) (es.filter fun e => e.trade?.isNone)).2,
        st.replayedTrades ++ (Machine.answers request (st.book, st.counter)
          (es.filter fun e => e.trade?.isNone)).flatten,
        st.loggedTrades ++ es.filterMap Entry.trade?, st.warnings⟩ := by
  induction es generalizing st with
  | nil => simp
  | cons e es ih =>
      rw [List.foldl_cons, ih, execute_eq]
      cases he : e.trade? with
      | none =>
          have hkeep : (e :: es).filter (fun e => e.trade?.isNone)
              = e :: es.filter fun e => e.trade?.isNone := by simp [he]
          rw [hkeep]
          simp [he]
      | some t =>
          have hdrop : (e :: es).filter (fun e => e.trade?.isNone)
              = es.filter fun e => e.trade?.isNone := by simp [he]
          rw [hdrop, request_of_trade (by simp [he])]
          simp [he]

/-- The warnings play no part in it. -/
lemma foldl_execute_warnings (st : Replay P) (ws : List (List Char)) (es : List (Entry P)) :
    es.foldl Replay.execute { st with warnings := ws }
      = { es.foldl Replay.execute st with warnings := ws } := by
  rw [foldl_execute, foldl_execute]

/-- **The line loop** executes the entries of the lines. -/
lemma replayLines_eq (st : Replay P) (lines : List (List Char)) :
    ∃ ws, replayLines fmt st lines
      = { (entries fmt lines).foldl Replay.execute st with warnings := ws } := by
  induction lines generalizing st with
  | nil => exact ⟨st.warnings, rfl⟩
  | cons line lines ih =>
      cases he : entryOf fmt (stripReturn line) with
      | none =>
          obtain ⟨ws, hws⟩ := parseLine_of_none he st
          obtain ⟨ws', h⟩ := ih { st with warnings := ws }
          refine ⟨ws', ?_⟩
          rw [foldl_execute_warnings] at h
          rw [entries_cons, he, replayLines, List.foldl_cons, hws]
          exact h
      | some e =>
          obtain ⟨ws, h⟩ := ih (st.execute e)
          refine ⟨ws, ?_⟩
          rw [entries_cons, he, replayLines, List.foldl_cons, parseLine_of_entry he]
          exact h

/-- The result of a replay from its two lists. -/
def judge (counter : UInt64) (es : List (Entry P)) (logged : List (Trade P)) : ReplayResult P :=
  ⟨bookOf counter es, produced counter es, logged,
    (compareTrades fmt 0 (produced counter es) logged).1,
    (compareTrades fmt 0 (produced counter es) logged).2⟩

/-- **A replay** is judged by the requests and the recorded trades of its text. -/
lemma replay_eq_judge (counter : UInt64) (input : List Char) :
    replayFromStream fmt counter input
      = judge fmt counter (requests fmt (getlines input)) (recorded fmt (getlines input)) := by
  obtain ⟨ws, h⟩ := replayLines_eq fmt (Replay.init counter) (getlines input)
  rw [foldl_execute] at h
  rw [replayFromStream, h]
  simp only [Replay.init, List.nil_append]
  rfl

/-! ### The comparison -/

section Compare

omit [LinearOrder P]

/-- **The number of mismatches**: the difference of the lengths, and the common positions that
differ. -/
lemma compareTrades_count (i : ℕ) (rs ls : List (Trade P)) :
    (compareTrades fmt i rs ls).1 = (rs.length - ls.length) + (ls.length - rs.length)
      + (rs.zip ls).countP fun p => tradesDiffer fmt p.1 p.2 := by
  fun_induction compareTrades fmt i rs ls with
  | case1 => rfl
  | case2 i l logged n report heq ih =>
      rw [heq] at ih
      simp only [List.length_nil, List.length_cons, List.zip_nil_left, List.countP_nil] at ih ⊢
      omega
  | case3 i r replayed n report heq ih =>
      rw [heq] at ih
      simp only [List.length_nil, List.length_cons, List.zip_nil_right, List.countP_nil] at ih ⊢
      omega
  | case4 i r replayed l logged n report heq hdiff ih =>
      rw [heq] at ih
      simp only [List.length_cons, List.zip_cons_cons, List.countP_cons, hdiff, decide_true,
        if_true] at ih ⊢
      omega
  | case5 i r replayed l logged n report heq hdiff ih =>
      rw [heq] at ih
      simp only [List.length_cons, List.zip_cons_cons, List.countP_cons, hdiff,
        decide_false] at ih ⊢
      simp only [Bool.false_eq_true, if_false]
      omega

/-- A mismatch is counted when it is reported. -/
lemma compareTrades_report (i : ℕ) (rs ls : List (Trade P)) :
    (compareTrades fmt i rs ls).2 = [] ↔ (compareTrades fmt i rs ls).1 = 0 := by
  fun_induction compareTrades fmt i rs ls with
  | case1 => simp
  | case2 i l logged n report heq ih => simp
  | case3 i r replayed n report heq ih => simp
  | case4 i r replayed l logged n report heq hdiff ih => simp
  | case5 i r replayed l logged n report heq hdiff ih =>
      rw [heq] at ih
      exact ih

/-- No mismatch is counted exactly when the lists agree position by position. -/
lemma compareTrades_eq_zero_iff (i : ℕ) (rs ls : List (Trade P)) :
    (compareTrades fmt i rs ls).1 = 0 ↔ List.Forall₂ (fun r l => ¬ tradesDiffer fmt r l) rs ls := by
  rw [compareTrades_count, List.forall₂_iff_zip, Nat.add_eq_zero_iff, List.countP_eq_zero]
  constructor
  · rintro ⟨hlen, hall⟩
    exact ⟨by omega, fun {r l} hrl => by simpa using hall (r, l) hrl⟩
  · rintro ⟨hlen, hall⟩
    exact ⟨by omega, fun p hp => by simpa using hall (show (p.1, p.2) ∈ rs.zip ls from hp)⟩

end Compare

/-! ### Edits of the text -/

/-- The line, as it is parsed, has none of the tags. -/
def UnknownTag (line : List Char) : Prop := ∀ t, (splitTag (stripReturn line)).1 ≠ Tag.text t

/-- The line, as it is parsed, has a tag and no fields that can be read for it. -/
def Malformed (line : List Char) : Prop :=
  (∃ t, (splitTag (stripReturn line)).1 = Tag.text t) ∧ entryOf fmt (stripReturn line) = none

/-- **One edit** of the lines of a text. -/
inductive Edit : List (List Char) → List (List Char) → Prop
  | blank (pre post : List (List Char)) : Edit (pre ++ post) (pre ++ [] :: post)
  | unknownTag (pre post : List (List Char)) {line : List Char} (h : UnknownTag line) :
      Edit (pre ++ post) (pre ++ line :: post)
  | malformed (pre post : List (List Char)) {line : List Char} (h : Malformed fmt line) :
      Edit (pre ++ post) (pre ++ line :: post)
  | carriageReturn (pre post : List (List Char)) (line : List Char) :
      Edit (pre ++ line :: post) (pre ++ (line ++ ['\r']) :: post)
  | move (pre post : List (List Char)) {line line' : List Char}
      (h : isTradeLine (stripReturn line) = true) (h' : isTradeLine (stripReturn line') = false) :
      Edit (pre ++ line :: line' :: post) (pre ++ line' :: line :: post)

section Edit

omit [LinearOrder P]

variable {fmt} {line line' : List Char}

/-- A line that is skipped puts nothing into the lists. -/
lemma entries_insert (pre post : List (List Char)) (h : entryOf fmt (stripReturn line) = none) :
    entries fmt (pre ++ line :: post) = entries fmt (pre ++ post) := by
  rw [entries_append, entries_append, entries_cons, h]
  rfl

/-- The entry of a line is a trade exactly when the line has the tag of one. -/
lemma trade?_of_entryOf {e : Entry P} (h : entryOf fmt line = some e) :
    e.trade?.isSome = isTradeLine line := by
  rcases hsplit : splitTag line with ⟨tag, iss⟩
  simp only [entryOf, hsplit] at h
  simp only [isTradeLine, hsplit]
  split_ifs at h with hadd hcancel hsubmit hmodify htrade
  · obtain ⟨f, -, rfl⟩ := Option.map_eq_some_iff.mp h
    rw [hadd]
    rfl
  · obtain ⟨id, -, rfl⟩ := Option.map_eq_some_iff.mp h
    rw [hcancel]
    rfl
  · obtain ⟨f, -, rfl⟩ := Option.map_eq_some_iff.mp h
    rw [hsubmit]
    rfl
  · obtain ⟨f, -, rfl⟩ := Option.map_eq_some_iff.mp h
    rw [hmodify]
    rfl
  · obtain ⟨t, -, rfl⟩ := Option.map_eq_some_iff.mp h
    rw [htrade]
    rfl

/-- A TRADE line and another one give the same two lists in either order. -/
lemma lists_move (pre post : List (List Char)) (h : isTradeLine (stripReturn line) = true)
    (h' : isTradeLine (stripReturn line') = false) :
    requests fmt (pre ++ line :: line' :: post) = requests fmt (pre ++ line' :: line :: post)
      ∧ recorded fmt (pre ++ line :: line' :: post)
        = recorded fmt (pre ++ line' :: line :: post) := by
  simp only [requests, recorded, entries_append, entries_cons, List.filter_append,
    List.filterMap_append]
  cases he : entryOf fmt (stripReturn line) with
  | none => exact ⟨rfl, rfl⟩
  | some e =>
      cases he' : entryOf fmt (stripReturn line') with
      | none => exact ⟨rfl, rfl⟩
      | some e' =>
          have ht := (trade?_of_entryOf he).trans h
          have ht' := (trade?_of_entryOf he').trans h'
          obtain ⟨t, ht⟩ := Option.isSome_iff_exists.mp ht
          have ht' : e'.trade? = none := by simpa using ht'
          simp [ht, ht']

/-- **An edit** keeps the requests and the recorded trades. -/
lemma Edit.lists {ls ls' : List (List Char)} (h : Edit fmt ls ls') :
    requests fmt ls = requests fmt ls' ∧ recorded fmt ls = recorded fmt ls' := by
  have hsame : ∀ {ls ls' : List (List Char)}, entries fmt ls = entries fmt ls' →
      requests fmt ls = requests fmt ls' ∧ recorded fmt ls = recorded fmt ls' := fun heq => by
    rw [requests, requests, recorded, recorded, heq]
    exact ⟨rfl, rfl⟩
  cases h with
  | blank pre post => exact hsame (entries_insert pre post rfl).symm
  | unknownTag pre post h => exact hsame (entries_insert pre post (entryOf_untagged h)).symm
  | malformed pre post h => exact hsame (entries_insert pre post h.2).symm
  | carriageReturn pre post line =>
      refine hsame ?_
      rw [entries_append, entries_append, entries_cons, entries_cons, entryOf_stripReturn,
        entryOf_stripReturn, entryOf_append_return]
  | move pre post h h' => exact lists_move pre post h h'

end Edit

/-- **The verdict of a replay is exact.**  For every text, with `R` the trades that a fresh book
produces when the accepted requests are executed in order and `L` the accepted TRADE lines in
order: the number of mismatches is the difference of the two lengths and the number of common
positions that differ; it is zero exactly when the lists agree position by position, and the
report is empty exactly then.  And blank lines, lines with an unknown tag and malformed lines put
in or taken out anywhere, carriage returns behind lines, and TRADE lines moved past other lines
change nothing of the result. -/
theorem replay_verdict (fmt : PriceFormat P) (counter : UInt64) (input : List Char) :
    let result := replayFromStream fmt counter input
    let es := requests fmt (getlines input)
    let R := produced counter es
    let L := recorded fmt (getlines input)
    result.book = bookOf counter es ∧ result.replayedTrades = R ∧ result.loggedTrades = L
      ∧ result.mismatches = (R.length - L.length) + (L.length - R.length)
        + (R.zip L).countP (fun p => tradesDiffer fmt p.1 p.2)
      ∧ (result.mismatches = 0 ↔ List.Forall₂ (fun r l => ¬ tradesDiffer fmt r l) R L)
      ∧ (result.mismatchReport = [] ↔ result.mismatches = 0)
      ∧ ∀ input', Relation.EqvGen (Edit fmt) (getlines input) (getlines input') →
          replayFromStream fmt counter input' = result := by
  intro result es R L
  have hresult : result = judge fmt counter es L := replay_eq_judge fmt counter input
  refine ⟨by rw [hresult]; rfl, by rw [hresult]; rfl, by rw [hresult]; rfl, ?_, ?_, ?_, ?_⟩
  · rw [hresult]
    exact compareTrades_count fmt 0 R L
  · rw [hresult]
    exact compareTrades_eq_zero_iff fmt 0 R L
  · rw [hresult]
    exact compareTrades_report fmt 0 R L
  · intro input' hedits
    have hlists : ∀ {ls ls' : List (List Char)}, Relation.EqvGen (Edit fmt) ls ls' →
        requests fmt ls = requests fmt ls' ∧ recorded fmt ls = recorded fmt ls' := by
      intro ls ls' h
      induction h with
      | rel ls ls' h => exact h.lists
      | refl ls => exact ⟨rfl, rfl⟩
      | symm ls ls' _ ih => exact ⟨ih.1.symm, ih.2.symm⟩
      | trans ls ls' ls'' _ _ ih ih' => exact ⟨ih.1.trans ih'.1, ih.2.trans ih'.2⟩
    rw [hresult, replay_eq_judge, ← (hlists hedits).1, ← (hlists hedits).2]

/-- A recorded trade that nothing produces is one mismatch, also behind the request and with a
blank line and a carriage return in the text. -/
theorem replay_verdict_sample :
    let input := "TRADE,0,1,2,5.0,3\nCANCEL,1,7\n".toList
    let input' := "CANCEL,1,7\r\n\nTRADE,0,1,2,5.0,3\n".toList
    replayFromStream wholeFormat 0 input' = replayFromStream wholeFormat 0 input
      ∧ (replayFromStream wholeFormat 0 input).mismatches = 1 := by
  intro input input'
  obtain ⟨-, -, -, hcount, -, -, hedits⟩ := replay_verdict wholeFormat 0 input
  have hmove : Edit wholeFormat (getlines input)
      ["CANCEL,1,7".toList, "TRADE,0,1,2,5.0,3".toList] :=
    .move [] [] (by decide) (by decide)
  have hreturn : Edit wholeFormat ["CANCEL,1,7".toList, "TRADE,0,1,2,5.0,3".toList]
      ["CANCEL,1,7\r".toList, "TRADE,0,1,2,5.0,3".toList] :=
    .carriageReturn [] _ "CANCEL,1,7".toList
  have hblank : Edit wholeFormat ["CANCEL,1,7\r".toList, "TRADE,0,1,2,5.0,3".toList]
      (getlines input') := .blank ["CANCEL,1,7\r".toList] _
  refine ⟨hedits input' ?_, hcount.trans (by decide +kernel)⟩
  exact (Relation.EqvGen.rel _ _ hmove).trans _ _ _
    ((Relation.EqvGen.rel _ _ hreturn).trans _ _ _ (Relation.EqvGen.rel _ _ hblank))

end Leviathan
