import Leviathan.Book.Prices
import Leviathan.Book.Relabel
import Leviathan.Book.Timestamps
import Leviathan.Log.Replay

/-!
Each line the recorder writes is read back by the replay as what it was written for.

* `PriceFormat.ReadsAs p p'`: extracting the fixed printing of the price `p` gives `p'`, and
  `PriceFormat.ReadsBack p`: it gives `p` again, what the log needs of a price.
* `Plain`: the lines hold no line break and no carriage return, so that `getlines` takes a
  text of such lines apart where they were put together (`getlines_unlines`).
* `parseLine_request_as` and `parseLine_trade_as` are the round trips of the five kinds of lines,
  `parseLine_request` and `parseLine_trade` those at prices that read back.
-/

namespace Leviathan

variable {P : Type*}

/-! ### Lines -/

/-- Lines written one after the other. -/
def unlines (lines : List (List Char)) : List Char := lines.flatMap (· ++ ['\n'])

lemma unlines_append (ls ls' : List (List Char)) :
    unlines (ls ++ ls') = unlines ls ++ unlines ls' := List.flatMap_append

/-- The text has neither a line break nor a carriage return in it. -/
def Plain (line : List Char) : Prop := ∀ c ∈ line, c ≠ '\n' ∧ c ≠ '\r'

lemma getlines_line {line : List Char} (h : Plain line) (text : List Char) :
    getlines (line ++ '\n' :: text) = line :: getlines text := by
  induction line with
  | nil => simp [getlines]
  | cons c line ih =>
      have hc := (h c List.mem_cons_self).1
      have ih := ih fun d hd => h d (List.mem_cons_of_mem c hd)
      rw [List.cons_append, getlines, if_neg hc, ih]

lemma getlines_unlines {lines : List (List Char)} (h : ∀ l ∈ lines, Plain l) :
    getlines (unlines lines) = lines := by
  induction lines with
  | nil => rfl
  | cons l lines ih =>
      have hl := h l List.mem_cons_self
      have ih := ih fun l' hl' => h l' (List.mem_cons_of_mem l hl')
      have htext : unlines (l :: lines) = l ++ '\n' :: unlines lines := by simp [unlines]
      rw [htext, getlines_line hl, ih]

lemma stripReturn_of_plain {line : List Char} (h : Plain line) : stripReturn line = line := by
  rw [stripReturn, if_neg]
  intro hlast
  exact (h _ (List.mem_of_getLast? hlast)).2 rfl

lemma plain_of_isDigit {ds : List Char} (h : ∀ c ∈ ds, c.isDigit = true) : Plain ds := by
  intro c hc
  have hd := h c hc
  constructor
  · rintro rfl
    exact absurd hd (by decide)
  · rintro rfl
    exact absurd hd (by decide)

lemma plain_append {l l' : List Char} (h : Plain l) (h' : Plain l') : Plain (l ++ l') := by
  intro c hc
  rcases List.mem_append.mp hc with hc | hc
  · exact h c hc
  · exact h' c hc

lemma plain_cons {c : Char} {l : List Char} (hc : c ≠ '\n' ∧ c ≠ '\r') (h : Plain l) :
    Plain (c :: l) := by
  intro d hd
  rcases List.mem_cons.mp hd with rfl | hd
  · exact hc
  · exact h d hd

lemma plain_commas {fields : List (List Char)} (h : ∀ f ∈ fields, Plain f) :
    Plain (commas fields) := by
  induction fields with
  | nil => exact fun c hc => by simp [commas] at hc
  | cons f fields ih =>
      have hf := h f List.mem_cons_self
      have ih := ih fun g hg => h g (List.mem_cons_of_mem f hg)
      cases fields with
      | nil => exact hf
      | cons g gs => exact plain_append hf (plain_cons (by decide) ih)

lemma plain_natural (n : ℕ) : Plain (Decimal.natural n) :=
  plain_of_isDigit fun _ hc => Decimal.isDigit_of_mem_natural hc

lemma plain_printWord (n : UInt64) : Plain (printWord n) := plain_natural _

lemma plain_fixed6 (fmt : PriceFormat P) (p : P) : Plain (fmt.fixed6 p) := by
  refine plain_append (plain_append ?_ (plain_natural _)) (plain_cons (by decide) ?_)
  · split_ifs
    · exact plain_cons (by decide) fun c hc => by simp at hc
    · exact fun c hc => by simp at hc
  · exact plain_of_isDigit fun _ hc => Decimal.isDigit_of_mem_padded hc

/-! ### Fields -/

/-- The fixed printing of the price reads back to it. -/
def PriceFormat.ReadsBack (fmt : PriceFormat P) (p : P) : Prop :=
  readPrice fmt (fmt.fixed6 p) = some (p, [])

instance [DecidableEq P] (fmt : PriceFormat P) (p : P) : Decidable (fmt.ReadsBack p) :=
  inferInstanceAs (Decidable (_ = _))

/-- The fixed printing of the price `p` reads as the price `p'`. -/
def PriceFormat.ReadsAs (fmt : PriceFormat P) (p p' : P) : Prop :=
  readPrice fmt (fmt.fixed6 p) = some (p', [])

lemma readWord_printWord (n : UInt64) {rest : List Char} (h : Decimal.Ends rest) :
    readWord (printWord n ++ rest) = some (n, rest) := by
  rw [readWord, printWord, Decimal.unsigned_natural n.toNat_lt h, Option.map_some,
    UInt64.ofNat_toNat]

lemma readInt_natural {n : ℕ} (hn : n < 2 ^ 31) {rest : List Char} (h : Decimal.Ends rest) :
    readInt (Decimal.natural n ++ rest) = some ((n : ℤ), rest) :=
  Decimal.signed_natural hn h

lemma readComma_comma (rest : List Char) : readComma (',' :: rest) = some rest := by
  simp [readComma, Decimal.character, Decimal.isSpace]

/-- What a price reads as it reads as in front of any text that does not continue it. -/
lemma PriceFormat.ReadsAs.readPrice_fixed6 {fmt : PriceFormat P} {p p' : P} (h : fmt.ReadsAs p p')
    {rest : List Char} (hrest : Decimal.EndsReal rest) :
    readPrice fmt (fmt.fixed6 p ++ rest) = some (p', rest) := by
  have hnil : Decimal.EndsReal [] := fun c hc => by simp at hc
  have hread := Decimal.real_fixed 6 (fmt.value p < 0) (fmt.micros p).natAbs hnil
  rw [List.append_nil] at hread
  rw [ReadsAs, readPrice, PriceFormat.fixed6, hread, Option.bind_some] at h
  obtain ⟨p'', hp, heq⟩ := Option.map_eq_some_iff.mp h
  obtain ⟨rfl, -⟩ := Prod.mk.inj heq
  rw [readPrice, PriceFormat.fixed6, Decimal.real_fixed 6 _ _ hrest, Option.bind_some]
  simp only [hp, Option.map_some]

lemma PriceFormat.ReadsBack.readPrice_fixed6 {fmt : PriceFormat P} {p : P} (h : fmt.ReadsBack p)
    {rest : List Char} (hrest : Decimal.EndsReal rest) :
    readPrice fmt (fmt.fixed6 p ++ rest) = some (p, rest) :=
  ReadsAs.readPrice_fixed6 h hrest

lemma ends_comma (rest : List Char) : Decimal.Ends (',' :: rest) := Decimal.ends_cons (by decide)

lemma endsReal_comma (rest : List Char) : Decimal.EndsReal (',' :: rest) := fun c hc => by
  obtain rfl : ',' = c := by simpa using hc
  decide

lemma castSide_code (s : Side) : castSide s.code = s := by cases s <;> rfl

lemma castType_code (t : OrderType) : castType t.code = t := by cases t <;> rfl

lemma code_lt (s : Side) (t : OrderType) : s.code < 2 ^ 31 ∧ t.code < 2 ^ 31 := by
  cases s <;> cases t <;> decide

/-- A tag ends at its comma. -/
lemma splitTag_comma {tag : List Char} (h : ',' ∉ tag) (rest : List Char) :
    splitTag (tag ++ ',' :: rest) = (tag, rest) := by
  have hall : ∀ c ∈ tag, decide (c ≠ ',') = true := by
    intro c hc
    simp only [decide_eq_true_eq]
    rintro rfl
    exact h hc
  rw [splitTag, List.takeWhile_append_of_pos hall, List.dropWhile_append_of_pos hall]
  simp

/-! ### The lines of the recorder -/

section Fields

variable {fmt : PriceFormat P}

lemma orderFields_commas (seq : UInt64) {o : Order P} {p : P} (hp : fmt.ReadsAs o.price p) :
    orderFields fmt (commas [printWord seq, printWord o.id, Decimal.natural o.side.code,
        fmt.fixed6 o.price, printWord o.quantity, Decimal.natural o.type.code])
      = some (o.id, o.side, p, o.quantity, o.type) := by
  obtain ⟨hside, htype⟩ := code_lt o.side o.type
  have hlast := readInt_natural htype Decimal.ends_nil
  rw [List.append_nil] at hlast
  simp only [orderFields, commas, readWord_printWord _ (ends_comma _), Option.bind_some,
    readComma_comma, readInt_natural hside (ends_comma _), hp.readPrice_fixed6 (endsReal_comma _),
    hlast, Option.map_some, castSide_code, castType_code]

lemma idField_commas (seq id : UInt64) :
    idField (commas [printWord seq, printWord id]) = some id := by
  have hlast := readWord_printWord id Decimal.ends_nil
  rw [List.append_nil] at hlast
  simp only [idField, commas, readWord_printWord _ (ends_comma _), Option.bind_some,
    readComma_comma, hlast, Option.map_some]

lemma modifyFields_commas (seq id : UInt64) {p p' : P} (hp : fmt.ReadsAs p p') (q : UInt64) :
    modifyFields fmt (commas [printWord seq, printWord id, fmt.fixed6 p, printWord q])
      = some (id, p', q) := by
  have hlast := readWord_printWord q Decimal.ends_nil
  rw [List.append_nil] at hlast
  simp only [modifyFields, commas, readWord_printWord _ (ends_comma _), Option.bind_some,
    readComma_comma, hp.readPrice_fixed6 (endsReal_comma _), hlast, Option.map_some]

lemma tradeFields_commas (seq : UInt64) {t : Trade P} {p : P} (hp : fmt.ReadsAs t.price p) :
    tradeFields fmt (commas [printWord seq, printWord t.buyOrderId, printWord t.sellOrderId,
        fmt.fixed6 t.price, printWord t.quantity])
      = some ⟨t.buyOrderId, t.sellOrderId, p, t.quantity, 0⟩ := by
  have hlast := readWord_printWord t.quantity Decimal.ends_nil
  rw [List.append_nil] at hlast
  simp only [tradeFields, commas, readWord_printWord _ (ends_comma _), Option.bind_some,
    readComma_comma, hp.readPrice_fixed6 (endsReal_comma _), hlast, Option.map_some]

end Fields

/-- The line a call is logged by. -/
def requestLine (fmt : PriceFormat P) (seq : UInt64) : Call P → List Char
  | .addOrder o => orderLine fmt "ADD" seq o
  | .submitOrder o => orderLine fmt "SUBMIT" seq o
  | .cancelOrder id => cancelLine seq id
  | .modifyOrder _ id p q => modifyLine fmt seq id p q

/-- A tag and plain fields make a plain line. -/
lemma plain_tagged {tag : String} (htag : Plain tag.toList) {fields : List (List Char)}
    (h : ∀ f ∈ fields, Plain f) : Plain (commas (tag.toList :: fields)) :=
  plain_commas (List.forall_mem_cons.mpr ⟨htag, h⟩)

instance (line : List Char) : Decidable (Plain line) :=
  List.decidableBAll (fun c => c ≠ '\n' ∧ c ≠ '\r') line

lemma plain_requestLine (fmt : PriceFormat P) (seq : UInt64) (c : Call P) :
    Plain (requestLine fmt seq c) := by
  cases c with
  | addOrder o =>
      exact plain_tagged (by decide) (by simp [plain_printWord, plain_natural, plain_fixed6])
  | submitOrder o =>
      exact plain_tagged (by decide) (by simp [plain_printWord, plain_natural, plain_fixed6])
  | cancelOrder id => exact plain_tagged (by decide) (by simp [plain_printWord])
  | modifyOrder _ id p q =>
      exact plain_tagged (by decide) (by simp [plain_printWord, plain_fixed6])

lemma plain_tradeLine (fmt : PriceFormat P) (seq : UInt64) (t : Trade P) :
    Plain (tradeLine fmt seq t) :=
  plain_tagged (by decide) (by simp [plain_printWord, plain_fixed6])

/-- A line is that of a trade. -/
def isTradeLine (line : List Char) : Bool := (splitTag line).1 = "TRADE".toList

lemma splitTag_commas (tag : String) (h : ',' ∉ tag.toList) (f : List Char)
    (fs : List (List Char)) :
    splitTag (commas (tag.toList :: f :: fs)) = (tag.toList, commas (f :: fs)) :=
  splitTag_comma h _

lemma isTradeLine_commas (tag : String) (h : ',' ∉ tag.toList) (f : List Char)
    (fs : List (List Char)) :
    isTradeLine (commas (tag.toList :: f :: fs)) = decide (tag.toList = "TRADE".toList) := by
  rw [isTradeLine, splitTag_commas tag h]

lemma isTradeLine_requestLine (fmt : PriceFormat P) (seq : UInt64) (c : Call P) :
    isTradeLine (requestLine fmt seq c) = false := by
  cases c with
  | addOrder o => exact (isTradeLine_commas "ADD" (by decide) _ _).trans (by decide)
  | submitOrder o => exact (isTradeLine_commas "SUBMIT" (by decide) _ _).trans (by decide)
  | cancelOrder id => exact (isTradeLine_commas "CANCEL" (by decide) _ _).trans (by decide)
  | modifyOrder _ id p q => exact (isTradeLine_commas "MODIFY" (by decide) _ _).trans (by decide)

lemma isTradeLine_tradeLine (fmt : PriceFormat P) (seq : UInt64) (t : Trade P) :
    isTradeLine (tradeLine fmt seq t) = true :=
  (isTradeLine_commas "TRADE" (by decide) _ _).trans (by decide)

/-! ### The lines replayed -/

variable [LinearOrder P] {fmt : PriceFormat P}

omit [LinearOrder P] in
lemma commas_ne_nil (tag f : List Char) (fs : List (List Char)) :
    commas (tag :: f :: fs) ≠ [] := by
  simp [commas]

/-- **A request line** executes the call it was written for, at the price its price reads as and
on an order of another time. -/
lemma parseLine_request_as {f : P → P} (st : Replay P) (seq : UInt64) {c : Call P}
    (hc : ∀ p ∈ c.price?, fmt.ReadsAs p (f p)) :
    ∃ c' : Call P, c'.untimed = ((repriced f).call c).untimed
      ∧ (parseLine fmt st (requestLine fmt seq c)).book = (call st.book c').2
      ∧ (parseLine fmt st (requestLine fmt seq c)).replayedTrades
        = st.replayedTrades ++ (call st.book c').1.tradeList
      ∧ (parseLine fmt st (requestLine fmt seq c)).loggedTrades = st.loggedTrades := by
  cases c with
  | addOrder o =>
      have hfields := orderFields_commas seq (hc _ rfl)
      refine ⟨.addOrder { (repriced f).order o with timestamp := st.counter }, rfl, ?_⟩
      simp only [requestLine, orderLine, parseLine, if_neg (commas_ne_nil _ _ _),
        splitTag_commas "ADD" (by decide), if_true, hfields, call, Response.tradeList,
        List.append_nil]
      exact ⟨rfl, trivial, trivial⟩
  | submitOrder o =>
      have hfields := orderFields_commas seq (hc _ rfl)
      have hadd : "SUBMIT".toList ≠ "ADD".toList := by decide
      have hcancel : "SUBMIT".toList ≠ "CANCEL".toList := by decide
      refine ⟨.submitOrder { (repriced f).order o with timestamp := st.counter }, rfl, ?_⟩
      simp only [requestLine, orderLine, parseLine, if_neg (commas_ne_nil _ _ _),
        splitTag_commas "SUBMIT" (by decide), if_neg hadd, if_neg hcancel, if_true, hfields, call,
        Response.tradeList]
      exact ⟨rfl, rfl, trivial⟩
  | cancelOrder id =>
      have hadd : "CANCEL".toList ≠ "ADD".toList := by decide
      refine ⟨.cancelOrder id, rfl, ?_⟩
      simp only [requestLine, cancelLine, parseLine, if_neg (commas_ne_nil _ _ _),
        splitTag_commas "CANCEL" (by decide), if_neg hadd, if_true, idField_commas, call,
        Response.tradeList, List.append_nil]
      exact ⟨trivial, trivial, trivial⟩
  | modifyOrder counter id p q =>
      have hfields := modifyFields_commas seq id (hc p rfl) q
      have hadd : "MODIFY".toList ≠ "ADD".toList := by decide
      have hcancel : "MODIFY".toList ≠ "CANCEL".toList := by decide
      have hsubmit : "MODIFY".toList ≠ "SUBMIT".toList := by decide
      refine ⟨.modifyOrder st.counter id (f p) q, rfl, ?_⟩
      simp only [requestLine, modifyLine, parseLine, if_neg (commas_ne_nil _ _ _),
        splitTag_commas "MODIFY" (by decide), if_neg hadd, if_neg hcancel, if_neg hsubmit,
        if_true, hfields, call]
      refine ⟨trivial, ?_, trivial⟩
      cases (modifyOrder st.book st.counter id (f p) q).1 <;> rfl

omit [LinearOrder P] in
lemma repriced_id_call (c : Call P) : (repriced id).call c = c := by cases c <;> rfl

/-- The line of a call at a price that reads back executes the call itself. -/
lemma parseLine_request (st : Replay P) (seq : UInt64) {c : Call P}
    (hc : ∀ p ∈ c.price?, fmt.ReadsBack p) :
    ∃ c' : Call P, c'.untimed = c.untimed
      ∧ (parseLine fmt st (requestLine fmt seq c)).book = (call st.book c').2
      ∧ (parseLine fmt st (requestLine fmt seq c)).replayedTrades
        = st.replayedTrades ++ (call st.book c').1.tradeList
      ∧ (parseLine fmt st (requestLine fmt seq c)).loggedTrades = st.loggedTrades := by
  have h := parseLine_request_as (f := id) st seq hc
  rwa [repriced_id_call] at h

/-- **A TRADE line** records its trade without the timestamp, at the price its price reads as. -/
lemma parseLine_trade_as {f : P → P} (st : Replay P) (seq : UInt64) {t : Trade P}
    (ht : fmt.ReadsAs t.price (f t.price)) :
    parseLine fmt st (tradeLine fmt seq t)
      = { st with loggedTrades := st.loggedTrades ++ [((repriced f).trade t).untimed] } := by
  have hfields := tradeFields_commas seq ht
  have hadd : "TRADE".toList ≠ "ADD".toList := by decide
  have hcancel : "TRADE".toList ≠ "CANCEL".toList := by decide
  have hsubmit : "TRADE".toList ≠ "SUBMIT".toList := by decide
  have hmodify : "TRADE".toList ≠ "MODIFY".toList := by decide
  simp only [tradeLine, parseLine, if_neg (commas_ne_nil _ _ _),
    splitTag_commas "TRADE" (by decide), if_neg hadd, if_neg hcancel, if_neg hsubmit,
    if_neg hmodify, if_true, hfields]
  rfl

lemma parseLine_trade (st : Replay P) (seq : UInt64) {t : Trade P}
    (ht : fmt.ReadsBack t.price) :
    parseLine fmt st (tradeLine fmt seq t)
      = { st with loggedTrades := st.loggedTrades ++ [t.untimed] } :=
  parseLine_trade_as (f := id) st seq ht

end Leviathan
