import Leviathan.Log.Recording

/-!
`include/replay.hpp` and `src/replay.cpp`: replaying a log.  The stream is a list of `Char`, each of
them one byte.

* `parseLine` is the dispatch on the tag of a line.  The chained extractions of a line are
  the `Option` blocks `orderFields`, `idField`, `modifyFields` and `tradeFields`, `none` when
  the stream has failed at the end of the chain; the line is then skipped with a warning.
* The enumerations of the source are bytes, and a number read for one is cast to a byte
  without a check: `castSide` and `castType` give each byte the case the book treats it as.
* `compareTrades` is the comparison of the replayed with the logged trades, and
  `replayFromStream` the whole of it.  A replayed order takes its timestamp from the
  process-wide counter.
-/

namespace Leviathan

variable {P : Type*}

/-! ### Lines of a stream -/

/-- The lines `std::getline` takes from a stream one after the other. -/
def getlines : List Char → List (List Char)
  | [] => []
  | c :: text =>
      if c = '\n' then [] :: getlines text
      else
        match getlines text with
        | [] => [[c]]
        | line :: lines => (c :: line) :: lines

/-- The line without a trailing carriage return. -/
def stripReturn (line : List Char) : List Char :=
  if line.getLast? = some '\r' then line.dropLast else line

/-- `std::getline(iss, tag, ',')` and what it leaves. -/
def splitTag (line : List Char) : List Char × List Char :=
  (line.takeWhile (· ≠ ','), (line.dropWhile (· ≠ ',')).drop 1)

/-! ### Fields -/

/-- `iss >> x` for a `uint64_t`. -/
def readWord (iss : List Char) : Option (UInt64 × List Char) :=
  (Decimal.unsigned 64 iss).map fun r => (UInt64.ofNat r.1, r.2)

/-- `iss >> x` for an `int`. -/
def readInt (iss : List Char) : Option (ℤ × List Char) := Decimal.signed 31 iss

/-- `iss >> comma`: any byte but white space, which is skipped.  A `Char` stands for one byte. -/
def readComma (iss : List Char) : Option (List Char) := (Decimal.character iss).map Prod.snd

/-- `iss >> x` for a `double`. -/
def readPrice (fmt : PriceFormat P) (iss : List Char) : Option (P × List Char) :=
  (Decimal.real iss).bind fun (q, iss) => (fmt.nearest q).map fun p => (p, iss)

/-- The case the book treats a byte of `Order::Side` as. -/
def castSide (n : ℤ) : Side := if n % 256 = 0 then .buy else .sell

/-- The case the book treats a byte of `Order::OrderType` as: one that is no enumerator is
priced and never rests. -/
def castType (n : ℤ) : OrderType :=
  if n % 256 = 0 then .limit
  else if n % 256 = 1 then .market
  else if n % 256 = 3 then .fok
  else .ioc

/-- The fields of an ADD or a SUBMIT line after its tag. -/
def orderFields (fmt : PriceFormat P) (iss : List Char) :
    Option (UInt64 × Side × P × UInt64 × OrderType) :=
  (readWord iss).bind fun (_, iss) =>
  (readComma iss).bind fun iss =>
  (readWord iss).bind fun (orderId, iss) =>
  (readComma iss).bind fun iss =>
  (readInt iss).bind fun (sideInt, iss) =>
  (readComma iss).bind fun iss =>
  (readPrice fmt iss).bind fun (price, iss) =>
  (readComma iss).bind fun iss =>
  (readWord iss).bind fun (quantity, iss) =>
  (readComma iss).bind fun iss =>
  (readInt iss).map fun (typeInt, _) =>
    (orderId, castSide sideInt, price, quantity, castType typeInt)

/-- The field of a CANCEL line after its tag and sequence number. -/
def idField (iss : List Char) : Option UInt64 :=
  (readWord iss).bind fun (_, iss) =>
  (readComma iss).bind fun iss =>
  (readWord iss).map fun (orderId, _) => orderId

/-- The fields of a MODIFY line. -/
def modifyFields (fmt : PriceFormat P) (iss : List Char) : Option (UInt64 × P × UInt64) :=
  (readWord iss).bind fun (_, iss) =>
  (readComma iss).bind fun iss =>
  (readWord iss).bind fun (orderId, iss) =>
  (readComma iss).bind fun iss =>
  (readPrice fmt iss).bind fun (newPrice, iss) =>
  (readComma iss).bind fun iss =>
  (readWord iss).map fun (newQuantity, _) => (orderId, newPrice, newQuantity)

/-- The fields of a TRADE line, its trade stored without a timestamp. -/
def tradeFields (fmt : PriceFormat P) (iss : List Char) : Option (Trade P) :=
  (readWord iss).bind fun (_, iss) =>
  (readComma iss).bind fun iss =>
  (readWord iss).bind fun (buyId, iss) =>
  (readComma iss).bind fun iss =>
  (readWord iss).bind fun (sellId, iss) =>
  (readComma iss).bind fun iss =>
  (readPrice fmt iss).bind fun (price, iss) =>
  (readComma iss).bind fun iss =>
  (readWord iss).map fun (quantity, _) => ⟨buyId, sellId, price, quantity, 0⟩

/-! ### Replaying lines -/

/-- What `parseLine` works on: the book, the process-wide counter, the two trade lists and the
warnings written to `std::cerr`. -/
structure Replay (P : Type*) where
  book : OrderBook P
  counter : UInt64
  replayedTrades : List (Trade P)
  loggedTrades : List (Trade P)
  warnings : List (List Char)

/-- The warning for a malformed line. -/
def Replay.warn (st : Replay P) (tag : String) (line : List Char) : Replay P :=
  { st with
    warnings := st.warnings
      ++ ["[WARN] Malformed ".toList ++ tag.toList ++ " line, skipping: ".toList ++ line] }

variable [LinearOrder P] (fmt : PriceFormat P)

/-- `parseLine`. -/
def parseLine (st : Replay P) (line : List Char) : Replay P :=
  if line = [] then st
  else
    let (tag, iss) := splitTag line
    if tag = "ADD".toList then
      match orderFields fmt iss with
      | none => st.warn "ADD" line
      | some (orderId, side, price, quantity, type) =>
          let (order, counter) := Order.new st.counter orderId side price quantity type
          { st with book := addOrder st.book order, counter }
    else if tag = "CANCEL".toList then
      match idField iss with
      | none => st.warn "CANCEL" line
      | some orderId => { st with book := (cancelOrder st.book orderId).2 }
    else if tag = "SUBMIT".toList then
      match orderFields fmt iss with
      | none => st.warn "SUBMIT" line
      | some (orderId, side, price, quantity, type) =>
          let (order, counter) := Order.new st.counter orderId side price quantity type
          let (trades, book) := submitOrder st.book order
          { st with book, counter, replayedTrades := st.replayedTrades ++ trades }
    else if tag = "MODIFY".toList then
      match modifyFields fmt iss with
      | none => st.warn "MODIFY" line
      | some (orderId, newPrice, newQuantity) =>
          let (result, book, counter) :=
            modifyOrder st.book st.counter orderId newPrice newQuantity
          { st with book, counter, replayedTrades := st.replayedTrades ++ result.getD [] }
    else if tag = "TRADE".toList then
      match tradeFields fmt iss with
      | none => st.warn "TRADE" line
      | some t => { st with loggedTrades := st.loggedTrades ++ [t] }
    else st

/-! ### Comparing trades -/

/-- A trade as the report prints it. -/
def reportTrade (t : Trade P) : List Char :=
  "buy=".toList ++ printWord t.buyOrderId ++ " sell=".toList ++ printWord t.sellOrderId
    ++ " price=".toList ++ fmt.general t.price ++ " qty=".toList ++ printWord t.quantity

/-- Two trades differ in something other than the timestamp, prices by more than `1e-9`, in exact
arithmetic. -/
def tradesDiffer (r l : Trade P) : Prop :=
  r.buyOrderId ≠ l.buyOrderId ∨ r.sellOrderId ≠ l.sellOrderId
    ∨ |fmt.value r.price - fmt.value l.price| > 1 / 10 ^ 9 ∨ r.quantity ≠ l.quantity

instance (r l : Trade P) : Decidable (tradesDiffer fmt r l) :=
  inferInstanceAs (Decidable (_ ∨ _ ∨ _ ∨ _))

/-- `compareTrades` from position `i` on: the number of mismatches and the report. -/
def compareTrades (i : ℕ) : List (Trade P) → List (Trade P) → ℕ × List Char
  | [], [] => (0, [])
  | [], l :: logged =>
      let (n, report) := compareTrades (i + 1) [] logged
      (n + 1, "Trade #".toList ++ Decimal.natural i ++ ": MISSING in replay (logged: ".toList
        ++ reportTrade fmt l ++ ")\n".toList ++ report)
  | r :: replayed, [] =>
      let (n, report) := compareTrades (i + 1) replayed []
      (n + 1, "Trade #".toList ++ Decimal.natural i ++ ": EXTRA in replay (replay: ".toList
        ++ reportTrade fmt r ++ ")\n".toList ++ report)
  | r :: replayed, l :: logged =>
      let (n, report) := compareTrades (i + 1) replayed logged
      if tradesDiffer fmt r l then
        (n + 1, "Trade #".toList ++ Decimal.natural i ++ ": MISMATCH\n  Logged:   ".toList
          ++ reportTrade fmt l ++ "\n  Replayed: ".toList ++ reportTrade fmt r ++ ['\n']
          ++ report)
      else (n, report)

/-- `ReplayResult`. -/
structure ReplayResult (P : Type*) where
  book : OrderBook P
  replayedTrades : List (Trade P)
  loggedTrades : List (Trade P)
  mismatches : ℕ
  mismatchReport : List Char

/-- The state before the first line. -/
def Replay.init (counter : UInt64) : Replay P := ⟨OrderBook.empty, counter, [], [], []⟩

/-- The lines of a text replayed one after the other. -/
def replayLines (st : Replay P) (lines : List (List Char)) : Replay P :=
  lines.foldl (fun st line => parseLine fmt st (stripReturn line)) st

/-- `replayFromStream`, in a process whose counter stands at `counter`. -/
def replayFromStream (counter : UInt64) (input : List Char) : ReplayResult P :=
  let st := replayLines fmt (Replay.init counter) (getlines input)
  let (mismatches, mismatchReport) := compareTrades fmt 0 st.replayedTrades st.loggedTrades
  ⟨st.book, st.replayedTrades, st.loggedTrades, mismatches, mismatchReport⟩

end Leviathan
