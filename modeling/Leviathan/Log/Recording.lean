import Leviathan.Foundations.Decimal
import Leviathan.Book.Calls

/-!
`include/recording_order_book.hpp` and `src/recording_order_book.cpp`: the book that logs its
calls.

* `PriceFormat P` is what the log knows of the price type: the exact value of a price, the
  price nearest to a decimal number, and the default output form.  `fixed6` is the output
  that `std::fixed << std::setprecision(6)` selects, the value rounded to six decimals, ties
  to even.
* `RecordingOrderBook` is the book, the sequence counter and the text written so far; every
  method appends its lines as the source streams them out.
-/

namespace Leviathan

variable {P : Type*}

/-- The price type as a floating-point format sees it. -/
structure PriceFormat (P : Type*) where
  value : P → ℚ
  nearest : ℚ → Option P
  general : P → List Char

/-- The integer nearest to a number, ties to even. -/
def roundHalfEven (q : ℚ) : ℤ :=
  let low := ⌊q⌋
  if q - low < 1 / 2 then low
  else if 1 / 2 < q - low then low + 1
  else if low % 2 = 0 then low else low + 1

/-- The number of millionths nearest to a price. -/
def PriceFormat.micros (fmt : PriceFormat P) (p : P) : ℤ := roundHalfEven (fmt.value p * 10 ^ 6)

/-- A price in fixed notation with six decimals. -/
def PriceFormat.fixed6 (fmt : PriceFormat P) (p : P) : List Char :=
  Decimal.fixed 6 (fmt.value p < 0) (fmt.micros p).natAbs

/-- A `uint64_t` as the stream prints it. -/
def printWord (n : UInt64) : List Char := Decimal.natural n.toNat

/-- `static_cast<int>(order.side)`. -/
def Side.code : Side → ℕ
  | .buy => 0
  | .sell => 1

/-- `static_cast<int>(order.type)`. -/
def OrderType.code : OrderType → ℕ
  | .limit => 0
  | .market => 1
  | .ioc => 2
  | .fok => 3

/-- The fields of a line, with the commas between them. -/
def commas : List (List Char) → List Char
  | [] => []
  | [field] => field
  | field :: fields => field ++ ',' :: commas fields

/-! ### The lines -/

/-- The line of an `addOrder` or a `submitOrder`. -/
def orderLine (fmt : PriceFormat P) (tag : String) (seq : UInt64) (order : Order P) : List Char :=
  commas [tag.toList, printWord seq, printWord order.id, Decimal.natural order.side.code,
    fmt.fixed6 order.price, printWord order.quantity, Decimal.natural order.type.code]

/-- The line of a `cancelOrder`. -/
def cancelLine (seq orderId : UInt64) : List Char :=
  commas ["CANCEL".toList, printWord seq, printWord orderId]

/-- The line of a `modifyOrder`. -/
def modifyLine (fmt : PriceFormat P) (seq orderId : UInt64) (newPrice : P)
    (newQuantity : UInt64) : List Char :=
  commas ["MODIFY".toList, printWord seq, printWord orderId, fmt.fixed6 newPrice,
    printWord newQuantity]

/-- The line of a trade. -/
def tradeLine (fmt : PriceFormat P) (seq : UInt64) (t : Trade P) : List Char :=
  commas ["TRADE".toList, printWord seq, printWord t.buyOrderId, printWord t.sellOrderId,
    fmt.fixed6 t.price, printWord t.quantity]

/-! ### The recorder -/

/-- `RecordingOrderBook`: `book_`, `seq_`, and what was written to `log_`. -/
structure RecordingOrderBook (P : Type*) where
  book : OrderBook P
  seq : UInt64
  log : List Char

namespace RecordingOrderBook

/-- A recorder on an empty stream. -/
def empty : RecordingOrderBook P := ⟨OrderBook.empty, 0, []⟩

/-- `nextSeq`. -/
def nextSeq (r : RecordingOrderBook P) : UInt64 × RecordingOrderBook P :=
  (r.seq, { r with seq := r.seq + 1 })

/-- A line, made of the next sequence number, written with its newline. -/
def write (r : RecordingOrderBook P) (line : UInt64 → List Char) : RecordingOrderBook P :=
  let (seq, r) := r.nextSeq
  { r with log := r.log ++ line seq ++ ['\n'] }

/-- `logTrades`. -/
def logTrades (fmt : PriceFormat P) (r : RecordingOrderBook P) :
    List (Trade P) → RecordingOrderBook P
  | [] => r
  | t :: ts => logTrades fmt (r.write fun seq => tradeLine fmt seq t) ts

variable [LinearOrder P] (fmt : PriceFormat P)

/-- `RecordingOrderBook::addOrder`. -/
def addOrder (r : RecordingOrderBook P) (order : Order P) : RecordingOrderBook P :=
  let r := r.write fun seq => orderLine fmt "ADD" seq order
  { r with book := Leviathan.addOrder r.book order }

/-- `RecordingOrderBook::cancelOrder`. -/
def cancelOrder (r : RecordingOrderBook P) (orderId : UInt64) : Bool × RecordingOrderBook P :=
  let r := r.write fun seq => cancelLine seq orderId
  let (ok, book) := Leviathan.cancelOrder r.book orderId
  (ok, { r with book })

/-- `RecordingOrderBook::submitOrder`. -/
def submitOrder (r : RecordingOrderBook P) (order : Order P) :
    List (Trade P) × RecordingOrderBook P :=
  let r := r.write fun seq => orderLine fmt "SUBMIT" seq order
  let (trades, book) := Leviathan.submitOrder r.book order
  (trades, logTrades fmt { r with book } trades)

/-- `RecordingOrderBook::modifyOrder`. -/
def modifyOrder (r : RecordingOrderBook P) (counter orderId : UInt64) (newPrice : P)
    (newQuantity : UInt64) : Option (List (Trade P)) × RecordingOrderBook P × UInt64 :=
  let r := r.write fun seq => modifyLine fmt seq orderId newPrice newQuantity
  let (result, book, counter) := Leviathan.modifyOrder r.book counter orderId newPrice newQuantity
  (result, logTrades fmt { r with book } (result.getD []), counter)

/-- Execute a call on a recorder. -/
def call (r : RecordingOrderBook P) : Call P → Response P × RecordingOrderBook P
  | .addOrder order => (.done, addOrder fmt r order)
  | .submitOrder order => (.trades (submitOrder fmt r order).1, (submitOrder fmt r order).2)
  | .cancelOrder orderId => (.cancelled (r.cancelOrder orderId).1, (r.cancelOrder orderId).2)
  | .modifyOrder counter orderId newPrice newQuantity =>
      let s := modifyOrder fmt r counter orderId newPrice newQuantity
      (.modified s.1, s.2.1)

/-- The recorder that a sequence of calls leaves. -/
def record (cs : List (Call P)) : RecordingOrderBook P := Machine.final (call fmt) empty cs

end RecordingOrderBook

end Leviathan
