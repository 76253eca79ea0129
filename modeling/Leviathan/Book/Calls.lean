import Leviathan.Foundations.Machine
import Leviathan.Book.Operations

/-!
Runs of the public calls of an order book.

* `Call` is a call of one of the four mutating methods of `OrderBook`, `call` executes it,
  and `after` is the book a sequence of calls leaves, from the empty one.  The const methods
  change nothing and are read off the book.
* A `modify` carries the value of the process-wide timestamp counter at the call: between
  two calls the rest of the process may have constructed any number of orders.
* `Reachable` books are in good order (`Reachable.wf`), whatever ids, quantities and order
  types the calls used.
-/

namespace Leviathan

variable {P : Type*}

/-- A call of a mutating method of `OrderBook`. -/
inductive Call (P : Type*) where
  | addOrder (order : Order P)
  | submitOrder (order : Order P)
  | cancelOrder (orderId : UInt64)
  | modifyOrder (counter orderId : UInt64) (newPrice : P) (newQuantity : UInt64)
  deriving DecidableEq

/-- What a method of the book returns: nothing, the answer of `cancelOrder`, the trades of
`submitOrder`, the optional trades of `modifyOrder`, a best price, a count. -/
inductive Response (P : Type*) where
  | done
  | cancelled (ok : Bool)
  | trades (ts : List (Trade P))
  | modified (r : Option (List (Trade P)))
  | price (p : Option P)
  | count (n : ℕ)
  deriving DecidableEq

/-- The trades a response carries. -/
def Response.tradeList : Response P → List (Trade P)
  | .trades ts => ts
  | .modified (some ts) => ts
  | _ => []

/-- Every order resting in the book. -/
def OrderBook.restingAll (b : OrderBook P) : List (Order P) := b.resting .buy ++ b.resting .sell

/-- The ids resting in the book, with repetitions. -/
def OrderBook.restingIds (b : OrderBook P) : List UInt64 := b.restingAll.map Order.id

lemma OrderBook.mem_restingAll {b : OrderBook P} {o : Order P} :
    o ∈ b.restingAll ↔ ∃ s, o ∈ b.resting s := by
  rw [restingAll, List.mem_append]
  constructor
  · rintro (h | h)
    · exact ⟨.buy, h⟩
    · exact ⟨.sell, h⟩
  · rintro ⟨s, h⟩
    cases s with
    | buy => exact Or.inl h
    | sell => exact Or.inr h

lemma OrderBook.mem_restingIds {b : OrderBook P} {id : UInt64} :
    id ∈ b.restingIds ↔ ∃ s, ∃ o ∈ b.resting s, o.id = id := by
  rw [restingIds, List.mem_map]
  constructor
  · rintro ⟨o, ho, rfl⟩
    obtain ⟨s, hs⟩ := mem_restingAll.mp ho
    exact ⟨s, o, hs, rfl⟩
  · rintro ⟨s, o, ho, rfl⟩
    exact ⟨o, mem_restingAll.mpr ⟨s, ho⟩, rfl⟩

/-- The resting orders, one side first. -/
lemma OrderBook.restingAll_perm (b : OrderBook P) (s : Side) :
    b.restingAll.Perm (b.resting s ++ b.resting s.opposite) := by
  cases s with
  | buy => exact List.Perm.refl _
  | sell => exact List.perm_append_comm

variable [LinearOrder P]

/-- Execute a call. -/
def call (b : OrderBook P) : Call P → Response P × OrderBook P
  | .addOrder order => (.done, addOrder b order)
  | .submitOrder order => ((submitOrder b order).1 |> .trades, (submitOrder b order).2)
  | .cancelOrder orderId => ((cancelOrder b orderId).1 |> .cancelled, (cancelOrder b orderId).2)
  | .modifyOrder counter orderId newPrice newQuantity =>
      let r := modifyOrder b counter orderId newPrice newQuantity
      (.modified r.1, r.2.1)

lemma tradeList_modifyOrder (b : OrderBook P) (counter id : UInt64) (p : P) (q : UInt64) :
    (call b (.modifyOrder counter id p q)).1.tradeList
      = (modifyOrder b counter id p q).1.getD [] := by
  simp only [call]
  cases (modifyOrder b counter id p q).1 <;> rfl

/-- The book a sequence of calls leaves. -/
def after (cs : List (Call P)) : OrderBook P := Machine.final call OrderBook.empty cs

/-- The responses to a sequence of calls. -/
def responses (cs : List (Call P)) : List (Response P) := Machine.answers call OrderBook.empty cs

/-- A book some sequence of public calls leaves. -/
def Reachable (b : OrderBook P) : Prop := ∃ cs, b = after cs

lemma wf_call {b : OrderBook P} (h : BookWF b) (c : Call P) : BookWF (call b c).2 := by
  cases c with
  | addOrder o => exact wf_addOrder h o
  | submitOrder o => exact wf_submitOrder h o
  | cancelOrder id => exact wf_cancelOrder h id
  | modifyOrder counter id p q => exact wf_modifyOrder h counter id p q

lemma wf_after (cs : List (Call P)) : BookWF (after cs) :=
  Machine.invariant BookWF (fun _ c h => wf_call h c) BookWF.empty cs

/-- **Every reachable book is in good order.** -/
lemma Reachable.wf {b : OrderBook P} (h : Reachable b) : BookWF b := by
  obtain ⟨cs, rfl⟩ := h
  exact wf_after cs

/-- A run in which no add or submit carries an id that is resting at that moment. -/
def FreshIds (b : OrderBook P) : Call P → Prop
  | .addOrder o => o.id ∉ b.restingIds
  | .submitOrder o => o.id ∉ b.restingIds
  | _ => True

instance (b : OrderBook P) (c : Call P) : Decidable (FreshIds b c) :=
  match c with
  | .addOrder o => inferInstanceAs (Decidable (o.id ∉ b.restingIds))
  | .submitOrder o => inferInstanceAs (Decidable (o.id ∉ b.restingIds))
  | .cancelOrder _ => inferInstanceAs (Decidable True)
  | .modifyOrder _ _ _ _ => inferInstanceAs (Decidable True)

/-- The calls that build the book of the worked examples: two bids and three asks, one of
them without quantity, at integer prices. -/
def sampleCalls : List (Call ℤ) :=
  [.addOrder ⟨1, .sell, 101, 5, 0, .limit⟩,
   .addOrder ⟨2, .sell, 101, 0, 1, .limit⟩,
   .addOrder ⟨3, .sell, 102, 7, 2, .limit⟩,
   .addOrder ⟨4, .buy, 99, 4, 3, .limit⟩,
   .addOrder ⟨5, .buy, 98, 6, 4, .limit⟩]

end Leviathan
