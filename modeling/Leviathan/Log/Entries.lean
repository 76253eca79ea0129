import Leviathan.Log.Replay

/-!
What a line of a log asks for.

`parseLine` decides whether to act on a line and acts.  `entryOf` is the decision, which depends
on the line alone: the entry that is to be executed, `none` when the line is skipped.
`Replay.execute` is the action.  `parseLine_of_entry` and `parseLine_of_none` put them together: a
line that is skipped at most adds a warning.
-/

namespace Leviathan

variable {P : Type*}

/-- What a line asks for. -/
inductive Entry (P : Type*) where
  | add (orderId : UInt64) (side : Side) (price : P) (quantity : UInt64) (type : OrderType)
  | cancel (orderId : UInt64)
  | submit (orderId : UInt64) (side : Side) (price : P) (quantity : UInt64) (type : OrderType)
  | modify (orderId : UInt64) (newPrice : P) (newQuantity : UInt64)
  | trade (t : Trade P)
  deriving DecidableEq

/-- The entry a line is read as. -/
def entryOf (fmt : PriceFormat P) (line : List Char) : Option (Entry P) :=
  let (tag, iss) := splitTag line
  if tag = "ADD".toList then
    (orderFields fmt iss).map fun (orderId, side, price, quantity, type) =>
      .add orderId side price quantity type
  else if tag = "CANCEL".toList then (idField iss).map .cancel
  else if tag = "SUBMIT".toList then
    (orderFields fmt iss).map fun (orderId, side, price, quantity, type) =>
      .submit orderId side price quantity type
  else if tag = "MODIFY".toList then
    (modifyFields fmt iss).map fun (orderId, newPrice, newQuantity) =>
      .modify orderId newPrice newQuantity
  else if tag = "TRADE".toList then (tradeFields fmt iss).map .trade
  else none

variable [LinearOrder P]

/-- Execute an entry: a call of a method of the book, or a trade recorded. -/
def Replay.execute (st : Replay P) : Entry P → Replay P
  | .add orderId side price quantity type =>
      let (order, counter) := Order.new st.counter orderId side price quantity type
      { st with book := addOrder st.book order, counter }
  | .cancel orderId => { st with book := (cancelOrder st.book orderId).2 }
  | .submit orderId side price quantity type =>
      let (order, counter) := Order.new st.counter orderId side price quantity type
      let (trades, book) := submitOrder st.book order
      { st with book, counter, replayedTrades := st.replayedTrades ++ trades }
  | .modify orderId newPrice newQuantity =>
      let (result, book, counter) :=
        modifyOrder st.book st.counter orderId newPrice newQuantity
      { st with book, counter, replayedTrades := st.replayedTrades ++ result.getD [] }
  | .trade t => { st with loggedTrades := st.loggedTrades ++ [t] }

variable {fmt : PriceFormat P} {line : List Char}

/-- **A line that is acted on** executes its entry. -/
lemma parseLine_of_entry {e : Entry P} (h : entryOf fmt line = some e) (st : Replay P) :
    parseLine fmt st line = st.execute e := by
  have hne : line ≠ [] := by
    rintro rfl
    simp [entryOf, splitTag] at h
  rcases hsplit : splitTag line with ⟨tag, iss⟩
  simp only [entryOf, hsplit] at h
  simp only [parseLine, if_neg hne, hsplit]
  split_ifs at h ⊢
  · obtain ⟨f, hf, rfl⟩ := Option.map_eq_some_iff.mp h
    simp only [hf]
    rfl
  · obtain ⟨id, hid, rfl⟩ := Option.map_eq_some_iff.mp h
    simp only [hid]
    rfl
  · obtain ⟨f, hf, rfl⟩ := Option.map_eq_some_iff.mp h
    simp only [hf]
    rfl
  · obtain ⟨f, hf, rfl⟩ := Option.map_eq_some_iff.mp h
    simp only [hf]
    rfl
  · obtain ⟨t, ht, rfl⟩ := Option.map_eq_some_iff.mp h
    simp only [ht]
    rfl

/-- **A line that is skipped** changes nothing but the warnings. -/
lemma parseLine_of_none (h : entryOf fmt line = none) (st : Replay P) :
    ∃ ws, parseLine fmt st line = { st with warnings := ws } := by
  by_cases hne : line = []
  · exact ⟨st.warnings, by rw [parseLine, if_pos hne]⟩
  rcases hsplit : splitTag line with ⟨tag, iss⟩
  simp only [entryOf, hsplit] at h
  simp only [parseLine, if_neg hne, hsplit]
  split_ifs at h ⊢
  · rw [Option.map_eq_none_iff.mp h]
    exact ⟨_, rfl⟩
  · rw [Option.map_eq_none_iff.mp h]
    exact ⟨_, rfl⟩
  · rw [Option.map_eq_none_iff.mp h]
    exact ⟨_, rfl⟩
  · rw [Option.map_eq_none_iff.mp h]
    exact ⟨_, rfl⟩
  · rw [Option.map_eq_none_iff.mp h]
    exact ⟨_, rfl⟩
  · exact ⟨st.warnings, rfl⟩

end Leviathan
