import Mathlib.Tactic

/-!
`include/order.hpp` and the `Trade` record of `include/order_book.hpp`.

* `Order` is the plain data carrier of the source, over an arbitrary type `P` of prices;
  ids, quantities and timestamps are the 64-bit words of the code.
* `nextTimestamp` is one `fetch_add` on the process-wide counter, and `Order.new` is the
  constructor that stamps an order with it: both return the counter they leave.
* `Order.setQuantity` is the write to `quantity` through a reference, the only field the
  book ever changes in a resting order.
-/

namespace Leviathan

/-- `Order::Side`. -/
inductive Side where
  | buy | sell
  deriving DecidableEq, Repr

/-- `Order::OrderType`. -/
inductive OrderType where
  | limit | market | ioc | fok
  deriving DecidableEq, Repr

/-- `Order`: `quantity` is the remaining quantity to be filled, `timestamp` a logical
clock. -/
structure Order (P : Type*) where
  id : UInt64
  side : Side
  price : P
  quantity : UInt64
  timestamp : UInt64
  type : OrderType
  deriving DecidableEq, Repr

/-- `Trade`: the execution price is the maker's, the timestamp the taker's. -/
structure Trade (P : Type*) where
  buyOrderId : UInt64
  sellOrderId : UInt64
  price : P
  quantity : UInt64
  timestamp : UInt64
  deriving DecidableEq, Repr

/-- `Order::nextTimestamp`: the counter's value, and the counter advanced by one. -/
def nextTimestamp (counter : UInt64) : UInt64 × UInt64 := (counter, counter + 1)

variable {P : Type*}

/-- The constructor of `Order`, stamping the order from the counter. -/
def Order.new (counter : UInt64) (id : UInt64) (side : Side) (price : P) (quantity : UInt64)
    (type : OrderType) : Order P × UInt64 :=
  let stamp := nextTimestamp counter
  (⟨id, side, price, quantity, stamp.1, type⟩, stamp.2)

/-- The order with another remaining quantity. -/
def Order.setQuantity (o : Order P) (q : UInt64) : Order P := { o with quantity := q }

/-- The quantity as a number. -/
def Order.qty (o : Order P) : ℕ := o.quantity.toNat

/-- The order cut down to `n` units, the form in which allotments cut items down. -/
def Order.cutTo (o : Order P) (n : ℕ) : Order P := o.setQuantity (UInt64.ofNat n)

section SetQuantity

variable (o : Order P) (q : UInt64)

@[simp] lemma Order.setQuantity_id : (o.setQuantity q).id = o.id := rfl
@[simp] lemma Order.setQuantity_side : (o.setQuantity q).side = o.side := rfl
@[simp] lemma Order.setQuantity_price : (o.setQuantity q).price = o.price := rfl
@[simp] lemma Order.setQuantity_quantity : (o.setQuantity q).quantity = q := rfl
@[simp] lemma Order.setQuantity_timestamp : (o.setQuantity q).timestamp = o.timestamp := rfl
@[simp] lemma Order.setQuantity_type : (o.setQuantity q).type = o.type := rfl
@[simp] lemma Order.setQuantity_qty : (o.setQuantity q).qty = q.toNat := rfl

@[simp] lemma Order.setQuantity_setQuantity (r : UInt64) :
    (o.setQuantity q).setQuantity r = o.setQuantity r := rfl

@[simp] lemma Order.setQuantity_self : o.setQuantity o.quantity = o := rfl

@[simp] lemma Order.cutTo_id (n : ℕ) : (o.cutTo n).id = o.id := rfl
@[simp] lemma Order.cutTo_side (n : ℕ) : (o.cutTo n).side = o.side := rfl
@[simp] lemma Order.cutTo_price (n : ℕ) : (o.cutTo n).price = o.price := rfl

end SetQuantity

lemma Order.qty_lt (o : Order P) : o.qty < 2 ^ 64 := o.quantity.toNat_lt

/-- Cutting an order down to no more than its quantity loses nothing to the word size. -/
lemma Order.cutTo_qty {o : Order P} {n : ℕ} (h : n ≤ o.qty) : (o.cutTo n).qty = n := by
  have hlt := o.qty_lt
  rw [Order.cutTo, Order.setQuantity_qty, UInt64.toNat_ofNat']
  exact Nat.mod_eq_of_lt (by omega)

@[simp] lemma Order.cutTo_self (o : Order P) : o.cutTo o.qty = o := by
  rw [Order.cutTo, Order.qty, UInt64.ofNat_toNat, Order.setQuantity_self]

@[simp] lemma Order.cutTo_cutTo (o : Order P) (m n : ℕ) : (o.cutTo m).cutTo n = o.cutTo n := rfl

lemma Order.quantity_ne_zero_iff {o : Order P} : o.quantity ≠ 0 ↔ o.qty ≠ 0 := by
  rw [Order.qty, Ne, Ne, ← UInt64.toNat_inj]
  rfl

/-! ### The word arithmetic of a fill -/

lemma toNat_min (a b : UInt64) : (min a b).toNat = min a.toNat b.toNat := by
  change (if a ≤ b then a else b).toNat = _
  split_ifs with h
  · exact (Nat.min_eq_left (UInt64.le_iff_toNat_le.mp h)).symm
  · have hba : ¬ a.toNat ≤ b.toNat := fun hc => h (UInt64.le_iff_toNat_le.mpr hc)
    omega

/-- Taking the smaller of two words off the first never wraps. -/
lemma toNat_sub_min_left (a b : UInt64) : (a - min a b).toNat = a.toNat - b.toNat := by
  have h : min a b ≤ a := by
    rw [UInt64.le_iff_toNat_le, toNat_min]
    exact Nat.min_le_left _ _
  rw [UInt64.toNat_sub_of_le _ _ h, toNat_min]
  omega

/-- Taking the smaller of two words off the second never wraps. -/
lemma toNat_sub_min_right (a b : UInt64) : (b - min a b).toNat = b.toNat - a.toNat := by
  have h : min a b ≤ b := by
    rw [UInt64.le_iff_toNat_le, toNat_min]
    exact Nat.min_le_right _ _
  rw [UInt64.toNat_sub_of_le _ _ h, toNat_min]
  omega

lemma min_eq_ofNat (a b : UInt64) : min a b = UInt64.ofNat (min b.toNat a.toNat) := by
  rw [Nat.min_comm, ← toNat_min, UInt64.ofNat_toNat]

lemma sub_min_left (a b : UInt64) : a - min a b = UInt64.ofNat (a.toNat - b.toNat) := by
  rw [← toNat_sub_min_left, UInt64.ofNat_toNat]

lemma sub_min_right (a b : UInt64) : b - min a b = UInt64.ofNat (b.toNat - a.toNat) := by
  rw [← toNat_sub_min_right, UInt64.ofNat_toNat]

end Leviathan
