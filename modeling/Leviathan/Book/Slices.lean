import Mathlib.Data.List.TakeWhile
import Leviathan.Book.Exchange
import Leviathan.Book.Prices
import Leviathan.Book.Withdrawn

/-!
An order in slices.

Two runs are compared, one with an order `x` in the book and one with the orders `xs` in its place,
one behind the other in the queue, which hold together what `x` holds (`Slices`).

* `sliced i xs l`: the list with `xs` for the order of the id `i`.  Cutting the list to prices,
  taking an order out, changing a quantity and inserting an order commute with it, and so does
  what a demand leaves of a queue, with other slices (`exists_keep_sliced`).
* `TradesSliced`: the trades are the same, but for the one of `x`, in whose place stand those of its
  slices, at the same price and for the same quantity together.
* `Sliced.call` is one call on both books, and `sliced_maker` all of them.
-/

namespace Leviathan

open Allotment

variable {P : Type*}

/-- The orders hold together what `x` holds, on its side and at its price, each a positive part
of it. -/
structure Slices (x : Order P) (xs : List (Order P)) : Prop where
  side : ∀ z ∈ xs, z.side = x.side
  price : ∀ z ∈ xs, z.price = x.price
  sized : ∀ z ∈ xs, 0 < z.qty
  total_eq : total Order.qty xs = x.qty
  ne_nil : xs ≠ []

/-- The orders `xs` in the place of the order of the id `i`. -/
def sliced (i : UInt64) (xs l : List (Order P)) : List (Order P) :=
  l.flatMap fun y => if y.id = i then xs else [y]

/-! ### Lists with slices -/

section Lists

variable {i : UInt64} {xs l : List (Order P)} {y : Order P}

@[simp] lemma sliced_nil : sliced i xs [] = [] := rfl

lemma sliced_cons_self (h : y.id = i) (l : List (Order P)) :
    sliced i xs (y :: l) = xs ++ sliced i xs l := by
  simp [sliced, h]

lemma sliced_cons_of_ne (h : y.id ≠ i) (l : List (Order P)) :
    sliced i xs (y :: l) = y :: sliced i xs l := by
  simp [sliced, h]

lemma sliced_append (l l' : List (Order P)) :
    sliced i xs (l ++ l') = sliced i xs l ++ sliced i xs l' :=
  List.flatMap_append

lemma sliced_of_notMem (h : i ∉ l.map Order.id) : sliced i xs l = l := by
  induction l with
  | nil => rfl
  | cons y l ih =>
      rw [List.map_cons, List.mem_cons, not_or] at h
      rw [sliced_cons_of_ne (Ne.symm h.1), ih h.2]

lemma mem_of_mem_sliced {z : Order P} (h : z ∈ sliced i xs l) : z ∈ l ∨ z ∈ xs := by
  obtain ⟨y, hy, hz⟩ := List.mem_flatMap.mp h
  split_ifs at hz
  · exact Or.inr hz
  · exact Or.inl (List.mem_singleton.mp hz ▸ hy)

/-- What holds of the order and its slices alike cuts them off together. -/
lemma filter_sliced {p : Order P → Bool} (h : ∀ y ∈ l, y.id = i → ∀ z ∈ xs, p z = p y) :
    (sliced i xs l).filter p = sliced i xs (l.filter p) := by
  induction l with
  | nil => rfl
  | cons y l ih =>
      obtain ⟨hy, hl⟩ := List.forall_mem_cons.mp h
      by_cases hid : y.id = i
      · rw [sliced_cons_self hid, List.filter_append, ih hl]
        cases hp : p y with
        | true =>
            have hall : xs.filter p = xs :=
              List.filter_eq_self.mpr fun z hz => (hy hid z hz).trans hp
            rw [hall, List.filter_cons_of_pos hp, sliced_cons_self hid]
        | false =>
            have hnone : xs.filter p = [] :=
              List.filter_eq_nil_iff.mpr fun z hz => by rw [hy hid z hz, hp]; simp
            rw [hnone, List.filter_cons_of_neg (by simp [hp]), List.nil_append]
      · rw [sliced_cons_of_ne hid, List.filter_cons, List.filter_cons, ih hl]
        split_ifs
        · rw [sliced_cons_of_ne hid]
        · rfl

/-- A change of other orders than the slices. -/
lemma map_sliced {f : Order P → Order P} (hid : ∀ y, (f y).id = y.id) (hxs : ∀ z ∈ xs, f z = z) :
    (sliced i xs l).map f = sliced i xs (l.map f) := by
  induction l with
  | nil => rfl
  | cons y l ih =>
      by_cases hy : y.id = i
      · have hfy : (f y).id = i := (hid y).trans hy
        rw [sliced_cons_self hy, List.map_append, ih, List.map_cons, sliced_cons_self hfy,
          List.map_congr_left hxs, List.map_id']
      · have hfy : (f y).id ≠ i := fun h => hy ((hid y).symm.trans h)
        rw [sliced_cons_of_ne hy, List.map_cons, ih, List.map_cons, sliced_cons_of_ne hfy]

lemma total_sliced (h : ∀ y ∈ l, y.id = i → Slices y xs) :
    total Order.qty (sliced i xs l) = total Order.qty l := by
  induction l with
  | nil => rfl
  | cons y l ih =>
      obtain ⟨hy, hl⟩ := List.forall_mem_cons.mp h
      by_cases hid : y.id = i
      · rw [sliced_cons_self hid, total_append, ih hl, (hy hid).total_eq, total_cons]
      · rw [sliced_cons_of_ne hid, total_cons, ih hl, total_cons]

end Lists

/-! ### A demand along a queue with slices -/

lemma Slices.pos {x : Order P} {xs : List (Order P)} (h : Slices x xs) : 0 < x.qty := by
  obtain ⟨z, zs, rfl⟩ := List.exists_cons_of_ne_nil h.ne_nil
  have htotal := h.total_eq
  have hz := h.sized z List.mem_cons_self
  rw [total_cons] at htotal
  omega

/-- What a demand leaves of one order. -/
lemma keep_singleton {x : Order P} (hx : 0 < x.qty) (Q : ℕ) :
    keep Order.qty Order.cutTo Q [x] = if Q < x.qty then [x.cutTo (x.qty - Q)] else [] := by
  by_cases h0 : Q = 0
  · rw [h0, keep_zero, if_pos hx, Nat.sub_zero, Order.cutTo_self]
  by_cases hQ : Q < x.qty
  · rw [keep, if_neg h0, if_neg (by omega), if_pos hQ]
  · rw [keep, if_neg h0, if_pos (by omega), if_neg hQ, keep_nil]

/-- What a demand leaves of slices that hold together more. -/
lemma Slices.cut {x : Order P} {xs : List (Order P)} (h : Slices x xs) {Q : ℕ} (hQ : Q < x.qty) :
    Slices (x.cutTo (x.qty - Q)) (keep Order.qty Order.cutTo Q xs) := by
  have htotal : total Order.qty (keep Order.qty Order.cutTo Q xs) = x.qty - Q := by
    rw [total_keep Order.qty Order.cutTo fun _ _ => Order.cutTo_qty, h.total_eq]
  refine ⟨fun z hz => ?_, fun z hz => ?_, fun z hz => ?_, ?_, fun hnil => ?_⟩
  · rcases mem_keep _ _ hz with hz | ⟨y, hy, n, rfl⟩
    · exact h.side z hz
    · exact h.side y hy
  · rcases mem_keep _ _ hz with hz | ⟨y, hy, n, rfl⟩
    · exact h.price z hz
    · exact h.price y hy
  · exact size_pos_of_mem_keep Order.qty Order.cutTo (fun _ _ => Order.cutTo_qty) h.sized hz
  · rw [htotal, Order.cutTo_qty (Nat.sub_le _ _)]
  · rw [hnil, total_nil] at htotal
    omega

/-- A demand that covers slices leaves none. -/
lemma Slices.used {x : Order P} {xs : List (Order P)} (h : Slices x xs) {Q : ℕ}
    (hQ : x.qty ≤ Q) : keep Order.qty Order.cutTo Q xs = [] := by
  have htotal : total Order.qty (keep Order.qty Order.cutTo Q xs) = 0 := by
    rw [total_keep Order.qty Order.cutTo fun _ _ => Order.cutTo_qty, h.total_eq]
    omega
  refine List.eq_nil_iff_forall_not_mem.mpr fun z hz => ?_
  have hpos := size_pos_of_mem_keep Order.qty Order.cutTo (fun _ _ => Order.cutTo_qty) h.sized hz
  have hle : z.qty ≤ 0 := htotal ▸ List.single_le_sum (by simp) _ (List.mem_map_of_mem hz)
  omega

section Demand

variable {i : UInt64} {xs l : List (Order P)}

/-- A queue of distinct ids, at the order of an id. -/
lemma exists_split_of_mem (hl : (l.map Order.id).Nodup) (hi : i ∈ l.map Order.id) :
    ∃ pre x post, l = pre ++ x :: post ∧ x.id = i ∧ i ∉ pre.map Order.id
      ∧ i ∉ post.map Order.id := by
  obtain ⟨x, hx, rfl⟩ := List.mem_map.mp hi
  obtain ⟨pre, post, rfl⟩ := List.append_of_mem hx
  rw [List.map_append, List.map_cons] at hl
  obtain ⟨-, hpost, hdis⟩ := List.nodup_append.mp hl
  exact ⟨pre, x, post, rfl, rfl, fun hmem => hdis _ hmem _ List.mem_cons_self rfl,
    (List.nodup_cons.mp hpost).1⟩

lemma notMem_keep {Q : ℕ} (h : i ∉ l.map Order.id) :
    i ∉ (keep Order.qty Order.cutTo Q l).map Order.id := fun hmem => by
  rw [map_keep Order.qty Order.cutTo Order.id fun _ _ => rfl] at hmem
  exact h (List.map_subset _ (List.drop_subset _ _) hmem)

/-- What a demand leaves of slices has ids of theirs. -/
lemma id_mem_of_mem_keep {Q : ℕ} {z : Order P} (hz : z ∈ keep Order.qty Order.cutTo Q l) :
    z.id ∈ l.map Order.id :=
  by_contra fun hno => notMem_keep hno (List.mem_map.mpr ⟨z, hz, rfl⟩)

/-- **What a demand leaves** of a queue with slices: what it leaves of the queue, with what the
part of it that comes to them, `n`, leaves of the slices. -/
lemma exists_keep_sliced (hl : (l.map Order.id).Nodup) (hx : ∀ y ∈ l, y.id = i → Slices y xs)
    (Q : ℕ) :
    ∃ n, keep Order.qty Order.cutTo Q (sliced i xs l)
        = sliced i (keep Order.qty Order.cutTo n xs) (keep Order.qty Order.cutTo Q l)
      ∧ (∀ y ∈ keep Order.qty Order.cutTo Q l, y.id = i →
        Slices y (keep Order.qty Order.cutTo n xs))
      ∧ (i ∉ l.map Order.id → n = 0) := by
  by_cases hi : i ∈ l.map Order.id
  · obtain ⟨pre, x, post, rfl, hxi, hpre, hpost⟩ := exists_split_of_mem hl hi
    have hslices : Slices x xs := hx x (by simp) hxi
    have hsplit : ∀ m : List (Order P), total Order.qty m = x.qty →
        keep Order.qty Order.cutTo Q (pre ++ (m ++ post)) = keep Order.qty Order.cutTo Q pre
          ++ (keep Order.qty Order.cutTo (Q - total Order.qty pre) m
            ++ keep Order.qty Order.cutTo (Q - total Order.qty pre - x.qty) post) := fun m hm => by
      rw [keep_append, keep_append, hm]
    have hone : keep Order.qty Order.cutTo Q (pre ++ x :: post) = _ := hsplit [x] (by simp)
    have hparts : sliced i xs (pre ++ x :: post) = pre ++ (xs ++ post) := by
      rw [sliced_append, sliced_of_notMem hpre, sliced_cons_self hxi, sliced_of_notMem hpost]
    have hmid := keep_singleton hslices.pos (Q - total Order.qty pre)
    refine ⟨Q - total Order.qty pre, ?_, ?_, fun hno => absurd hi hno⟩
    · rw [hparts, hsplit xs hslices.total_eq, hone, sliced_append, sliced_append,
        sliced_of_notMem (notMem_keep hpre), sliced_of_notMem (notMem_keep hpost)]
      congr 2
      -- the demand that comes to the order, or to its slices
      rw [hmid]
      split_ifs with hQ
      · have hcut : (x.cutTo (x.qty - (Q - total Order.qty pre))).id = i := hxi
        rw [sliced_cons_self hcut, sliced_nil, List.append_nil]
      · exact hslices.used (not_lt.mp hQ)
    · intro y hy hid
      rw [hone, List.mem_append, List.mem_append] at hy
      rcases hy with hy | hy | hy
      · exact absurd (List.mem_map.mpr ⟨y, hy, hid⟩) (notMem_keep hpre)
      · rw [hmid] at hy
        split_ifs at hy with hQ
        · rw [List.mem_singleton.mp hy]
          exact hslices.cut hQ
        · cases hy
      · exact absurd (List.mem_map.mpr ⟨y, hy, hid⟩) (notMem_keep hpost)
  · have hy : ∀ y ∈ keep Order.qty Order.cutTo Q l, y.id ≠ i := fun y hy hid =>
      notMem_keep hi (List.mem_map.mpr ⟨y, hy, hid⟩)
    refine ⟨0, ?_, fun y hmem hid => absurd hid (hy y hmem), fun _ => rfl⟩
    rw [sliced_of_notMem hi, sliced_of_notMem (notMem_keep hi)]

end Demand

/-! ### Trades with slices -/

/-- Trades of the slices `I`, in the place of a trade of the order `i`. -/
structure SliceTrades (i : UInt64) (I : List UInt64) (t : Trade P) (us : List (Trade P)) :
    Prop where
  price : ∀ u ∈ us, u.price = t.price ∧ u.timestamp = t.timestamp
  ids : ∀ u ∈ us, u.buyOrderId = t.buyOrderId ∧ t.sellOrderId = i ∧ u.sellOrderId ∈ I
    ∨ u.sellOrderId = t.sellOrderId ∧ t.buyOrderId = i ∧ u.buyOrderId ∈ I
  total_eq : (us.map fun u => u.quantity.toNat).sum = t.quantity.toNat

/-- The same trades, but for one of the order `i`, in whose place stand those of its slices. -/
inductive TradesSliced (i : UInt64) (I : List UInt64) : List (Trade P) → List (Trade P) → Prop
  | same {ts : List (Trade P)} (h : ∀ t ∈ ts, ¬ t.Names i) : TradesSliced i I ts ts
  | sliced {pre post us : List (Trade P)} {t : Trade P} (hpre : ∀ u ∈ pre, ¬ u.Names i)
      (hpost : ∀ u ∈ post, ¬ u.Names i) (h : SliceTrades i I t us) :
      TradesSliced i I (pre ++ t :: post) (pre ++ (us ++ post))

section Trades

variable {i : UInt64} {I : List UInt64} {xs l : List (Order P)} {o : Order P}

/-- The trades of an order along a queue. -/
def tradesAlong (o : Order P) (Q : ℕ) (l : List (Order P)) : List (Trade P) :=
  (allot Order.qty Q l).map fun f => o.tradeWith f.1 f.2

lemma tradesAlong_append (o : Order P) (Q : ℕ) (l m : List (Order P)) :
    tradesAlong o Q (l ++ m) = tradesAlong o Q l ++ tradesAlong o (Q - total Order.qty l) m := by
  rw [tradesAlong, allot_append, List.map_append, tradesAlong, tradesAlong]

lemma toNat_tradeWith (o : Order P) {m : Order P} {n : ℕ} (hn : n ≤ m.qty) :
    (o.tradeWith m n).quantity.toNat = n := by
  have hlt := m.qty_lt
  rw [Order.tradeWith_quantity, UInt64.toNat_ofNat']
  exact Nat.mod_eq_of_lt (by omega)

lemma not_names_tradesAlong (ho : o.id ≠ i) (hi : i ∉ l.map Order.id) (Q : ℕ) :
    ∀ t ∈ tradesAlong o Q l, ¬ t.Names i := by
  intro t ht hname
  obtain ⟨f, hf, rfl⟩ := List.mem_map.mp ht
  refine hi (List.mem_map.mpr ⟨f.1, mem_of_mem_allot _ hf, ?_⟩)
  exact (Order.tradeWith_names.mp hname).resolve_left ho

/-- The trades with slices, in the place of a trade with what they hold together. -/
lemma Slices.trades {x : Order P} (h : Slices x xs) (hI : ∀ z ∈ xs, z.id ∈ I) (o : Order P)
    (Q : ℕ) : SliceTrades x.id I (o.tradeWith x (min x.qty Q)) (tradesAlong o Q xs) := by
  refine ⟨fun u hu => ?_, fun u hu => ?_, ?_⟩
  · obtain ⟨f, hf, rfl⟩ := List.mem_map.mp hu
    have hprice := h.price f.1 (mem_of_mem_allot _ hf)
    rw [Order.tradeWith_price, Order.tradeWith_price, hprice]
    exact ⟨rfl, by cases hs : o.side <;> simp [Order.tradeWith, hs]⟩
  · obtain ⟨f, hf, rfl⟩ := List.mem_map.mp hu
    have hid := hI f.1 (mem_of_mem_allot _ hf)
    cases hs : o.side with
    | buy => exact Or.inl (by simpa [Order.tradeWith, hs] using hid)
    | sell => exact Or.inr (by simpa [Order.tradeWith, hs] using hid)
  · have hamounts : (tradesAlong o Q xs).map (fun u => u.quantity.toNat)
        = (allot Order.qty Q xs).map Prod.snd := by
      rw [tradesAlong, List.map_map]
      exact List.map_congr_left fun f hf => toNat_tradeWith o (snd_le_of_mem_allot _ hf)
    rw [hamounts, sum_allot, h.total_eq, toNat_tradeWith o (min_le_left _ _), min_comm]

/-- **The trades** of an order along a queue with slices. -/
lemma tradesSliced_along (ho : o.id ≠ i) (hl : (l.map Order.id).Nodup)
    (hx : ∀ y ∈ l, y.id = i → Slices y xs) (hI : ∀ z ∈ xs, z.id ∈ I) (Q : ℕ) :
    TradesSliced i I (tradesAlong o Q l) (tradesAlong o Q (sliced i xs l)) := by
  by_cases hi : i ∈ l.map Order.id
  · obtain ⟨pre, x, post, rfl, rfl, hpre, hpost⟩ := exists_split_of_mem hl hi
    have hslices : Slices x xs := hx x (by simp) rfl
    rw [sliced_append, sliced_of_notMem hpre, sliced_cons_self rfl, sliced_of_notMem hpost,
      tradesAlong_append, tradesAlong_append, tradesAlong_append, hslices.total_eq]
    by_cases hQ : Q - total Order.qty pre = 0
    · -- the demand ends in front of the order
      have hnone : ∀ m : List (Order P), tradesAlong o 0 m = [] := fun m => by
        rw [tradesAlong, allot_zero, List.map_nil]
      rw [hQ, Nat.zero_sub, hnone, hnone, hnone]
      simpa using TradesSliced.same (not_names_tradesAlong ho hpre Q)
    · have hcons : tradesAlong o (Q - total Order.qty pre) (x :: post)
          = o.tradeWith x (min x.qty (Q - total Order.qty pre))
            :: tradesAlong o (Q - total Order.qty pre - x.qty) post := by
        rw [tradesAlong, allot, if_neg hQ, List.map_cons]
        rfl
      rw [hcons]
      exact .sliced (not_names_tradesAlong ho hpre _) (not_names_tradesAlong ho hpost _)
        (hslices.trades hI o _)
  · rw [sliced_of_notMem hi]
    exact .same (not_names_tradesAlong ho hi Q)

end Trades

/-! ### Books with slices -/

variable [LinearOrder P]

/-- An order is inserted behind those it does not come before. -/
lemma orderedInsert_behind {s : Side} {o : Order P} {l l' : List (Order P)}
    (h : ∀ z ∈ l, ¬ OrderBefore s o z) :
    (l ++ l').orderedInsert (OrderBefore s) o = l ++ l'.orderedInsert (OrderBefore s) o := by
  induction l with
  | nil => rfl
  | cons z l ih =>
      obtain ⟨hz, hl⟩ := List.forall_mem_cons.mp h
      rw [List.cons_append, List.orderedInsert_cons, if_neg hz, ih hl, List.cons_append]

/-- An order that is inserted stands in front of the slices or behind them. -/
lemma orderedInsert_sliced {i : UInt64} {xs l : List (Order P)} {s : Side} {o : Order P}
    (ho : o.id ≠ i) (h : ∀ y ∈ l, y.id = i → Slices y xs) :
    (sliced i xs l).orderedInsert (OrderBefore s) o
      = sliced i xs (l.orderedInsert (OrderBefore s) o) := by
  induction l with
  | nil => rw [sliced_nil, List.orderedInsert_nil, sliced_cons_of_ne ho, sliced_nil]
  | cons y l ih =>
      obtain ⟨hy, hl⟩ := List.forall_mem_cons.mp h
      rw [List.orderedInsert_cons]
      by_cases hid : y.id = i
      · have hslices := hy hid
        have hsame : ∀ z ∈ xs, (OrderBefore s o z ↔ OrderBefore s o y) := fun z hz => by
          rw [OrderBefore, hslices.price z hz, OrderBefore]
        rw [sliced_cons_self hid]
        split_ifs with hbefore
        · obtain ⟨z, zs, rfl⟩ := List.exists_cons_of_ne_nil hslices.ne_nil
          rw [sliced_cons_of_ne ho, sliced_cons_self hid, List.cons_append,
            List.orderedInsert_cons, if_pos ((hsame z List.mem_cons_self).mpr hbefore)]
        · rw [orderedInsert_behind fun z hz hz' => hbefore ((hsame z hz).mp hz'), ih hl,
            sliced_cons_self hid]
      · rw [sliced_cons_of_ne hid, List.orderedInsert_cons]
        split_ifs with hbefore
        · rw [sliced_cons_of_ne ho, sliced_cons_of_ne hid]
        · rw [ih hl, sliced_cons_of_ne hid]

/-- What a cancellation leaves are the orders of other ids. -/
lemma Removed.filter {b b' : OrderBook P} {s : Side} {o : Order P} {bef aft : List (Order P)}
    (hr : Removed b b' s o bef aft) (h : IndexExact b) :
    ∀ t, b'.resting t = (b.resting t).filter fun y => y.id ≠ o.id := by
  have hfree : ∀ t, ∀ y ∈ b'.resting t, y.id ≠ o.id := fun t y hy hid =>
    (h.removed hr).2 (OrderBook.mem_restingIds.mpr ⟨t, y, hy, hid⟩)
  have hall : ∀ t, (b'.resting t).filter (fun y => y.id ≠ o.id) = b'.resting t := fun t =>
    List.filter_eq_self.mpr fun y hy => by simpa using hfree t y hy
  refine forall_side s ?_ ?_
  · rw [hr.resting, ← hall, hr.resting', List.filter_append, List.filter_append,
      List.filter_cons_of_neg (by simp)]
  · rw [← OrderBook.resting_congr hr.other, hall]

/-- What a change in place leaves is every order, one of them changed. -/
lemma Rewritten.map {b b' b'' : OrderBook P} {s : Side} {o : Order P} {q : UInt64}
    {bef aft : List (Order P)} (hw : Rewritten b b'' s o q bef aft) (h : IndexExact b)
    (hr : Removed b b' s o bef aft) :
    ∀ t, b''.resting t = (b.resting t).map fun y => if y.id = o.id then y.setQuantity q else y := by
  have hfree : ∀ t, ∀ y ∈ b'.resting t, y.id ≠ o.id := fun t y hy hid =>
    (h.removed hr).2 (OrderBook.mem_restingIds.mpr ⟨t, y, hy, hid⟩)
  have hall : ∀ (t : Side) (l : List (Order P)), (∀ y ∈ l, y ∈ b'.resting t) →
      (l.map fun y => if y.id = o.id then y.setQuantity q else y) = l := fun t l hl => by
    refine (List.map_congr_left fun y hy => ?_).trans (List.map_id' l)
    exact if_neg (hfree t y (hl y hy))
  have hbef : ∀ y ∈ bef, y ∈ b'.resting s := fun y hy => hr.resting' ▸ List.mem_append_left _ hy
  have haft : ∀ y ∈ aft, y ∈ b'.resting s := fun y hy => hr.resting' ▸ List.mem_append_right _ hy
  refine forall_side s ?_ ?_
  · rw [hr.resting, hw.resting', List.map_append, List.map_cons, if_pos rfl,
      hall s bef hbef, hall s aft haft]
  · rw [OrderBook.resting_congr hw.other, ← OrderBook.resting_congr hr.other,
      hall s.opposite _ fun y hy => hy]

/-- The book `b'` is the book `b` with the slices `xs`, of ids in `I`, for the order `i`, as long as
it rests. -/
structure Sliced (i : UInt64) (I : List UInt64) (xs : List (Order P)) (b b' : OrderBook P) :
    Prop where
  exact : IndexExact b
  exact' : IndexExact b'
  resting : ∀ s, b'.resting s = sliced i xs (b.resting s)
  slices : ∀ y ∈ b.restingAll, y.id = i → Slices y xs
  ids : ∀ z ∈ xs, z.id ∈ I

namespace Sliced

variable {i : UInt64} {I : List UInt64} {xs : List (Order P)} {b b' : OrderBook P} {o : Order P}

lemma slices_of_mem (h : Sliced i I xs b b') {s : Side} :
    ∀ y ∈ b.resting s, y.id = i → Slices y xs := fun y hy =>
  h.slices y (OrderBook.mem_restingAll.mpr ⟨s, hy⟩)

lemma slices_of_eligible (h : Sliced i I xs b b') (o : Order P) :
    ∀ y ∈ eligible b o, y.id = i → Slices y xs := fun y hy =>
  h.slices_of_mem y (List.mem_of_mem_filter hy)

lemma eligible (h : Sliced i I xs b b') (o : Order P) :
    eligible b' o = sliced i xs (eligible b o) := by
  rw [Leviathan.eligible, h.resting]
  refine filter_sliced fun y hy hid z hz => ?_
  rw [(h.slices_of_mem y hy hid).price z hz]

lemma ineligible (h : Sliced i I xs b b') (o : Order P) :
    ineligible b' o = sliced i xs (ineligible b o) := by
  rw [Leviathan.ineligible, h.resting]
  refine filter_sliced fun y hy hid z hz => ?_
  rw [(h.slices_of_mem y hy hid).price z hz]

lemma total_eligible (h : Sliced i I xs b b') (o : Order P) :
    total Order.qty (Leviathan.eligible b' o) = total Order.qty (Leviathan.eligible b o) := by
  rw [h.eligible, total_sliced (h.slices_of_eligible o)]

/-- What rests in the sliced book has the id of a slice, or rests in the other. -/
lemma mem_restingIds (h : Sliced i I xs b b') {j : UInt64} (hj : j ∈ b'.restingIds) :
    j ∈ I ∨ j ∈ b.restingIds := by
  obtain ⟨s, z, hz, rfl⟩ := OrderBook.mem_restingIds.mp hj
  rw [h.resting] at hz
  rcases mem_of_mem_sliced hz with hz | hz
  · exact Or.inr (OrderBook.mem_restingIds.mpr ⟨s, z, hz, rfl⟩)
  · exact Or.inl (h.ids z hz)

lemma addOrder (h : Sliced i I xs b b') (ho : o.id ∉ b.restingIds) (hi : o.id ≠ i)
    (hI : o.id ∉ I) : Sliced i I xs (addOrder b o) (addOrder b' o) := by
  have ho' : o.id ∉ b'.restingIds := fun hmem => (h.mem_restingIds hmem).elim hI ho
  refine ⟨h.exact.addOrder ho, h.exact'.addOrder ho', forall_side o.side ?_ ?_, ?_, h.ids⟩
  · rw [resting_addOrder_self h.exact.wf, resting_addOrder_self h.exact'.wf, h.resting,
      orderedInsert_sliced hi h.slices_of_mem]
  · rw [OrderBook.resting_congr (side_addOrder_of_ne b' o.side.opposite_ne),
      OrderBook.resting_congr (side_addOrder_of_ne b o.side.opposite_ne), h.resting]
  · intro y hy hid
    rcases List.mem_cons.mp ((restingAll_addOrder h.exact.wf o).mem_iff.mp hy) with rfl | hy
    · exact absurd hid hi
    · exact h.slices y hy hid

/-- Slices that nothing has been taken of. -/
lemma untouched (h : Sliced i I xs b b') :
    ∃ n, Sliced i I (keep Order.qty Order.cutTo n xs) b b' :=
  ⟨0, by rwa [keep_zero]⟩

/-- **The matching loop** in both books. -/
lemma matched (h : Sliced i I xs b b') (o : Order P) :
    ∃ n, Sliced i I (keep Order.qty Order.cutTo n xs) (matched b o) (matched b' o) := by
  have hsplit := restingAll_eligible h.exact.wf o
  have hids : ((Leviathan.eligible b o).map Order.id ++ (unmet b o).map Order.id).Nodup := by
    rw [← List.map_append]
    exact (hsplit.map Order.id).nodup_iff.mp h.exact.tracks.nodup
  obtain ⟨helig, -, hdis⟩ := List.nodup_append.mp hids
  obtain ⟨n, hkeep, hslices, hsame⟩ := exists_keep_sliced helig (h.slices_of_eligible o) o.qty
  -- the orders that are not met see the same slices, or there are none among them
  have hunmet : ∀ l, (∀ y ∈ l, y ∈ unmet b o) →
      sliced i (keep Order.qty Order.cutTo n xs) l = sliced i xs l := by
    intro l hl
    by_cases hi : i ∈ (Leviathan.eligible b o).map Order.id
    · have hno : i ∉ l.map Order.id := fun hmem => by
        obtain ⟨y, hy, hid⟩ := List.mem_map.mp hmem
        exact hdis i hi i (hid ▸ List.mem_map_of_mem (hl y hy)) rfl
      rw [sliced_of_notMem hno, sliced_of_notMem hno]
    · rw [hsame hi, keep_zero]
  refine ⟨n, h.exact.matched o, h.exact'.matched o, forall_side o.side ?_ ?_, ?_, ?_⟩
  · rw [OrderBook.resting_congr (side_matched b' o), OrderBook.resting_congr (side_matched b o),
      h.resting, hunmet _ fun y hy => List.mem_append_left _ hy]
  · rw [resting_matched_opposite h.exact'.wf, resting_matched_opposite h.exact.wf, h.eligible,
      h.ineligible, hkeep, sliced_append, hunmet _ fun y hy => List.mem_append_right _ hy]
  · intro y hy hid
    rcases List.mem_append.mp ((restingAll_matched h.exact.wf o).mem_iff.mp hy) with hy | hy
    · exact hslices y hy hid
    · have hi : i ∉ (Leviathan.eligible b o).map Order.id := fun hi =>
        hdis i hi i (hid ▸ List.mem_map_of_mem hy) rfl
      rw [hsame hi, keep_zero]
      exact h.slices y (hsplit.mem_iff.mpr (List.mem_append_right _ hy)) hid
  · intro z hz
    obtain ⟨x, hx, hid⟩ := List.mem_map.mp (id_mem_of_mem_keep hz)
    exact hid ▸ h.ids x hx

/-- **Submitting** an order to both books. -/
lemma submitOrder (h : Sliced i I xs b b') (ho : o.id ∉ b.restingIds) (hi : o.id ≠ i)
    (hI : o.id ∉ I) (hp : o.type = .fok → total Order.qty (Leviathan.eligible b o) < 2 ^ 64) :
    TradesSliced i I (submitOrder b o).1 (submitOrder b' o).1
      ∧ ∃ n, Sliced i I (keep Order.qty Order.cutTo n xs) (submitOrder b o).2
        (submitOrder b' o).2 := by
  have htotal := h.total_eligible o
  have hrefused : Refused b' o ↔ Refused b o := by
    rw [refused_iff h.exact.wf hp, refused_iff h.exact'.wf (htotal ▸ hp), htotal]
  have hrests : Rests b' o ↔ Rests b o := by rw [Rests, Rests, htotal]
  have hrem : remainder b' o = remainder b o := by rw [remainder, remainder, htotal]
  have hfills : TradesSliced i I (fills b o) (fills b' o) := by
    rw [fills, fills, h.eligible]
    refine tradesSliced_along hi ?_ (h.slices_of_eligible o) h.ids o.qty
    have hids := ((restingAll_eligible h.exact.wf o).map Order.id).nodup_iff.mp h.exact.tracks.nodup
    rw [List.map_append] at hids
    exact (List.nodup_append.mp hids).1
  obtain ⟨n, hmatched⟩ := h.matched o
  rw [submitOrder_eq h.exact.wf, submitOrder_eq h.exact'.wf]
  simp only [hrefused, hrests, hrem]
  split_ifs with hr hrest
  · exact ⟨.same (by simp), h.untouched⟩
  · refine ⟨hfills, n, hmatched.addOrder (fun hmem => ho ?_) hi hI⟩
    exact mem_restingIds_matched h.exact.wf hmem
  · exact ⟨hfills, n, hmatched⟩

/-! ### Calls of other ids -/

/-- An order of another id rests in both books or in none. -/
lemma mem_restingIds_iff (h : Sliced i I xs b b') {j : UInt64} (hi : j ≠ i) (hI : j ∉ I) :
    j ∈ b'.restingIds ↔ j ∈ b.restingIds := by
  refine ⟨fun hj => (h.mem_restingIds hj).resolve_left hI, fun hj => ?_⟩
  obtain ⟨s, y, hy, rfl⟩ := OrderBook.mem_restingIds.mp hj
  refine OrderBook.mem_restingIds.mpr ⟨s, y, ?_, rfl⟩
  rw [h.resting]
  exact List.mem_flatMap.mpr ⟨y, hy, by simp [hi]⟩

/-- Both books find the same order for another id. -/
lemma found_eq (h : Sliced i I xs b b') {b₁ b₁' : OrderBook P} {s s' : Side} {o o' : Order P}
    {bef aft bef' aft' : List (Order P)} (hr : Removed b b₁ s o bef aft)
    (hr' : Removed b' b₁' s' o' bef' aft') (hid : o'.id = o.id) (hI : o.id ∉ I) :
    s' = s ∧ o' = o := by
  have hmem := hr'.mem_resting
  rw [h.resting] at hmem
  have ho' : o' ∈ b.resting s' :=
    (mem_of_mem_sliced hmem).resolve_right fun hxs => hI (hid ▸ h.ids o' hxs)
  have heq : o' = o := h.exact.eq_of_id_eq (OrderBook.mem_restingAll.mpr ⟨s', ho'⟩)
    (OrderBook.mem_restingAll.mpr ⟨s, hr.mem_resting⟩) hid
  refine ⟨?_, heq⟩
  rw [← (h.exact.wf s').side_of_mem ho', heq, (h.exact.wf s).side_of_mem hr.mem_resting]

lemma removed (h : Sliced i I xs b b') {b₁ b₁' : OrderBook P} {s : Side}
    {bef aft bef' aft' : List (Order P)} (hr : Removed b b₁ s o bef aft)
    (hr' : Removed b' b₁' s o bef' aft') (hi : o.id ≠ i) (hI : o.id ∉ I) :
    Sliced i I xs b₁ b₁' := by
  refine ⟨(h.exact.removed hr).1, (h.exact'.removed hr').1, fun t => ?_, fun y hy => ?_, h.ids⟩
  · rw [hr.filter h.exact, hr'.filter h.exact', h.resting]
    refine filter_sliced fun y _ hid z hz => ?_
    have hz : z.id ≠ o.id := fun heq => hI (heq ▸ h.ids z hz)
    have hy : y.id ≠ o.id := fun heq => hi (heq ▸ hid)
    simp [hz, hy]
  · exact h.slices y (hr.restingAll.mem_iff.mpr (List.mem_cons_of_mem o hy))

lemma rewritten (h : Sliced i I xs b b') {b₁ b₁' b₂ b₂' : OrderBook P} {s : Side} {q : UInt64}
    {bef aft bef' aft' : List (Order P)} (hr : Removed b b₁ s o bef aft)
    (hr' : Removed b' b₁' s o bef' aft') (hw : Rewritten b b₂ s o q bef aft)
    (hw' : Rewritten b' b₂' s o q bef' aft') (hi : o.id ≠ i) (hI : o.id ∉ I) :
    Sliced i I xs b₂ b₂' := by
  refine ⟨h.exact.rewritten hr hw, h.exact'.rewritten hr' hw', fun t => ?_, fun y hy hid => ?_,
    h.ids⟩
  · rw [hw.map h.exact hr, hw'.map h.exact' hr', h.resting]
    refine map_sliced (fun y => ?_) fun z hz =>
      if_neg fun heq : z.id = o.id => hI (heq ▸ h.ids z hz)
    split_ifs <;> rfl
  · rcases List.mem_cons.mp ((hw.restingAll hr).mem_iff.mp hy) with rfl | hy
    · exact absurd hid hi
    · exact h.slices y (hr.restingAll.mem_iff.mpr (List.mem_cons_of_mem o hy)) hid

/-- An order of another id that the one book can cancel, the other can too. -/
lemma cancelled (h : Sliced i I xs b b') {b₁ : OrderBook P} {s : Side} {bef aft : List (Order P)}
    (hr : Removed b b₁ s o bef aft) (hi : o.id ≠ i) (hI : o.id ∉ I) :
    ∃ bef' aft', (Leviathan.cancelOrder b' o.id).1 = true
      ∧ Removed b' (Leviathan.cancelOrder b' o.id).2 s o bef' aft' := by
  rcases h.exact'.cancelOrder_spec o.id with ⟨hno, -⟩ | ⟨s', o', bef', aft', hid, hc', hr'⟩
  · have hmem := OrderBook.mem_restingIds.mpr ⟨s, o, hr.mem_resting, rfl⟩
    exact absurd ((h.mem_restingIds_iff hi hI).mpr hmem) hno
  · obtain ⟨rfl, rfl⟩ := h.found_eq hr hr' hid hI
    exact ⟨bef', aft', hc', hr'⟩

lemma cancelOrder (h : Sliced i I xs b b') {j : UInt64} (hi : j ≠ i) (hI : j ∉ I) :
    (cancelOrder b' j).1 = (cancelOrder b j).1
      ∧ Sliced i I xs (cancelOrder b j).2 (cancelOrder b' j).2 := by
  rcases h.exact.cancelOrder_spec j with ⟨hno, heq⟩ | ⟨s, o, bef, aft, rfl, hc, hr⟩
  · rcases h.exact'.cancelOrder_spec j with ⟨-, heq'⟩ | ⟨s, o, bef, aft, rfl, -, hr'⟩
    · rw [heq, heq']
      exact ⟨rfl, h⟩
    · have hmem := OrderBook.mem_restingIds.mpr ⟨s, o, hr'.mem_resting, rfl⟩
      exact absurd ((h.mem_restingIds_iff hi hI).mp hmem) hno
  · obtain ⟨bef', aft', hc', hr'⟩ := h.cancelled hr hi hI
    exact ⟨hc'.trans hc.symm, h.removed hr hr' hi hI⟩

/-- **Modifying** another order in both books. -/
lemma modifyOrder (h : Sliced i I xs b b') (counter : UInt64) {j : UInt64} (p : P) (q : UInt64)
    (hi : j ≠ i) (hI : j ∉ I) :
    (modifyOrder b' counter j p q).1.isSome = (modifyOrder b counter j p q).1.isSome
      ∧ TradesSliced i I ((modifyOrder b counter j p q).1.getD [])
        ((modifyOrder b' counter j p q).1.getD [])
      ∧ ∃ n, Sliced i I (keep Order.qty Order.cutTo n xs) (modifyOrder b counter j p q).2.1
        (modifyOrder b' counter j p q).2.1 := by
  have hnil : TradesSliced i I ([] : List (Trade P)) [] := .same (by simp)
  rcases modifyOrder_cases h.exact.wf counter j p q with
    ⟨heq, hno⟩ | ⟨s, o, bef, aft, rfl, hc, hr, hcase⟩
  · rcases modifyOrder_cases h.exact'.wf counter j p q with
      ⟨heq', -⟩ | ⟨s, o, bef, aft, rfl, -, hr', -⟩
    · rw [heq, heq']
      exact ⟨rfl, hnil, h.untouched⟩
    · have hmem := OrderBook.mem_restingIds.mpr ⟨s, o, hr'.mem_resting, rfl⟩
      exact absurd ((h.mem_restingIds_iff hi hI).mp hmem) (h.exact.not_mem_restingIds hno)
  · obtain ⟨bef', aft', hc', hr'⟩ := h.cancelled hr hi hI
    have hrem := h.removed hr hr' hi hI
    -- both books hold the order that is modified, so both take the same of the three ways
    rcases hcase with ⟨hq, heq⟩ | ⟨hq, hp, hle, b₂, heq, hw⟩ | ⟨hq, hno, heq⟩ <;>
      rcases hr'.modifyOrder_cases h.exact'.wf hc' counter p q with
        ⟨hq', heq'⟩ | ⟨hq', hp', hle', b₂', heq', hw'⟩ | ⟨hq', hno', heq'⟩
    · rw [heq, heq']
      exact ⟨rfl, hnil, hrem.untouched⟩
    · exact absurd hq hq'
    · exact absurd hq hq'
    · exact absurd hq' hq
    · rw [heq, heq']
      exact ⟨rfl, hnil, (h.rewritten hr hr' hw hw' hi hI).untouched⟩
    · exact absurd ⟨hp, hle⟩ hno'
    · exact absurd hq' hq
    · exact absurd ⟨hp', hle'⟩ hno
    · rw [heq, heq']
      obtain ⟨htrades, hbooks⟩ := hrem.submitOrder (o := ⟨o.id, s, p, q, counter, .limit⟩)
        (h.exact.removed hr).2 hi hI fun ht => by cases ht
      exact ⟨rfl, htrades, hbooks⟩

end Sliced

/-- What a method returns, without its trades. -/
def Response.outcome : Response P → Response P
  | .trades _ => .trades []
  | .modified r => .modified (r.map fun _ => [])
  | r => r

/-- **One call** that carries no id of the order or its slices. -/
lemma Sliced.call {i : UInt64} {I : List UInt64} {xs : List (Order P)} {b b' : OrderBook P}
    (h : Sliced i I xs b b') {c : Call P} (hi : ¬ c.Passes i) (hI : ∀ j ∈ I, ¬ c.Passes j)
    (hfresh : FreshIds b c) (hp : PreviewExact b c) :
    ((call b' c).1.outcome = (call b c).1.outcome
        ∧ TradesSliced i I (call b c).1.tradeList (call b' c).1.tradeList)
      ∧ ∃ n, Sliced i I (keep Order.qty Order.cutTo n xs) (call b c).2 (call b' c).2 := by
  have hnil : TradesSliced i I ([] : List (Trade P)) [] := .same (by simp)
  cases c with
  | addOrder o =>
      exact ⟨⟨rfl, hnil⟩, (h.addOrder hfresh hi fun hmem => hI _ hmem rfl).untouched⟩
  | submitOrder o =>
      obtain ⟨htrades, hbooks⟩ := h.submitOrder hfresh hi (fun hmem => hI _ hmem rfl) hp
      exact ⟨⟨rfl, htrades⟩, hbooks⟩
  | cancelOrder j =>
      obtain ⟨hok, hbooks⟩ := h.cancelOrder hi fun hmem => hI _ hmem rfl
      exact ⟨⟨congrArg Response.cancelled hok, hnil⟩, hbooks.untouched⟩
  | modifyOrder counter j p q =>
      obtain ⟨hsome, htrades, hbooks⟩ := h.modifyOrder counter p q hi fun hmem => hI _ hmem rfl
      refine ⟨⟨?_, ?_⟩, hbooks⟩
      · simp only [Leviathan.call, Response.outcome]
        cases hb : (Leviathan.modifyOrder b counter j p q).1 <;>
          cases hb' : (Leviathan.modifyOrder b' counter j p q).1 <;> simp [hb, hb'] at hsome ⊢
      · rwa [tradeList_modifyOrder, tradeList_modifyOrder]

/-- **Calls** that carry no id of the order or its slices: what they take of the slices, one after
the other, is taken of them at once. -/
lemma Sliced.run {i : UInt64} {I : List UInt64} {xs : List (Order P)} {b b' : OrderBook P}
    (h : Sliced i I xs b b') {cs : List (Call P)}
    (hcs : ∀ c ∈ cs, ¬ c.Passes i ∧ ∀ j ∈ I, ¬ c.Passes j)
    (hg : Machine.Guarded Leviathan.call (fun b c => FreshIds b c ∧ PreviewExact b c) b cs) :
    List.Forall₂ (fun r r' : Response P => r'.outcome = r.outcome
        ∧ TradesSliced i I r.tradeList r'.tradeList)
        (Machine.answers Leviathan.call b cs) (Machine.answers Leviathan.call b' cs)
      ∧ ∃ n, Sliced i I (keep Order.qty Order.cutTo n xs) (Machine.final Leviathan.call b cs)
        (Machine.final Leviathan.call b' cs) := by
  induction cs generalizing xs b b' with
  | nil => exact ⟨.nil, h.untouched⟩
  | cons c cs ih =>
      obtain ⟨⟨hi, hI⟩, hcs⟩ := List.forall_mem_cons.mp hcs
      obtain ⟨hresponse, n, hbooks⟩ := h.call hi hI hg.1.1 hg.1.2
      obtain ⟨hresponses, m, hfinal⟩ := ih hbooks hcs hg.2
      rw [keep_keep Order.qty Order.cutTo (fun _ _ => Order.cutTo_qty)
        fun _ _ _ => rfl] at hfinal
      exact ⟨.cons hresponse hresponses, n + m, hfinal⟩

/-- Orders of one side and price, added one after the other, stand together. -/
lemma added_slices {b : OrderBook P} (h : IndexExact b) {x : Order P} {xs : List (Order P)}
    (hside : ∀ z ∈ xs, z.side = x.side) (hprice : ∀ z ∈ xs, z.price = x.price)
    (hids : (b.restingIds ++ xs.map Order.id).Nodup) {pre post : List (Order P)}
    (hb : b.resting x.side = pre ++ post) (hpre : ∀ y ∈ pre, ¬ OrderBefore x.side x y)
    (hpost : ∀ y ∈ post.head?, OrderBefore x.side x y) :
    IndexExact (xs.foldl addOrder b) ∧ (xs.foldl addOrder b).resting x.side = pre ++ (xs ++ post)
      ∧ (xs.foldl addOrder b).resting x.side.opposite = b.resting x.side.opposite := by
  induction xs generalizing b pre with
  | nil => exact ⟨h, hb, rfl⟩
  | cons z xs ih =>
      obtain ⟨hzs, hside⟩ := List.forall_mem_cons.mp hside
      obtain ⟨hzp, hprice⟩ := List.forall_mem_cons.mp hprice
      have hperm : (z.id :: (b.restingIds ++ xs.map Order.id)).Nodup :=
        List.perm_middle.nodup_iff.mp hids
      have hfree : z.id ∉ b.restingIds := fun hmem =>
        (List.nodup_cons.mp hperm).1 (List.mem_append_left _ hmem)
      have hids' : ((addOrder b z).restingIds ++ xs.map Order.id).Nodup :=
        (((restingAll_addOrder h.wf z).map Order.id).append_right _).nodup_iff.mpr hperm
      have hsame : ∀ y, OrderBefore x.side z y ↔ OrderBefore x.side x y := fun y => by
        rw [OrderBefore, hzp, OrderBefore]
      have hnext : (addOrder b z).resting x.side = (pre ++ [z]) ++ post := by
        have hself := resting_addOrder_self h.wf z
        rw [hzs] at hself
        rw [hself, hb, orderedInsert_behind fun y hy hy' => hpre y hy ((hsame y).mp hy'),
          List.append_assoc, List.singleton_append]
        congr 1
        cases post with
        | nil => rfl
        | cons y post =>
            rw [List.orderedInsert_cons, if_pos ((hsame y).mpr (hpost y rfl))]
      have hother : (addOrder b z).resting x.side.opposite = b.resting x.side.opposite :=
        OrderBook.resting_congr (side_addOrder_of_ne b (hzs ▸ x.side.opposite_ne))
      have hpre' : ∀ y ∈ pre ++ [z], ¬ OrderBefore x.side x y := fun y hy => by
        rcases List.mem_append.mp hy with hy | hy
        · exact hpre y hy
        · rw [List.mem_singleton.mp hy, OrderBefore, hzp]
          exact irrefl_of x.side.before x.price
      obtain ⟨hex, hown, hopp⟩ := ih (h.addOrder hfree) hside hprice hids' hnext hpre'
      refine ⟨hex, hown.trans ?_, hopp.trans hother⟩
      simp

/-- The order added, and its slices added. -/
lemma sliced_added {b : OrderBook P} (h : IndexExact b) {x : Order P} {xs : List (Order P)}
    (hx : Slices x xs) (hfree : x.id ∉ b.restingIds)
    (hids : (b.restingIds ++ xs.map Order.id).Nodup) :
    Sliced x.id (xs.map Order.id) xs (addOrder b x) (xs.foldl addOrder b) := by
  have hno : ∀ s, x.id ∉ (b.resting s).map Order.id := fun s hmem => hfree <| by
    obtain ⟨y, hy, hid⟩ := List.mem_map.mp hmem
    exact OrderBook.mem_restingIds.mpr ⟨s, y, hy, hid⟩
  have hinsert : (addOrder b x).resting x.side
      = (b.resting x.side).takeWhile (fun y => ¬ OrderBefore x.side x y)
        ++ x :: (b.resting x.side).dropWhile fun y => ¬ OrderBefore x.side x y := by
    rw [resting_addOrder_self h.wf, List.orderedInsert_eq_take_drop]
  have hsplit := List.takeWhile_append_dropWhile (p := fun y => decide (¬ OrderBefore x.side x y))
    (l := b.resting x.side)
  obtain ⟨hex, hown, hother⟩ := added_slices h hx.side hx.price hids hsplit.symm
    (fun y hy => by simpa using List.mem_takeWhile_imp hy)
    (fun y hy => by
      have hhead := List.head?_dropWhile_not (fun y => decide (¬ OrderBefore x.side x y))
        (b.resting x.side)
      rw [Option.mem_def.mp hy] at hhead
      simpa using hhead)
  refine ⟨h.addOrder hfree, hex, forall_side x.side ?_ ?_, fun y hy hid => ?_,
    fun z hz => List.mem_map_of_mem hz⟩
  · have hall := hno x.side
    rw [← hsplit, List.map_append, List.mem_append, not_or] at hall
    rw [hown, hinsert, sliced_append, sliced_cons_self rfl, sliced_of_notMem hall.1,
      sliced_of_notMem hall.2]
  · rw [hother, OrderBook.resting_congr (side_addOrder_of_ne b x.side.opposite_ne),
      sliced_of_notMem (hno _)]
  · rcases List.mem_cons.mp ((restingAll_addOrder h.wf x).mem_iff.mp hy) with rfl | hy
    · exact hx
    · exact absurd (List.mem_map.mpr ⟨y, hy, hid⟩) hfree

/-- The prices of the two books are the same. -/
lemma Sliced.prices_eq {i : UInt64} {I : List UInt64} {xs : List (Order P)} {b b' : OrderBook P}
    (h : Sliced i I xs b b') (s : Side) :
    {p | ∃ o ∈ b'.resting s, o.price = p} = {p | ∃ o ∈ b.resting s, o.price = p} := by
  refine Set.ext fun p => ⟨?_, ?_⟩
  · rintro ⟨z, hz, rfl⟩
    rw [h.resting] at hz
    obtain ⟨y, hy, hzy⟩ := List.mem_flatMap.mp hz
    split_ifs at hzy with hid
    · exact ⟨y, hy, ((h.slices_of_mem y hy hid).price z hzy).symm⟩
    · exact ⟨y, hy, by rw [List.mem_singleton.mp hzy]⟩
  · rintro ⟨y, hy, rfl⟩
    rw [h.resting]
    by_cases hid : y.id = i
    · have hslices := h.slices_of_mem y hy hid
      obtain ⟨z, zs, rfl⟩ := List.exists_cons_of_ne_nil hslices.ne_nil
      refine ⟨z, List.mem_flatMap.mpr ⟨y, hy, ?_⟩, hslices.price z List.mem_cons_self⟩
      rw [if_pos hid]
      exact List.mem_cons_self
    · exact ⟨y, List.mem_flatMap.mpr ⟨y, hy, by simp [hid]⟩, rfl⟩

/-- **An order in slices.**  After any run that reuses no resting id, let an order be added, or in
its place orders of its side and price, each of positive quantity, that hold together what it holds.
Any further calls that carry none of these ids, reuse no resting id and preview less than `2^64`
return the same from both books, but that the trade of the order with another may stand as trades
of its slices, at its price and for its quantity together; the best prices stay the same, and in the
queues the order, as long as it rests, has in its place what a demand leaves of the slices, some
with their ids that hold together what is left of it. -/
theorem sliced_maker (cs ds : List (Call P)) (x : Order P) (xs : List (Order P))
    (hx : Slices x xs) (hcs : Machine.Guarded call FreshIds OrderBook.empty cs)
    (hfree : x.id ∉ (after cs).restingIds)
    (hids : ((after cs).restingIds ++ xs.map Order.id).Nodup)
    (hds : ∀ c ∈ ds, ¬ c.Passes x.id ∧ ∀ j ∈ xs.map Order.id, ¬ c.Passes j)
    (hg : Machine.Guarded call (fun b c => FreshIds b c ∧ PreviewExact b c)
      (addOrder (after cs) x) ds) :
    let whole := addOrder (after cs) x
    let parts := xs.foldl addOrder (after cs)
    List.Forall₂ (fun r r' : Response P => r'.outcome = r.outcome
        ∧ TradesSliced x.id (xs.map Order.id) r.tradeList r'.tradeList)
        (Machine.answers call whole ds) (Machine.answers call parts ds)
      ∧ bestBid (Machine.final call parts ds) = bestBid (Machine.final call whole ds)
      ∧ bestAsk (Machine.final call parts ds) = bestAsk (Machine.final call whole ds)
      ∧ ∃ n, let ys := keep Order.qty Order.cutTo n xs
        (∀ s, (Machine.final call parts ds).resting s
          = sliced x.id ys ((Machine.final call whole ds).resting s))
        ∧ (∀ z ∈ ys, z.id ∈ xs.map Order.id)
        ∧ ∀ y ∈ (Machine.final call whole ds).restingAll, y.id = x.id → Slices y ys := by
  intro whole parts
  have hstart : Sliced x.id (xs.map Order.id) xs whole parts :=
    sliced_added (indexExact_after hcs) hx hfree hids
  obtain ⟨hresponses, n, hbooks⟩ := hstart.run hds hg
  refine ⟨hresponses, ?_, ?_, n, hbooks.resting, hbooks.ids, hbooks.slices⟩
  · refine Option.ext fun p => ?_
    rw [(bestBid_spec hbooks.exact'.wf).1 p, (bestBid_spec hbooks.exact.wf).1 p,
      hbooks.prices_eq]
  · refine Option.ext fun p => ?_
    rw [(bestAsk_spec hbooks.exact'.wf).1 p, (bestAsk_spec hbooks.exact.wf).1 p,
      hbooks.prices_eq]

/-- An ask of 6 at 101, behind the one of 5 there, as one of 2 and one of 4: a buy of 9 takes 4 of
it, the first slice and half of the second. -/
theorem sliced_maker_sample :
    let whole := addOrder (after sampleCalls) ⟨7, .sell, 101, 6, 5, .limit⟩
    let parts := addOrder (addOrder (after sampleCalls) ⟨7, .sell, 101, 2, 5, .limit⟩)
      ⟨8, .sell, 101, 4, 5, .limit⟩
    let c : Call ℤ := .submitOrder ⟨9, .buy, 102, 9, 6, .fok⟩
    (call whole c).1.tradeList
        = [⟨9, 1, 101, 5, 6⟩, ⟨9, 2, 101, 0, 6⟩, ⟨9, 7, 101, 4, 6⟩]
      ∧ (call parts c).1.tradeList
        = [⟨9, 1, 101, 5, 6⟩, ⟨9, 2, 101, 0, 6⟩, ⟨9, 7, 101, 2, 6⟩, ⟨9, 8, 101, 2, 6⟩]
      ∧ bestAsk (call parts c).2 = bestAsk (call whole c).2 := by
  intro whole parts c
  have h := sliced_maker sampleCalls [c] ⟨7, .sell, 101, 6, 5, .limit⟩
    [⟨7, .sell, 101, 2, 5, .limit⟩, ⟨8, .sell, 101, 4, 5, .limit⟩]
    ⟨by decide, by decide, by decide, rfl, by simp⟩ (by decide) (by decide) (by decide)
    (by simp [c, Call.Passes]) (by decide)
  exact ⟨by decide, by decide, h.2.2.1⟩

end Leviathan
