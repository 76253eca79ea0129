import Leviathan.Book.Preview
import Leviathan.Book.Priority

/-!
What a depth query tells of a side.

* `TruthfulDepth b s n depth`: the list is the `n` best levels of the side `s`, best first, each
  with the number of the orders at its price and their exact total.
* `toNat_aggregate`: the total of a level is summed in a 64-bit word, so it is the exact one
  modulo `2^64`.
* `getDepth_truthful_iff`: a query returns a truthful depth exactly when it asks for no more levels
  than `reserve` grants and the levels it asks for hold less than `2^64` each.
-/

namespace Leviathan

open Allotment

variable {P : Type*}

/-- The best price of a side. -/
def OrderBook.best (b : OrderBook P) : Side → Option P
  | .buy => bestBid b
  | .sell => bestAsk b

lemma OrderBook.best_eq (b : OrderBook P) (s : Side) :
    b.best s = (b.side s).head?.map Prod.fst := by
  cases s <;> rfl

/-- The running sum of a level, a word, is the exact sum modulo `2^64`. -/
lemma toNat_aggregate (p : P) (q : List (Order P)) :
    (aggregate p q).aggregateQuantity.toNat = total Order.qty q % 2 ^ 64 := by
  have hfold : ∀ agg : UInt64, (q.foldl (fun agg order => agg + order.quantity) agg).toNat
      = (agg.toNat + total Order.qty q) % 2 ^ 64 := by
    induction q with
    | nil => exact fun agg => (Nat.mod_eq_of_lt agg.toNat_lt).symm
    | cons o q ih =>
        intro agg
        rw [List.foldl_cons, ih, UInt64.toNat_add, Nat.mod_add_mod, total_cons, Nat.add_assoc]
        rfl
  have hzero := hfold 0
  rwa [UInt64.toNat_zero, Nat.zero_add] at hzero

variable [LinearOrder P]

/-- The list is what the side shows of its `n` best levels. -/
structure TruthfulDepth (b : OrderBook P) (s : Side) (n : UInt64) (depth : List (PriceLevel P)) :
    Prop where
  length : depth.length = min n.toNat (b.side s).length
  prices : depth.map PriceLevel.price = ((b.side s).map Prod.fst).take n.toNat
  sorted : depth.Pairwise fun l l' => s.before l.price l'.price
  first : n ≠ 0 → depth.head?.map PriceLevel.price = b.best s
  behind : ∀ o ∈ b.resting s, o.price ∉ depth.map PriceLevel.price →
    ∀ l ∈ depth, s.before l.price o.price
  count : ∀ l ∈ depth, l.orderCount = ((b.resting s).filter fun o => o.price = l.price).length
  quantity : ∀ l ∈ depth, l.aggregateQuantity.toNat
    = total Order.qty ((b.resting s).filter fun o => o.price = l.price)

/-- The queue of a level is what rests at its price. -/
lemma SideWF.filter_level {s : Side} {m : SideMap P} (h : SideWF s m) {l : P × List (Order P)}
    (hl : l ∈ m) : (orders m).filter (fun o => o.price = l.1) = l.2 := by
  rw [h.filter_orders, (OrderedMap.mem_iff_find? h.sorted).mp hl, Option.getD_some]

omit [LinearOrder P] in
lemma getDepth_eq_some {maxSize : ℕ} {b : OrderBook P} {s : Side} {n : UInt64}
    {depth : List (PriceLevel P)} :
    getDepth maxSize b s n = some depth ↔ n.toNat ≤ maxSize
      ∧ depth = ((b.side s).take n.toNat).map fun level => aggregate level.1 level.2 := by
  rw [getDepth_eq, depthFromMap]
  split_ifs with hlt
  · exact iff_of_false (by simp) fun h => absurd h.1 (not_le.mpr hlt)
  · simp [not_lt.mp hlt, eq_comm]

/-- The levels in front, aggregated, are a truthful depth where none of them wraps. -/
lemma truthful_take {b : OrderBook P} (h : BookWF b) (s : Side) (n : UInt64)
    (hlt : ∀ l ∈ (b.side s).take n.toNat, total Order.qty l.2 < 2 ^ 64) :
    TruthfulDepth b s n
      (((b.side s).take n.toNat).map fun level => aggregate level.1 level.2) := by
  have hprices : (((b.side s).take n.toNat).map fun level => aggregate level.1 level.2).map
      PriceLevel.price = ((b.side s).map Prod.fst).take n.toNat := by
    rw [List.map_map, ← List.map_take]
    rfl
  refine ⟨by simp, hprices, ?_, ?_, ?_, ?_, ?_⟩
  · exact List.pairwise_map.mpr ((h s).sorted.sublist (List.take_sublist _ _))
  · intro hn
    have hpos : n.toNat ≠ 0 := fun h0 => hn (UInt64.toNat_inj.mp h0)
    obtain ⟨k, hk⟩ := Nat.exists_eq_succ_of_ne_zero hpos
    rw [OrderBook.best_eq, ← List.head?_map, ← List.head?_map, hprices, hk]
    cases (b.side s).map Prod.fst <;> rfl
  · intro o ho hnot l hl
    obtain ⟨level, hmem, rfl⟩ := List.mem_map.mp hl
    obtain ⟨q, hq, -⟩ := (h s).mem_level ho
    have hsplit := List.take_append_drop n.toNat (b.side s)
    rw [← hsplit] at hq
    rcases List.mem_append.mp hq with hq | hq
    · rw [hprices, ← List.map_take] at hnot
      exact absurd (List.mem_map_of_mem hq) hnot
    · have hsorted := (h s).sorted
      rw [OrderedMap.Sorted, ← hsplit] at hsorted
      exact (List.pairwise_append.mp hsorted).2.2 level hmem _ hq
  · intro l hl
    obtain ⟨level, hmem, rfl⟩ := List.mem_map.mp hl
    exact congrArg List.length ((h s).filter_level (List.mem_of_mem_take hmem)).symm
  · intro l hl
    obtain ⟨level, hmem, rfl⟩ := List.mem_map.mp hl
    rw [toNat_aggregate, Nat.mod_eq_of_lt (hlt level hmem)]
    exact congrArg (total Order.qty) ((h s).filter_level (List.mem_of_mem_take hmem)).symm

/-- **When a depth query tells the truth**: exactly when it asks for no more levels than the largest
reservation that `reserve` grants and each of the levels it asks for holds less than `2^64`. -/
theorem getDepth_truthful_iff {b : OrderBook P} (hb : Reachable b) (maxSize : ℕ) (s : Side)
    (n : UInt64) :
    (∃ depth, getDepth maxSize b s n = some depth ∧ TruthfulDepth b s n depth)
      ↔ n.toNat ≤ maxSize ∧ ∀ l ∈ (b.side s).take n.toNat, total Order.qty l.2 < 2 ^ 64 := by
  constructor
  · rintro ⟨depth, hget, htrue⟩
    obtain ⟨hn, rfl⟩ := getDepth_eq_some.mp hget
    refine ⟨hn, fun l hl => ?_⟩
    have hqty := htrue.quantity _ (List.mem_map_of_mem hl)
    have hlevel : (b.resting s).filter (fun o => o.price = l.1) = l.2 :=
      (hb.wf s).filter_level (List.mem_of_mem_take hl)
    calc total Order.qty l.2
        = total Order.qty ((b.resting s).filter fun o => o.price = l.1) := by rw [hlevel]
      _ = (aggregate l.1 l.2).aggregateQuantity.toNat := hqty.symm
      _ < 2 ^ 64 := UInt64.toNat_lt _
  · rintro ⟨hn, hlt⟩
    exact ⟨_, getDepth_eq_some.mpr ⟨hn, rfl⟩, truthful_take hb.wf s n hlt⟩

/-- All levels of the asks of the sample, asked for by a number that can be reserved. -/
theorem getDepth_truthful_iff_sample :
    ∃ depth, getDepth 384307168202282325 (after sampleCalls) .sell 5 = some depth
      ∧ TruthfulDepth (after sampleCalls) .sell 5 depth :=
  (getDepth_truthful_iff ⟨sampleCalls, rfl⟩ 384307168202282325 .sell 5).mpr
    ⟨by decide, by decide⟩

/-- The two ways to fail, with room for `PTRDIFF_MAX / 24` levels as on a 64-bit machine: asked
for as many levels as there are, by the largest number, the query throws; and the two asks of
`2^63` are shown as a level of nothing. -/
theorem getDepth_untruthful :
    getDepth 384307168202282325 (after sampleCalls) .sell 0xFFFFFFFFFFFFFFFF = none
      ∧ getDepth 384307168202282325 (after wrappingCalls) .sell 1 = some [⟨100, 0, 2⟩]
      ∧ total Order.qty ((after wrappingCalls).resting .sell) = 2 ^ 64 := by
  decide +kernel

end Leviathan
