import Leviathan.Foundations.Ranking
import Leviathan.Book.NonCrossing

/-!
Writing a book down and reading it back.

A book is more than its resting orders: it has levels, queues and an index.  A listing of the
resting orders that keeps the order of every queue, the queues interleaved in any way, is enough:
added to an empty book in the order of the listing they leave the same book, the index included
(`addAll_eq`).  Listings that do not keep every queue leave another book (`restore_iff`).
-/

namespace Leviathan

open Ranking

variable {P : Type*} [LinearOrder P]

/-- The listing has the queue of every price, in its order. -/
def Lists (l : List (Order P)) (b : OrderBook P) : Prop :=
  ∀ s p, (l.filter fun o => o.side = s ∧ o.price = p) = b.queueAt s p

omit [LinearOrder P] in
/-- An index is determined by the orders it tracks. -/
lemma Tracks.unique {ix ix' : OrderIndex P} {l : List (Order P)} (h : Tracks ix l)
    (h' : Tracks ix' l) : ix = ix' := by
  refine Finmap.ext_lookup fun id => Option.ext fun loc => ?_
  rw [h.lookup, h'.lookup]

/-- **A listing rebuilds the book.** -/
lemma addAll_eq {b : OrderBook P} (h : IndexExact b) {l : List (Order P)} (hl : Lists l b) :
    addAll l = b := by
  have hrest : ∀ s, (addAll l).resting s = b.resting s := by
    intro s
    have hsorted : Ranked s.before Order.price ((addAll l).resting s) :=
      (wf_addAll l s).orders_sorted
    refine hsorted.ext (h.wf s).orders_sorted fun p => ?_
    calc ((addAll l).resting s).filter (fun o => o.price = p)
        = (addAll l).queueAt s p := (wf_addAll l s).filter_orders p
      _ = l.filter fun o => o.side = s ∧ o.price = p := queueAt_addAll l s p
      _ = b.queueAt s p := hl s p
      _ = (b.resting s).filter fun o => o.price = p := ((h.wf s).filter_orders p).symm
  have hall : (addAll l).restingAll = b.restingAll :=
    congrArg₂ (· ++ ·) (hrest .buy) (hrest .sell)
  have hids : (l.map Order.id).Nodup := by
    rw [← ((restingAll_addAll l).map Order.id).nodup_iff, hall]
    exact h.tracks.nodup
  refine OrderBook.ext_side (fun s => (wf_addAll l s).ext (h.wf s) (hrest s)) ?_
  exact (hall ▸ (indexExact_addAll hids).tracks).unique h.tracks

/-- What is listed rests. -/
lemma Lists.mem_resting {b : OrderBook P} (h : BookWF b) {l : List (Order P)} (hl : Lists l b)
    {o : Order P} (ho : o ∈ l) : o ∈ b.resting o.side := by
  have hq : o ∈ b.queueAt o.side o.price := by
    rw [← hl]
    simpa using ho
  rw [OrderBook.queueAt, ← (h o.side).filter_orders o.price] at hq
  exact List.mem_of_mem_filter hq

/-- The resting orders, one side after the other, are a listing. -/
lemma lists_restingAll {b : OrderBook P} (h : BookWF b) : Lists b.restingAll b := by
  intro s p
  have hown : (b.resting s).filter (fun o => o.side = s ∧ o.price = p) = b.queueAt s p := by
    rw [OrderBook.queueAt, ← (h s).filter_orders p]
    refine List.filter_congr fun o ho => ?_
    simp [(h s).side_of_mem ho]
  have hother : (b.resting s.opposite).filter (fun o => o.side = s ∧ o.price = p) = [] := by
    refine List.filter_eq_nil_iff.mpr fun o ho => ?_
    simp [(h s.opposite).side_of_mem ho, s.opposite_ne]
  rw [OrderBook.restingAll, List.filter_append]
  cases s with
  | buy => exact (congrArg₂ (· ++ ·) hown hother).trans (List.append_nil _)
  | sell => exact congrArg₂ (· ++ ·) hother hown

/-- The calls that add the orders of a list. -/
lemma final_addOrder (b : OrderBook P) (l : List (Order P)) :
    Machine.final call b (l.map Call.addOrder) = l.foldl addOrder b := by
  induction l generalizing b with
  | nil => rfl
  | cons o l ih => exact ih (addOrder b o)

/-- **Exactly the listings rebuild the book**: the orders of a list, added to an empty book one
after the other, leave the book of a run that reuses no resting id exactly when the list has the
queue of every price in its order.  Such lists exist. -/
theorem restore_iff (cs : List (Call P)) (h : Machine.Guarded call FreshIds OrderBook.empty cs) :
    (∀ l, after (l.map Call.addOrder) = after cs ↔ Lists l (after cs))
      ∧ Lists (after cs).restingAll (after cs) := by
  have hex := indexExact_after h
  refine ⟨fun l => ?_, lists_restingAll hex.wf⟩
  have hadd : after (l.map Call.addOrder) = addAll l := final_addOrder OrderBook.empty l
  rw [hadd]
  refine ⟨fun heq s p => ?_, addAll_eq hex⟩
  rw [← heq, queueAt_addAll]

/-- The sample book is rebuilt from its orders, and not from the same orders back to front. -/
theorem restore_iff_sample :
    after ((after sampleCalls).restingAll.map Call.addOrder) = after sampleCalls
      ∧ after ((after sampleCalls).restingAll.reverse.map Call.addOrder) ≠ after sampleCalls := by
  obtain ⟨hiff, hself⟩ := restore_iff sampleCalls (by decide)
  refine ⟨(hiff _).mpr hself, fun h => ?_⟩
  exact absurd ((hiff _).mp h .sell 101) (by decide)

end Leviathan
