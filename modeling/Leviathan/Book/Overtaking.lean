import Leviathan.Book.Ledger
import Leviathan.Book.Withdrawn

/-!
No overtaking.

Two orders rest on one side, the first in front of the second: at a better price, or at the same
price and earlier in the queue.  `no_overtaking`: whatever is called afterwards, with neither of
their ids, the second is not traded until all of the first has been.

* `trace` are the two ids among those of a list of orders.  A call that carries neither never adds
  to the trace of a side (`trace_call`), so they stay in their order as long as both rest.
* `front_first`: where a trade of one call names the second, the trades in front of it use up the
  first.
-/

namespace Leviathan

open Allotment

variable {P : Type*} {i j : UInt64}

/-- The ids `i` and `j` among those of a list of orders, in its order. -/
def trace (i j : UInt64) (l : List (Order P)) : List UInt64 :=
  (l.map Order.id).filter fun k => k = i ∨ k = j

lemma trace_append (l l' : List (Order P)) : trace i j (l ++ l') = trace i j l ++ trace i j l' := by
  rw [trace, List.map_append, List.filter_append, trace, trace]

lemma trace_cons_of_ne {o : Order P} (hi : o.id ≠ i) (hj : o.id ≠ j) (l : List (Order P)) :
    trace i j (o :: l) = trace i j l := by
  simp [trace, hi, hj]

lemma trace_congr {l l' : List (Order P)} (h : l.map Order.id = l'.map Order.id) :
    trace i j l = trace i j l' := by
  rw [trace, h, trace]

/-- An order of another id stands anywhere. -/
lemma trace_middle {o : Order P} (hi : o.id ≠ i) (hj : o.id ≠ j) (l l' : List (Order P)) :
    trace i j (l ++ o :: l') = trace i j (l ++ l') := by
  rw [trace_append, trace_cons_of_ne hi hj, trace_append]

/-! ### What calls of other ids do -/

variable {b : OrderBook P}

/-- The side keeps the two ids in their order, or loses some. -/
def TraceLe (i j : UInt64) (b' b : OrderBook P) : Prop :=
  ∀ s, (trace i j (b'.resting s)).Sublist (trace i j (b.resting s))

lemma TraceLe.trans {b b' b'' : OrderBook P} (h : TraceLe i j b'' b') (h' : TraceLe i j b' b) :
    TraceLe i j b'' b := fun s => (h s).trans (h' s)

lemma TraceLe.of_sides {b' : OrderBook P} {s : Side}
    (h : (trace i j (b'.resting s)).Sublist (trace i j (b.resting s)))
    (hother : b'.side s.opposite = b.side s.opposite) : TraceLe i j b' b := by
  intro s'
  by_cases hs : s' = s
  · rwa [hs]
  · obtain rfl : s' = s.opposite := by cases s <;> cases s' <;> first | rfl | exact absurd rfl hs
    rw [OrderBook.resting_congr hother]

variable [LinearOrder P]

lemma trace_addOrder (h : BookWF b) {o : Order P} (hi : o.id ≠ i) (hj : o.id ≠ j) :
    TraceLe i j (addOrder b o) b := by
  refine TraceLe.of_sides (s := o.side) ?_ (side_addOrder_of_ne b o.side.opposite_ne)
  rw [resting_addOrder_self h, List.orderedInsert_eq_take_drop, trace_middle hi hj,
    List.takeWhile_append_dropWhile]

lemma trace_removed {b' : OrderBook P} {s : Side} {o : Order P} {bef aft : List (Order P)}
    (hr : Removed b b' s o bef aft) (hi : o.id ≠ i) (hj : o.id ≠ j) : TraceLe i j b' b := by
  refine TraceLe.of_sides (s := s) ?_ hr.other
  rw [hr.resting, hr.resting', trace_middle hi hj]

lemma trace_rewritten {b' b'' : OrderBook P} {s : Side} {o : Order P} {q : UInt64}
    {bef aft : List (Order P)} (hr : Removed b b' s o bef aft)
    (hw : Rewritten b b'' s o q bef aft) : TraceLe i j b'' b := by
  refine TraceLe.of_sides (s := s) ?_ hw.other
  have hids : (bef ++ o.setQuantity q :: aft).map Order.id = (bef ++ o :: aft).map Order.id := by
    simp
  rw [hr.resting, hw.resting', trace_congr hids]

lemma trace_matched (h : BookWF b) (o : Order P) : TraceLe i j (matched b o) b := by
  have hown : (matched b o).side o.side.opposite.opposite = b.side o.side.opposite.opposite := by
    have hside := side_matched b o
    cases hs : o.side <;> rwa [hs] at hside
  refine TraceLe.of_sides (s := o.side.opposite) ?_ hown
  rw [resting_matched_opposite h, eligible_append_ineligible h, trace_append, trace_append,
    trace_congr (map_id_of_map_entry (map_entry_keep o.qty (eligible b o)))]
  refine List.Sublist.append ?_ (List.Sublist.refl _)
  exact ((List.drop_sublist _ _).map Order.id).filter _

lemma trace_submitOrder (h : BookWF b) {o : Order P} (hi : o.id ≠ i) (hj : o.id ≠ j) :
    TraceLe i j (submitOrder b o).2 b := by
  rw [submitOrder_eq h]
  split_ifs
  · exact fun s => List.Sublist.refl _
  · exact (trace_addOrder (o := remainder b o) (wf_matched h o) hi hj).trans (trace_matched h o)
  · exact trace_matched h o

/-- **A call of another id** leaves the two ids in their order. -/
lemma trace_call (h : BookWF b) {c : Call P} (hi : ¬ c.Passes i) (hj : ¬ c.Passes j) :
    TraceLe i j (call b c).2 b := by
  cases c with
  | addOrder o => exact trace_addOrder h hi hj
  | submitOrder o => exact trace_submitOrder h hi hj
  | cancelOrder id =>
      rcases cancelOrder_cases h id with ⟨heq, -⟩ | ⟨s, o, bef, aft, rfl, -, hr⟩
      · show TraceLe i j (cancelOrder b id).2 b
        rw [heq]
        exact fun s => List.Sublist.refl _
      · exact trace_removed hr hi hj
  | modifyOrder counter id p q =>
      show TraceLe i j (modifyOrder b counter id p q).2.1 b
      rcases modifyOrder_cases h counter id p q with ⟨heq, -⟩ | ⟨s, o, bef, aft, rfl, -, hr, hcase⟩
      · rw [heq]
        exact fun s => List.Sublist.refl _
      · rcases hcase with ⟨-, heq⟩ | ⟨-, -, -, b', heq, hw⟩ | ⟨-, -, heq⟩
        · rw [heq]
          exact trace_removed hr hi hj
        · rw [heq]
          exact trace_rewritten hr hw
        · rw [heq]
          exact (trace_submitOrder (o := ⟨o.id, s, p, q, counter, .limit⟩) hr.wf hi hj).trans
            (trace_removed hr hi hj)

/-! ### Trades in front of a trade -/

omit [LinearOrder P] in
lemma tradedQty_append (ts ts' : List (Trade P)) (id : UInt64) :
    tradedQty (ts ++ ts') id = tradedQty ts id + tradedQty ts' id := by
  rw [tradedQty, List.map_append, List.sum_append, tradedQty, tradedQty]

/-- The first id in front of the second on a side, as far as they rest, and neither on the other. -/
def InFront (b : OrderBook P) (s : Side) (i j : UInt64) : Prop :=
  (trace i j (b.resting s)).Sublist [i, j] ∧ trace i j (b.resting s.opposite) = []

omit [LinearOrder P] in
lemma InFront.of_traceLe {b' : OrderBook P} {s : Side} (h : InFront b s i j)
    (hle : TraceLe i j b' b) : InFront b' s i j :=
  ⟨(hle s).trans h.1, List.sublist_nil.mp (h.2 ▸ hle s.opposite)⟩

/-- Behind the second of two ids rests none of them. -/
lemma trace_eq_nil_of_behind (hij : i ≠ j) {l : List UInt64} (h : (j :: l).Sublist [i, j]) :
    l = [] := by
  cases h with
  | cons _ h => exact List.eq_nil_of_length_eq_zero (by simpa using h.length_le)
  | cons_cons _ _ => exact absurd rfl hij

omit [LinearOrder P] in
lemma qtyOf_eq_zero_of_trace {l : List (Order P)} (h : trace i j l = []) : qtyOf l i = 0 := by
  refine qtyOf_eq_zero fun hmem => ?_
  have hi : i ∈ trace i j l := List.mem_filter.mpr ⟨hmem, by simp⟩
  rw [h] at hi
  cases hi

omit [LinearOrder P] in
/-- Trades that use up their makers trade what these hold. -/
lemma tradedQty_full {o : Order P} (hi : o.id ≠ i) (l : List (Order P)) :
    tradedQty (l.map fun m => o.tradeWith m m.qty) i = qtyOf l i := by
  induction l with
  | nil => rfl
  | cons m l ih =>
      have hfull : (o.tradeWith m m.qty).quantity.toNat = m.qty := by
        rw [Order.tradeWith_quantity, UInt64.toNat_ofNat', Nat.mod_eq_of_lt m.qty_lt]
      rw [tradedQty] at ih
      rw [qtyOf_cons, ← ih, tradedQty, List.map_cons, List.map_cons, List.sum_cons, hfull]
      simp only [Order.tradeWith_names, hi, false_or]

/-- **One order**: in front of a trade that names the second, the first is used up. -/
lemma front_submitOrder (h : BookWF b) {s : Side} (hij : i ≠ j) (hf : InFront b s i j) {o : Order P}
    (hi : o.id ≠ i) (hj : o.id ≠ j) {ts ts' : List (Trade P)} {t : Trade P}
    (hts : (submitOrder b o).1 = ts ++ t :: ts') (ht : t.Names j) :
    tradedQty ts i = qtyOf b.restingAll i := by
  have hfills : fills b o = ts ++ t :: ts' := by
    rw [submitOrder_eq h] at hts
    split_ifs at hts
    · simp at hts
    · exact hts
    · exact hts
  obtain ⟨fs, fs', hallot, rfl, hfs'⟩ := List.map_eq_append_iff.mp hfills
  obtain ⟨f, fs'', rfl, rfl, -⟩ := List.map_eq_cons_iff.mp hfs'
  obtain rfl : f.1.id = j := (Order.tradeWith_names.mp ht).resolve_left hj
  obtain ⟨pre, post, hpre, rfl⟩ := exists_of_allot_eq_append Order.qty hallot
  have hresting : b.resting o.side.opposite = pre ++ f.1 :: (post ++ ineligible b o) := by
    rw [eligible_append_ineligible h, hpre, List.append_assoc, List.cons_append]
  have htrace : trace i f.1.id (b.resting o.side.opposite)
      = trace i f.1.id pre ++ f.1.id :: trace i f.1.id (post ++ ineligible b o) := by
    rw [hresting, trace_append, trace, trace, List.map_cons,
      List.filter_cons_of_pos (by simp), trace]
  -- the second rests on the side that is met
  obtain rfl : o.side.opposite = s := by
    by_contra hs
    have hother : o.side.opposite = s.opposite := by
      cases ho : o.side <;> cases s <;> first | rfl | exact absurd (by rw [ho]; rfl) hs
    rw [hother, hf.2] at htrace
    simp at htrace
  have hbehind : trace i f.1.id (post ++ ineligible b o) = [] :=
    trace_eq_nil_of_behind hij ((htrace ▸ List.sublist_append_right _ _).trans hf.1)
  calc tradedQty ((pre.map fun m => (m, m.qty)).map fun f => o.tradeWith f.1 f.2) i
      = qtyOf pre i := by
        rw [List.map_map]
        exact tradedQty_full hi pre
    _ = qtyOf (b.resting o.side.opposite) i + qtyOf (b.resting o.side.opposite.opposite) i := by
        rw [hresting, qtyOf_append, qtyOf_cons, if_neg hij.symm, qtyOf_eq_zero_of_trace hbehind,
          qtyOf_eq_zero_of_trace hf.2]
        omega
    _ = qtyOf b.restingAll i := by
        rw [qtyOf_perm (b.restingAll_perm o.side.opposite), qtyOf_append]

/-- Cancelling another id takes nothing from under an id. -/
lemma qtyOf_removed {b' : OrderBook P} {s : Side} {o : Order P} {bef aft : List (Order P)}
    (hr : Removed b b' s o bef aft) (hi : o.id ≠ i) :
    qtyOf b'.restingAll i = qtyOf b.restingAll i := by
  rw [qtyOf_perm hr.restingAll, qtyOf_cons, if_neg hi, Nat.zero_add]

/-- **A call of another id** trades an id for what it takes from under it. -/
lemma conserved_call (h : BookWF b) {c : Call P} (hi : ¬ c.Passes i) :
    qtyOf (call b c).2.restingAll i + tradedQty (call b c).1.tradeList i
      = qtyOf b.restingAll i := by
  cases c with
  | addOrder o =>
      have hi : o.id ≠ i := hi
      show qtyOf (addOrder b o).restingAll i + 0 = _
      rw [qtyOf_perm (restingAll_addOrder h o), qtyOf_cons, if_neg hi]
      omega
  | submitOrder o => exact conserved_submitOrder h o hi
  | cancelOrder id =>
      show qtyOf (cancelOrder b id).2.restingAll i + 0 = _
      rcases cancelOrder_cases h id with ⟨heq, -⟩ | ⟨s, o, bef, aft, rfl, -, hr⟩
      · rw [heq, Nat.add_zero]
      · exact qtyOf_removed hr hi
  | modifyOrder counter id p q =>
      simp only [call]
      rcases modifyOrder_cases h counter id p q with ⟨heq, -⟩ | ⟨s, o, bef, aft, rfl, -, hr, hcase⟩
      · rw [heq]
        rfl
      · rcases hcase with ⟨-, heq⟩ | ⟨-, -, -, b', heq, hw⟩ | ⟨-, -, heq⟩
        · rw [heq]
          exact qtyOf_removed hr hi
        · rw [heq]
          have hset : (o.setQuantity q).id ≠ i := hi
          show qtyOf b'.restingAll i + 0 = _
          rw [qtyOf_perm (hw.restingAll hr), qtyOf_cons, if_neg hset, qtyOf_removed hr hi]
          omega
        · rw [heq, ← qtyOf_removed hr hi]
          exact conserved_submitOrder hr.wf _ hi

/-- **One call**: in front of a trade that names the second id, the first is used up. -/
lemma front_call (h : BookWF b) {s : Side} (hij : i ≠ j) (hf : InFront b s i j) {c : Call P}
    (hi : ¬ c.Passes i) (hj : ¬ c.Passes j) {ts ts' : List (Trade P)} {t : Trade P}
    (hts : (call b c).1.tradeList = ts ++ t :: ts') (ht : t.Names j) :
    tradedQty ts i = qtyOf b.restingAll i := by
  cases c with
  | addOrder o => simp [call, Response.tradeList] at hts
  | submitOrder o => exact front_submitOrder h hij hf hi hj hts ht
  | cancelOrder id => simp [call, Response.tradeList] at hts
  | modifyOrder counter id p q =>
      simp only [call] at hts
      rcases modifyOrder_cases h counter id p q with ⟨heq, -⟩ | ⟨s, o, bef, aft, rfl, -, hr, hcase⟩
      · simp [heq, Response.tradeList] at hts
      · rcases hcase with ⟨-, heq⟩ | ⟨-, -, -, b', heq, hw⟩ | ⟨-, -, heq⟩
        · simp [heq, Response.tradeList] at hts
        · simp [heq, Response.tradeList] at hts
        · rw [heq] at hts
          rw [← qtyOf_removed hr hi]
          exact front_submitOrder (o := ⟨o.id, _, p, q, counter, .limit⟩) hr.wf hij
            (hf.of_traceLe (trace_removed hr hi hj)) hi hj hts ht

/-! ### Runs -/

/-- **A run** of calls of other ids: in front of a trade that names the second id, the first is used
up. -/
lemma front_run {b : OrderBook P} (h : BookWF b) {s : Side} (hij : i ≠ j) (hf : InFront b s i j)
    {cs : List (Call P)} (hcs : ∀ c ∈ cs, ¬ c.Passes i ∧ ¬ c.Passes j) {ts ts' : List (Trade P)}
    {t : Trade P}
    (hts : (Machine.answers call b cs).flatMap Response.tradeList = ts ++ t :: ts')
    (ht : t.Names j) : tradedQty ts i = qtyOf b.restingAll i := by
  induction cs generalizing b ts with
  | nil => simp at hts
  | cons c cs ih =>
      obtain ⟨⟨hi, hj⟩, hcs⟩ := List.forall_mem_cons.mp hcs
      rw [Machine.answers_cons, List.flatMap_cons] at hts
      -- the trade is one of this call, or of one behind it
      have hlater : ∀ us, ts = (call b c).1.tradeList ++ us →
          (Machine.answers call (call b c).2 cs).flatMap Response.tradeList = us ++ t :: ts' →
          tradedQty ts i = qtyOf b.restingAll i := by
        rintro us rfl hus
        rw [tradedQty_append, ih (wf_call h c) (hf.of_traceLe (trace_call h hi hj)) hcs hus,
          ← conserved_call h hi, Nat.add_comm]
      obtain ⟨us, hus, hrest⟩ | ⟨us, hus, hrest⟩ := List.append_eq_append_iff.mp hts
      · exact hlater us hus hrest
      · cases us with
        | nil => exact hlater [] (by simpa using hus.symm) (by simpa using hrest.symm)
        | cons u us =>
            obtain ⟨rfl, -⟩ := List.cons.inj hrest
            exact front_call h hij hf hi hj hus ht

omit [LinearOrder P] in
/-- Two orders of a side, among distinct ids. -/
lemma InFront.of_sublist (hids : b.restingIds.Nodup) {s : Side} {x y : Order P}
    (hxy : [x, y].Sublist (b.resting s)) : x.id ≠ y.id ∧ InFront b s x.id y.id := by
  have hperm : b.restingIds.Perm
      ((b.resting s).map Order.id ++ (b.resting s.opposite).map Order.id) := by
    rw [← List.map_append]
    exact (b.restingAll_perm s).map Order.id
  obtain ⟨hside, -, hother⟩ := List.nodup_append.mp (hperm.nodup_iff.mp hids)
  have hsub : [x.id, y.id].Sublist ((b.resting s).map Order.id) := hxy.map Order.id
  have hne : x.id ≠ y.id := by simpa using hsub.nodup hside
  refine ⟨hne, ?_, ?_⟩
  · have htrace : [x.id, y.id].Sublist (trace x.id y.id (b.resting s)) := by
      have h := hsub.filter fun k => decide (k = x.id ∨ k = y.id)
      rwa [List.filter_eq_self.mpr (by simp)] at h
    have hlength : (trace x.id y.id (b.resting s)).length ≤ [x.id, y.id].length := by
      refine ((hside.filter _).subperm fun k hk => ?_).length_le
      simpa using (List.mem_filter.mp hk).2
    rw [htrace.eq_of_length_le hlength]
  · refine List.filter_eq_nil_iff.mpr fun k hk hkij => ?_
    have hmem : k ∈ (b.resting s).map Order.id := by
      obtain rfl | rfl : k = x.id ∨ k = y.id := by simpa using hkij
      · exact hsub.subset (by simp)
      · exact hsub.subset (by simp)
    exact hother k hmem k hk rfl

/-- **No overtaking.**  Take two orders that rest on one side of a reachable book with distinct ids,
the first in front of the second, and any calls that carry neither id.  Wherever a trade of these
calls names the second order, the trades in front of it add up, for the first, to all of its
quantity. -/
theorem no_overtaking (hb : Reachable b) (hids : b.restingIds.Nodup) {s : Side} {x y : Order P}
    (hxy : [x, y].Sublist (b.resting s)) (cs : List (Call P))
    (hcs : ∀ c ∈ cs, ¬ c.Passes x.id ∧ ¬ c.Passes y.id) (ts ts' : List (Trade P)) (t : Trade P)
    (hts : (Machine.answers call b cs).flatMap Response.tradeList = ts ++ t :: ts')
    (ht : t.Names y.id) : tradedQty ts x.id = x.qty := by
  obtain ⟨hne, hf⟩ := InFront.of_sublist hids hxy
  have hx : x ∈ b.restingAll :=
    OrderBook.mem_restingAll.mpr ⟨s, hxy.subset List.mem_cons_self⟩
  calc tradedQty ts x.id = qtyOf b.restingAll x.id := front_run hb.wf hne hf hcs hts ht
    _ = x.qty := qtyOf_of_mem hids hx

/-- The ask at 102 is reached by the second buy, behind both trades with the ask at 101. -/
theorem no_overtaking_sample :
    let cs : List (Call ℤ) := [.submitOrder ⟨7, .buy, 102, 3, 5, .ioc⟩, .cancelOrder 2,
      .addOrder ⟨8, .sell, 101, 1, 6, .limit⟩, .submitOrder ⟨9, .buy, 102, 4, 7, .limit⟩]
    let ts := (Machine.answers call (after sampleCalls) cs).flatMap Response.tradeList
    ts.map (fun t => (t.sellOrderId, t.quantity)) = [(1, 3), (1, 2), (8, 1), (3, 1)]
      ∧ tradedQty (ts.take 3) 1 = 5 := by
  intro cs ts
  refine ⟨by decide, ?_⟩
  exact no_overtaking (b := after sampleCalls) (s := .sell) (x := ⟨1, .sell, 101, 5, 0, .limit⟩)
    (y := ⟨3, .sell, 102, 7, 2, .limit⟩) ⟨sampleCalls, rfl⟩ (by decide) (by decide) cs (by decide)
    (ts.take 3) [] ⟨9, 3, 102, 1, 7⟩ (by decide) (by decide)

end Leviathan
