import Leviathan.Book.Index
import Leviathan.Book.Iterations

/-!
Where the fill of at least one unit comes from.

The comment on the termination of `submitOrder` rests on `fill_qty >= 1`, which the loop does not
check: it is a property of what rests in the book.

* `Sized b`: no order rests in `b` without quantity.  `submitOrder` turns an order without
  quantity away and rests no empty remainder, and `modifyOrder` cancels instead of writing a zero,
  so they keep it; `addOrder` takes what it is given.
* `UnitFills cs`: in the run `cs` every trade is of at least one unit, every turn of a matching
  loop makes the incoming quantity smaller, and no order rests without quantity.
* `unitFills_iff`: this holds of exactly the runs whose calls of `addOrder` all carry a quantity.
-/

namespace Leviathan

open Allotment

variable {P : Type*} [LinearOrder P]

/-- The call, on the book `b`, runs the matching loop of the order `o` on the book `b'`. -/
def Call.Submits (b : OrderBook P) : Call P → Order P → OrderBook P → Prop
  | .submitOrder order, o, b' => o = order ∧ b' = b
  | .modifyOrder counter orderId newPrice newQuantity, o, b' =>
      ∃ loc ∈ b.orderIndex.lookup orderId,
        o = ⟨orderId, loc.side, newPrice, newQuantity, counter, .limit⟩
          ∧ b' = (Leviathan.cancelOrder b orderId).2
  | _, _, _ => False

/-- No fill of the run is empty. -/
structure UnitFills (cs : List (Call P)) : Prop where
  trades : ∀ r ∈ responses cs, ∀ t ∈ r.tradeList, 1 ≤ t.quantity
  turns : ∀ n (c : Call P) o b, cs[n]? = some c → c.Submits (after (cs.take n)) o b → ∀ i s s',
    turns o.side.breaks o.side.record (decide (o.type = .market)) i (Matching.start b o) = some s →
      matchStep o.side.breaks o.side.record (decide (o.type = .market)) s = some s' →
        s'.incoming.quantity < s.incoming.quantity
  resting : ∀ n, ∀ o ∈ (after (cs.take n)).restingAll, 1 ≤ o.quantity

/-! ### Books without empty orders -/

/-- No order rests without quantity. -/
def Sized (b : OrderBook P) : Prop := ∀ o ∈ b.restingAll, 0 < o.qty

omit [LinearOrder P] in
lemma one_le_quantity_iff {o : Order P} : 1 ≤ o.quantity ↔ 0 < o.qty := by
  rw [UInt64.le_iff_toNat_le]
  exact Iff.rfl

namespace Sized

variable {b b' b'' : OrderBook P} {s : Side} {o : Order P} {bef aft : List (Order P)}

omit [LinearOrder P] in
lemma perm {l : List (Order P)} (h : b.restingAll.Perm l) :
    Sized b ↔ ∀ o ∈ l, 0 < o.qty := by
  simp only [Sized, h.mem_iff]

lemma addOrder (hwf : BookWF b) (h : Sized b) (ho : 0 < o.qty) : Sized (addOrder b o) :=
  (perm (restingAll_addOrder hwf o)).mpr (List.forall_mem_cons.mpr ⟨ho, h⟩)

lemma eligible (h : Sized b) (o : Order P) : ∀ m ∈ eligible b o, 0 < m.qty := fun m hm =>
  h m (OrderBook.mem_restingAll.mpr ⟨_, List.mem_of_mem_filter hm⟩)

/-- What the loop leaves of an order is more than nothing. -/
lemma matched (hwf : BookWF b) (h : Sized b) (o : Order P) : Sized (matched b o) := by
  have hall := (perm (restingAll_eligible hwf o)).mp h
  refine (perm (restingAll_matched hwf o)).mpr fun x hx => ?_
  rcases List.mem_append.mp hx with hx | hx
  · exact size_pos_of_mem_keep Order.qty Order.cutTo (fun _ _ => Order.cutTo_qty) (h.eligible o) hx
  · exact hall x (List.mem_append_right _ hx)

/-- Every fill of a submitted order is of at least one unit, and what rests of it is more than
nothing. -/
lemma submitOrder (hwf : BookWF b) (h : Sized b) (o : Order P) :
    Sized (submitOrder b o).2 ∧ ∀ t ∈ (submitOrder b o).1, 1 ≤ t.quantity := by
  have hfills : ∀ t ∈ fills b o, 1 ≤ t.quantity := by
    intro t ht
    obtain ⟨f, hf, rfl⟩ := List.mem_map.mp ht
    rw [UInt64.le_iff_toNat_le, toNat_quantity_of_mem_allot hf]
    exact snd_pos_of_mem_allot _ (h.eligible o) hf
  rw [submitOrder_eq hwf]
  split_ifs with hr hrests
  · exact ⟨h, by simp⟩
  · refine ⟨(h.matched hwf o).addOrder (wf_matched hwf o) ?_, hfills⟩
    have hlt := hrests.2
    rw [remainder, Order.cutTo_qty (Nat.sub_le _ _)]
    omega
  · exact ⟨h.matched hwf o, hfills⟩

lemma removed (h : Sized b) (hr : Removed b b' s o bef aft) : Sized b' :=
  (List.forall_mem_cons.mp ((perm hr.restingAll).mp h)).2

lemma rewritten (h : Sized b) (hr : Removed b b' s o bef aft) {q : UInt64} (hq : q ≠ 0)
    (hw : Rewritten b b'' s o q bef aft) : Sized b'' := by
  refine (perm (hw.restingAll hr)).mpr (List.forall_mem_cons.mpr ⟨?_, h.removed hr⟩)
  exact Nat.pos_of_ne_zero (Order.quantity_ne_zero_iff.mp hq)

lemma cancelOrder (hwf : BookWF b) (h : Sized b) (id : UInt64) : Sized (cancelOrder b id).2 := by
  rcases cancelOrder_cases hwf id with ⟨heq, -⟩ | ⟨s, o, bef, aft, -, -, hr⟩
  · rwa [heq]
  · exact h.removed hr

/-- **One call** that adds no order without quantity. -/
lemma call (hwf : BookWF b) (h : Sized b) (c : Call P)
    (hc : ∀ o, c = .addOrder o → 1 ≤ o.quantity) :
    Sized (call b c).2 ∧ ∀ t ∈ (call b c).1.tradeList, 1 ≤ t.quantity := by
  cases c with
  | addOrder o =>
      exact ⟨h.addOrder hwf (one_le_quantity_iff.mp (hc o rfl)),
        by simp [Leviathan.call, Response.tradeList]⟩
  | submitOrder o => exact h.submitOrder hwf o
  | cancelOrder id =>
      exact ⟨h.cancelOrder hwf id, by simp [Leviathan.call, Response.tradeList]⟩
  | modifyOrder counter id p q =>
      rcases modifyOrder_cases hwf counter id p q with
        ⟨heq, -⟩ | ⟨s, o, bef, aft, -, -, hr, hcase⟩
      · simp only [Leviathan.call, heq]
        exact ⟨h, by simp [Response.tradeList]⟩
      · rcases hcase with ⟨-, heq⟩ | ⟨hq, -, -, b', heq, hw⟩ | ⟨-, -, heq⟩
        · simp only [Leviathan.call, heq]
          exact ⟨h.removed hr, by simp [Response.tradeList]⟩
        · simp only [Leviathan.call, heq]
          exact ⟨h.rewritten hr hq hw, by simp [Response.tradeList]⟩
        · simp only [Leviathan.call, heq]
          exact (h.removed hr).submitOrder hr.wf _

/-- **A run** that adds no order without quantity. -/
lemma run {cs : List (Call P)} (hwf : BookWF b) (h : Sized b)
    (hcs : ∀ o, Call.addOrder o ∈ cs → 1 ≤ o.quantity) :
    Sized (Machine.final Leviathan.call b cs)
      ∧ ∀ r ∈ Machine.answers Leviathan.call b cs, ∀ t ∈ r.tradeList, 1 ≤ t.quantity := by
  induction cs generalizing b with
  | nil => exact ⟨h, by simp⟩
  | cons c cs ih =>
      obtain ⟨hnext, hts⟩ := h.call hwf c fun o ho => hcs o (ho ▸ List.mem_cons_self)
      obtain ⟨hfinal, hrest⟩ := ih (wf_call hwf c) hnext fun o ho =>
        hcs o (List.mem_cons_of_mem c ho)
      exact ⟨hfinal, List.forall_mem_cons.mpr ⟨hts, hrest⟩⟩

/-- A turn meets an order of some quantity, and takes it off the incoming one. -/
lemma turn (h : Sized b) {i : ℕ} {t t' : Matching P}
    (ht : turns o.side.breaks o.side.record (decide (o.type = .market)) i (Matching.start b o)
      = some t)
    (ht' : matchStep o.side.breaks o.side.record (decide (o.type = .market)) t = some t') :
    t'.incoming.quantity < t.incoming.quantity := by
  have hleft := (progress_turns record_setQuantity ht).next ht'
  obtain ⟨best, resting, behind, worse, hlv, hq, -, -, hin, -⟩ := matchStep_eq_some ht'
  have hmem : resting ∈ orders t.levels := by
    rw [hlv]
    exact List.mem_cons_self
  have hrest : resting ∈ b.resting o.side.opposite := List.mem_of_mem_drop (hleft ▸ hmem)
  have hpos : 0 < resting.qty := h resting (OrderBook.mem_restingAll.mpr ⟨_, hrest⟩)
  have hqty : t'.incoming.qty = t.incoming.qty - resting.qty := by
    rw [hin, Order.cutTo_qty (Nat.sub_le _ _)]
  rw [UInt64.lt_iff_toNat_lt]
  show t'.incoming.qty < t.incoming.qty
  omega

end Sized

/-! ### The runs without empty fills -/

omit [LinearOrder P] in
lemma Sized.empty : Sized (OrderBook.empty : OrderBook P) := fun _ ho => by cases ho

lemma sized_after {cs : List (Call P)} (hcs : ∀ o, Call.addOrder o ∈ cs → 1 ≤ o.quantity) (n : ℕ) :
    Sized (after (cs.take n)) :=
  (Sized.empty.run BookWF.empty fun o ho => hcs o (List.mem_of_mem_take ho)).1

/-- **When every fill is at least one unit**: exactly when no call of `addOrder` carries an order
without quantity. -/
theorem unitFills_iff (cs : List (Call P)) :
    UnitFills cs ↔ ∀ o, Call.addOrder o ∈ cs → 1 ≤ o.quantity := by
  constructor
  · intro h o ho
    obtain ⟨n, hn⟩ := List.mem_iff_getElem?.mp ho
    have hafter : after (cs.take (n + 1)) = addOrder (after (cs.take n)) o := by
      rw [List.take_add_one, hn, after, Machine.final_append]
      rfl
    have hmem : o ∈ (after (cs.take (n + 1))).restingAll := by
      rw [hafter, (restingAll_addOrder (wf_after _) o).mem_iff]
      exact List.mem_cons_self
    exact h.resting (n + 1) o hmem
  · intro h
    refine ⟨(Sized.empty.run BookWF.empty h).2, ?_, fun n o ho => ?_⟩
    · intro n c o b hn hsub i s s' hs hs'
      have hsized : Sized b := by
        cases c with
        | addOrder order => exact hsub.elim
        | submitOrder order =>
            obtain ⟨-, rfl⟩ := hsub
            exact sized_after h n
        | cancelOrder id => exact hsub.elim
        | modifyOrder counter id p q =>
            obtain ⟨loc, -, -, rfl⟩ := hsub
            exact (sized_after h n).cancelOrder (wf_after _) id
      exact hsized.turn hs hs'
    · exact one_le_quantity_iff.mpr (sized_after h n o ho)

/-- An ask without quantity, and a bid that meets it. -/
def emptyAskCalls : List (Call ℤ) :=
  [.addOrder ⟨1, .sell, 100, 0, 0, .limit⟩, .submitOrder ⟨2, .buy, 100, 5, 1, .ioc⟩]

/-- The ask rests, and the bid trades nothing with it. -/
theorem emptyAsk_not_unitFills :
    ¬ UnitFills emptyAskCalls
      ∧ (after (emptyAskCalls.take 1)).restingAll.map Order.quantity = [0]
      ∧ responses emptyAskCalls = [.done, .trades [⟨2, 1, 100, 0, 1⟩]] := by
  have hresp : responses emptyAskCalls = [.done, .trades [⟨2, 1, 100, 0, 1⟩]] := by decide
  refine ⟨fun h => ?_, by decide, hresp⟩
  have hpos := h.trades (.trades [⟨2, 1, 100, 0, 1⟩]) (by rw [hresp]; simp) ⟨2, 1, 100, 0, 1⟩
    List.mem_cons_self
  exact absurd hpos (by decide)

end Leviathan
