import Leviathan.Book.Index

/-!
The quantity ledger of a run.

* `ledger id cs` is the account of an id, kept from the calls and their responses alone: the
  quantity last assigned to it, the exact sum of the trades that named it since, and whether
  it left the book unfilled by a cancellation or as a discarded remainder.
* `qtyOf l id` is the quantity resting under an id.  An incoming order moves quantity from
  there into trades and loses none (`conserved_submitOrder`, `filled_submitOrder`).
* `Balanced` is what a call keeps between the book and an account, and `quantity_ledger` what
  follows for every run whose calls bring only ids that are not resting at that moment.
-/

namespace Leviathan

open Allotment

variable {P : Type*}

/-- The account of an id. -/
structure Account where
  assigned : ℕ
  traded : ℕ
  excused : Bool
  deriving DecidableEq, Repr

/-- The exact sum of the quantities of the trades that name an id. -/
def tradedQty (ts : List (Trade P)) (id : UInt64) : ℕ :=
  (ts.map fun t => if t.Names id then t.quantity.toNat else 0).sum

/-- An account with more trades. -/
def Account.trade (a : Account) (n : ℕ) : Account := { a with traded := a.traded + n }

/-- One call and its response entered into the account of an id. -/
def Account.enter (id : UInt64) (account : Option Account) (c : Call P) (r : Response P) :
    Option Account :=
  let amount := tradedQty r.tradeList id
  match c with
  | .addOrder o => if o.id = id then some ⟨o.qty, amount, false⟩ else account
  | .submitOrder o =>
      if o.id = id then some ⟨o.qty, amount, decide (o.type ≠ .limit)⟩
      else account.map (·.trade amount)
  | .cancelOrder i =>
      match r with
      | .cancelled true => if i = id then account.map ({ · with excused := true }) else account
      | _ => account
  | .modifyOrder _ i _ q =>
      match r with
      | .modified (some _) =>
          if i = id then some ⟨q.toNat, amount, decide (q = 0)⟩ else account.map (·.trade amount)
      | _ => account

/-- The account of an id after a run. -/
def ledger [LinearOrder P] (id : UInt64) (cs : List (Call P)) : Option Account :=
  (cs.zip (responses cs)).foldl (fun account cr => Account.enter id account cr.1 cr.2) none

/-! ### Resting and traded quantities -/

/-- The quantity resting under an id. -/
def qtyOf (l : List (Order P)) (id : UInt64) : ℕ :=
  total (fun o => if decide (o.id = id) then o.qty else 0) l

lemma qtyOf_cons (o : Order P) (l : List (Order P)) (id : UInt64) :
    qtyOf (o :: l) id = (if o.id = id then o.qty else 0) + qtyOf l id := by
  simp [qtyOf]

lemma qtyOf_append (l l' : List (Order P)) (id : UInt64) :
    qtyOf (l ++ l') id = qtyOf l id + qtyOf l' id :=
  total_append _ _ _

lemma qtyOf_perm {l l' : List (Order P)} (h : l.Perm l') (id : UInt64) :
    qtyOf l id = qtyOf l' id :=
  (h.map _).sum_eq

lemma qtyOf_eq_zero {l : List (Order P)} {id : UInt64} (h : id ∉ l.map Order.id) :
    qtyOf l id = 0 := by
  refine List.sum_eq_zero ?_
  intro n hn
  obtain ⟨o, ho, rfl⟩ := List.mem_map.mp hn
  have hid : o.id ≠ id := fun heq => h (List.mem_map.mpr ⟨o, ho, heq⟩)
  simp [hid]

/-- Among distinct ids the quantity resting under an id is that of its order. -/
lemma qtyOf_of_mem {l : List (Order P)} (hl : (l.map Order.id).Nodup) {o : Order P}
    (ho : o ∈ l) : qtyOf l o.id = o.qty := by
  obtain ⟨l₁, l₂, rfl⟩ := List.append_of_mem ho
  have hperm : (l₁ ++ o :: l₂).Perm (o :: (l₁ ++ l₂)) := List.perm_middle
  have hnd := (hperm.map Order.id).nodup_iff.mp hl
  rw [qtyOf_perm hperm, qtyOf_cons, if_pos rfl, qtyOf_eq_zero (List.nodup_cons.mp hnd).1]
  rfl

@[simp] lemma tradedQty_nil (id : UInt64) : tradedQty ([] : List (Trade P)) id = 0 := rfl

variable [LinearOrder P]

/-- The fills trade the maker `id` for what they take from it, and the taker for all of it. -/
lemma tradedQty_fills (b : OrderBook P) (o : Order P) (id : UInt64) :
    tradedQty (fills b o) id
      = ((allot Order.qty o.qty (eligible b o)).map fun f =>
          if o.id = id ∨ f.1.id = id then f.2 else 0).sum := by
  rw [tradedQty, fills, List.map_map]
  refine congrArg List.sum (List.map_congr_left fun f hf => ?_)
  show (if (o.tradeWith f.1 f.2).Names id then (o.tradeWith f.1 f.2).quantity.toNat else 0) = _
  rw [toNat_quantity_of_mem_allot hf]
  simp only [Order.tradeWith_names]

lemma qtyOf_matched {b : OrderBook P} (h : BookWF b) (o : Order P) {id : UInt64}
    (hid : o.id ≠ id) :
    qtyOf (matched b o).restingAll id + tradedQty (fills b o) id = qtyOf b.restingAll id := by
  have hcons := total_keep_allot Order.qty Order.cutTo (fun _ _ hn => Order.cutTo_qty hn)
    (fun a : Order P => decide (a.id = id)) (fun _ _ => rfl) o.qty (eligible b o)
  have htraded : tradedQty (fills b o) id = ((allot Order.qty o.qty (eligible b o)).map
      fun f => if decide (f.1.id = id) then f.2 else 0).sum := by
    rw [tradedQty_fills]
    simp [hid]
  have hconserved : qtyOf (keep Order.qty Order.cutTo o.qty (eligible b o)) id
      + tradedQty (fills b o) id = qtyOf (eligible b o) id := by
    rw [htraded]
    exact hcons
  calc qtyOf (matched b o).restingAll id + tradedQty (fills b o) id
      = qtyOf (keep Order.qty Order.cutTo o.qty (eligible b o)) id + qtyOf (unmet b o) id
          + tradedQty (fills b o) id := by
        rw [qtyOf_perm (restingAll_matched h o), qtyOf_append]
    _ = qtyOf (eligible b o) id + qtyOf (unmet b o) id := by omega
    _ = qtyOf b.restingAll id := by rw [qtyOf_perm (restingAll_eligible h o), qtyOf_append]

/-- **Conservation**: what an incoming order trades against an id is what it takes from under
it. -/
lemma conserved_submitOrder {b : OrderBook P} (h : BookWF b) (o : Order P) {id : UInt64}
    (hid : o.id ≠ id) :
    qtyOf (submitOrder b o).2.restingAll id + tradedQty (submitOrder b o).1 id
      = qtyOf b.restingAll id := by
  rw [submitOrder_eq h]
  split_ifs
  · simp
  · have hrem : (remainder b o).id ≠ id := hid
    rw [qtyOf_perm (restingAll_addOrder (wf_matched h o) _), qtyOf_cons, if_neg hrem, Nat.zero_add]
    exact qtyOf_matched h o hid
  · exact qtyOf_matched h o hid

/-- **The incoming order itself**: what it trades and what rests of it is its quantity, unless
its type discards the remainder. -/
lemma filled_submitOrder {b : OrderBook P} (h : BookWF b) {o : Order P}
    (hid : o.id ∉ b.restingIds) :
    if o.type = .limit then
      qtyOf (submitOrder b o).2.restingAll o.id + tradedQty (submitOrder b o).1 o.id = o.qty
    else o.id ∉ (submitOrder b o).2.restingIds ∧ tradedQty (submitOrder b o).1 o.id ≤ o.qty := by
  have hmid : o.id ∉ (matched b o).restingIds := fun hm => hid (mem_restingIds_matched h hm)
  have hfill : tradedQty (fills b o) o.id = min o.qty (total Order.qty (eligible b o)) := by
    rw [tradedQty_fills, ← sum_allot]
    simp
  rw [submitOrder_eq h]
  split_ifs with hl hr hrests hr hrests
  · rcases hr with hq | ⟨hf, -⟩
    · rw [qtyOf_eq_zero hid, tradedQty_nil, Order.qty, hq]
      rfl
    · rw [hl] at hf
      cases hf
  · have hrem : (remainder b o).id = o.id := rfl
    have hqty : (remainder b o).qty = o.qty - total Order.qty (eligible b o) :=
      Order.cutTo_qty (Nat.sub_le _ _)
    rw [qtyOf_perm (restingAll_addOrder (wf_matched h o) _), qtyOf_cons, if_pos hrem, hqty,
      qtyOf_eq_zero hmid, hfill]
    omega
  · have hle : ¬ total Order.qty (eligible b o) < o.qty := fun hlt => hrests ⟨hl, hlt⟩
    rw [qtyOf_eq_zero hmid, hfill]
    omega
  · exact ⟨hid, Nat.zero_le _⟩
  · exact absurd hrests.1 hl
  · exact ⟨hmid, by rw [hfill]; omega⟩

/-! ### The account and the book -/

/-- **Account and book agree on an id**: an id without an account does not rest, an account
closed early bounds its trades, and any other is made up exactly by what rests and what was
traded. -/
def Balanced (id : UInt64) (b : OrderBook P) : Option Account → Prop
  | none => id ∉ b.restingIds
  | some a =>
      if a.excused then id ∉ b.restingIds ∧ a.traded ≤ a.assigned
      else qtyOf b.restingAll id + a.traded = a.assigned

omit [LinearOrder P] in
/-- What a call does to the quantity of an id that it neither brings nor removes. -/
lemma Balanced.move {id : UInt64} {b b' : OrderBook P} {account : Option Account} {n : ℕ}
    (h : Balanced id b account) (hids : id ∈ b'.restingIds → id ∈ b.restingIds)
    (hqty : qtyOf b'.restingAll id + n = qtyOf b.restingAll id) :
    Balanced id b' (account.map (·.trade n)) := by
  cases account with
  | none => exact fun hid => h (hids hid)
  | some a =>
      simp only [Option.map_some, Balanced, Account.trade] at h ⊢
      split_ifs at h ⊢
      · rw [qtyOf_eq_zero h.1] at hqty
        exact ⟨fun hid => h.1 (hids hid), by omega⟩
      · omega

omit [LinearOrder P] in
lemma Balanced.frame {id : UInt64} {b b' : OrderBook P} {account : Option Account}
    (h : Balanced id b account) (hids : id ∈ b'.restingIds → id ∈ b.restingIds)
    (hqty : qtyOf b'.restingAll id = qtyOf b.restingAll id) : Balanced id b' account := by
  have hmove := h.move (n := 0) hids (by omega)
  cases account with
  | none => exact hmove
  | some a => exact hmove

/-- Removing another order. -/
lemma Balanced.removed {id : UInt64} {b b' : OrderBook P} {account : Option Account} {s : Side}
    {o : Order P} {bef aft : List (Order P)} (h : Balanced id b account)
    (hr : Removed b b' s o bef aft) (hid : o.id ≠ id) : Balanced id b' account := by
  refine h.frame (fun hm => hr.mem_restingIds.mpr (Or.inr hm)) ?_
  rw [qtyOf_perm hr.restingAll, qtyOf_cons, if_neg hid, Nat.zero_add]

lemma balanced_submitOrder {b : OrderBook P} (h : IndexExact b) {o : Order P}
    (hid : o.id ∉ b.restingIds) :
    Balanced o.id (submitOrder b o).2
      (some ⟨o.qty, tradedQty (submitOrder b o).1 o.id, decide (o.type ≠ .limit)⟩) := by
  have hfill := filled_submitOrder h.wf hid
  simp only [Balanced, decide_eq_true_eq]
  split_ifs at hfill with hl
  · rwa [if_neg (not_not.mpr hl)]
  · rwa [if_pos hl]

section OneCall

variable {b : OrderBook P} (h : IndexExact b) {id : UInt64} {account : Option Account}

include h

lemma balanced_add {o : Order P} (hc : o.id ∉ b.restingIds) (hb : Balanced id b account) :
    Balanced id (addOrder b o) (Account.enter id account (.addOrder o) .done) := by
  have hperm := restingAll_addOrder h.wf o
  simp only [Account.enter, Response.tradeList, tradedQty_nil]
  split_ifs with hid
  · subst hid
    have hq := qtyOf_eq_zero hc
    simp only [Balanced, Bool.false_eq_true, if_false]
    rw [qtyOf_perm hperm, qtyOf_cons, if_pos rfl, hq]
    rfl
  · refine hb.frame ?_ ?_
    · exact fun hm => ((mem_restingIds_addOrder h.wf).mp hm).resolve_left (Ne.symm hid)
    · rw [qtyOf_perm hperm, qtyOf_cons, if_neg hid, Nat.zero_add]

lemma balanced_submit {o : Order P} (hc : o.id ∉ b.restingIds) (hb : Balanced id b account) :
    Balanced id (submitOrder b o).2
      (Account.enter id account (.submitOrder o) (.trades (submitOrder b o).1)) := by
  simp only [Account.enter, Response.tradeList]
  split_ifs with hid
  · subst hid
    exact balanced_submitOrder h hc
  · refine hb.move ?_ (conserved_submitOrder h.wf o hid)
    exact fun hm => (mem_restingIds_submitOrder h.wf hm).resolve_left (Ne.symm hid)

/-- A cancelled id is excused from being traded in full. -/
lemma balanced_cancel (i : UInt64) (hb : Balanced id b account) :
    Balanced id (cancelOrder b i).2
      (Account.enter id account (.cancelOrder i : Call P) (.cancelled (cancelOrder b i).1)) := by
  rcases h.cancelOrder_spec i with ⟨-, heq⟩ | ⟨s, o, bef, aft, rfl, hok, hr⟩
  · simp only [heq, Account.enter]
    exact hb
  · simp only [hok, Account.enter]
    split_ifs with hid
    · subst hid
      have hfree := (h.removed hr).2
      cases account with
      | none => exact hfree
      | some a =>
          simp only [Option.map_some, Balanced, if_true] at hb ⊢
          refine ⟨hfree, ?_⟩
          split_ifs at hb
          · exact hb.2
          · omega
    · exact hb.removed hr hid

/-- A modification assigns the new quantity, whichever way it takes. -/
lemma balanced_modify (counter i : UInt64) (p : P) (q : UInt64) (hb : Balanced id b account) :
    Balanced id (modifyOrder b counter i p q).2.1
      (Account.enter id account (.modifyOrder counter i p q)
        (.modified (modifyOrder b counter i p q).1)) := by
  rcases modifyOrder_cases h.wf counter i p q with
    ⟨heq, -⟩ | ⟨s, o, bef, aft, rfl, -, hr, hcase⟩
  · simp only [heq, Account.enter]
    exact hb
  · obtain ⟨hex, hfree⟩ := h.removed hr
    rcases hcase with ⟨hq, heq⟩ | ⟨hq, -, -, b', heq, hw⟩ | ⟨hq, -, heq⟩
    · simp only [heq, Account.enter, Response.tradeList, tradedQty_nil]
      split_ifs with hid
      · subst hid
        simp only [Balanced, decide_eq_true_eq, if_pos hq]
        exact ⟨hfree, Nat.zero_le _⟩
      · exact (hb.removed hr hid).move (fun hm => hm) rfl
    · have hperm := hw.restingAll hr
      simp only [heq, Account.enter, Response.tradeList, tradedQty_nil]
      split_ifs with hid
      · subst hid
        simp only [Balanced, decide_eq_true_eq, if_neg hq]
        rw [qtyOf_perm hperm, qtyOf_cons, if_pos (Order.setQuantity_id o q), qtyOf_eq_zero hfree]
        rfl
      · refine (hb.removed hr hid).move ?_ ?_
        · intro hm
          rw [OrderBook.restingIds, (hperm.map Order.id).mem_iff] at hm
          exact (List.mem_cons.mp hm).resolve_left (Ne.symm hid)
        · have hset : (o.setQuantity q).id ≠ id := hid
          rw [qtyOf_perm hperm, qtyOf_cons, if_neg hset]
          omega
    · simp only [heq, Account.enter, Response.tradeList]
      split_ifs with hid
      · subst hid
        have hsub := balanced_submitOrder hex (o := ⟨o.id, s, p, q, counter, .limit⟩) hfree
        rw [decide_eq_false hq]
        exact hsub
      · refine (hb.removed hr hid).move ?_ (conserved_submitOrder hex.wf _ hid)
        exact fun hm => (mem_restingIds_submitOrder hex.wf hm).resolve_left (Ne.symm hid)

/-- **One call** keeps account and book in agreement. -/
lemma balanced_call (c : Call P) (hc : FreshIds b c) (hb : Balanced id b account) :
    Balanced id (call b c).2 (Account.enter id account c (call b c).1) := by
  cases c with
  | addOrder o => exact balanced_add h hc hb
  | submitOrder o => exact balanced_submit h hc hb
  | cancelOrder i => exact balanced_cancel h i hb
  | modifyOrder counter i p q => exact balanced_modify h counter i p q hb

end OneCall

/-- **A whole run** keeps account and book in agreement. -/
lemma balanced_run {b : OrderBook P} (h : IndexExact b) {cs : List (Call P)}
    (hcs : Machine.Guarded call FreshIds b cs) {id : UInt64} {account : Option Account}
    (hb : Balanced id b account) :
    Balanced id (Machine.final call b cs)
      ((cs.zip (Machine.answers call b cs)).foldl
        (fun account cr => Account.enter id account cr.1 cr.2) account) := by
  induction cs generalizing b account with
  | nil => exact hb
  | cons c cs ih =>
      obtain ⟨hc, hrest⟩ := hcs
      exact ih (h.call c hc) hrest (balanced_call h c hc hb)

/-- **The quantity ledger.**  After any run with fresh ids, a resting order holds exactly what
was assigned to its id less what was traded under it; an id that does not rest was never
traded beyond its assignment, and was traded to it exactly unless it left early; and from
then on no trade names it until a call brings it again. -/
theorem quantity_ledger (cs : List (Call P))
    (h : Machine.Guarded call FreshIds OrderBook.empty cs) (id : UInt64) :
    (match ledger id cs with
      | none => id ∉ (after cs).restingIds
      | some a =>
          (∀ o ∈ (after cs).restingAll, o.id = id →
              a.traded ≤ a.assigned ∧ o.qty = a.assigned - a.traded)
            ∧ (id ∉ (after cs).restingIds →
              a.traded ≤ a.assigned ∧ (a.excused = false → a.traded = a.assigned)))
      ∧ (id ∉ (after cs).restingIds → ∀ cs' : List (Call P), (∀ c ∈ cs', ¬ c.Brings id) →
          ∀ r ∈ Machine.answers call (after cs) cs', ∀ t ∈ r.tradeList, ¬ t.Names id) := by
  have hex := indexExact_after h
  have hbal : Balanced id (after cs) (ledger id cs) :=
    balanced_run IndexExact.empty h (by simp [Balanced, OrderBook.restingIds,
      OrderBook.restingAll, OrderBook.resting, OrderBook.side, OrderBook.empty])
  refine ⟨?_, fun hid cs' hcs' => (ids_run hex.wf hid hcs').2⟩
  cases hl : ledger id cs with
  | none => rwa [hl] at hbal
  | some a =>
      rw [hl, Balanced] at hbal
      split_ifs at hbal with hexc
      · refine ⟨?_, fun _ => ⟨hbal.2, fun hfalse => absurd hexc (by simp [hfalse])⟩⟩
        rintro o ho rfl
        exact absurd (List.mem_map_of_mem ho) hbal.1
      · constructor
        · rintro o ho rfl
          rw [qtyOf_of_mem hex.tracks.nodup ho] at hbal
          omega
        · intro hid
          rw [qtyOf_eq_zero hid] at hbal
          omega

/-- After the sample book a BUY of 8 at 102 is traded in full; order 3 keeps 4 of its 7. -/
theorem quantity_ledger_sample :
    let cs := sampleCalls ++ [.submitOrder ⟨9, .buy, 102, 8, 10, .limit⟩]
    ledger 3 cs = some ⟨7, 3, false⟩ ∧ ∀ o ∈ (after cs).restingAll, o.id = 3 → o.qty = 7 - 3 := by
  intro cs
  have h := (quantity_ledger cs (by decide) 3).1
  have hl : ledger 3 cs = some ⟨7, 3, false⟩ := by decide
  rw [hl] at h
  exact ⟨hl, fun o ho hid => (h.1 o ho hid).2⟩

end Leviathan
