import Leviathan.Book.Relabel
import Leviathan.Book.Soundness

/-!
The book at coarser prices.

A monotone map of the prices keeps the order of two prices or makes them equal, so it can merge
two levels, let two orders meet that did not, and turn the comparison of the new price of
`modifyOrder` with the old one from unequal to equal.  Nothing else can happen:

* `RoundsAlike f b c` says of a call that none of these happens to it at the book `b`;
* `rounded_call` says that such a call keeps the books related, and `rounded_run` that a run of
  such calls does;
* `modifyBranch` is the way that `modifyOrder` takes (`modifyOrder_eq_branch`), the same on both
  books.
-/

namespace Leviathan

open Allotment

variable {P : Type*} [LinearOrder P]

/-! ### The ways of modifyOrder -/

/-- The four ways through `modifyOrder`. -/
inductive ModifyBranch (P : Type*) where
  | notFound
  | cancel
  | inPlace (side : Side) (price : P)
  | resubmit (side : Side)
  deriving DecidableEq

/-- The same way at other prices. -/
def ModifyBranch.map (f : P → P) : ModifyBranch P → ModifyBranch P
  | .notFound => .notFound
  | .cancel => .cancel
  | .inPlace side price => .inPlace side (f price)
  | .resubmit side => .resubmit side

/-- The way that `modifyOrder` takes. -/
def modifyBranch (b : OrderBook P) (id : UInt64) (p : P) (q : UInt64) : ModifyBranch P :=
  match b.orderIndex.lookup id with
  | none => .notFound
  | some ⟨s, price⟩ =>
      if q = 0 then .cancel
      else
        match findOrderInDeque s (b.side s) price id with
        | none => .notFound
        | some order => if p = price ∧ q ≤ order.quantity then .inPlace s price else .resubmit s

/-- What `modifyOrder` does on each way. -/
def ModifyBranch.run (b : OrderBook P) (counter id : UInt64) (p : P) (q : UInt64) :
    ModifyBranch P → Option (List (Trade P)) × OrderBook P × UInt64
  | .notFound => (none, b, counter)
  | .cancel => (if (cancelOrder b id).1 then some [] else none, (cancelOrder b id).2, counter)
  | .inPlace s price => (some [], b.setSide s (writeQuantity s (b.side s) price id q), counter)
  | .resubmit s =>
      let r := submitOrder (cancelOrder b id).2 ⟨id, s, p, q, counter, .limit⟩
      (some r.1, r.2, counter + 1)

/-- `modifyOrder` takes the way of `modifyBranch`. -/
lemma modifyOrder_eq_branch (b : OrderBook P) (counter id : UInt64) (p : P) (q : UInt64) :
    modifyOrder b counter id p q = (modifyBranch b id p q).run b counter id p q := by
  rw [modifyOrder_eq, modifyBranch]
  cases b.orderIndex.lookup id with
  | none => rfl
  | some loc =>
      obtain ⟨s, price⟩ := loc
      by_cases hq : q = 0
      · simp only [if_pos hq, ModifyBranch.run]
      · simp only [if_neg hq]
        cases findOrderInDeque s (b.side s) price id with
        | none => rfl
        | some order =>
            by_cases hin : p = price ∧ q ≤ order.quantity
            · simp only [if_pos hin, ModifyBranch.run]
            · simp only [if_neg hin, ModifyBranch.run]

/-! ### Calls that rounding leaves alone -/

section Alike

variable (f : P → P)

/-- No other level comes to the rounded price. -/
def Apart (p : P) (m : SideMap P) : Prop := ∀ l ∈ m, f l.1 = f p → l.1 = p

instance (p : P) (m : SideMap P) : Decidable (Apart f p m) :=
  inferInstanceAs (Decidable (∀ l ∈ m, f l.1 = f p → l.1 = p))

/-- At rounded prices the order crosses no level more, or is filled before it comes to it. -/
def FillsAlike (b : OrderBook P) (o : Order P) : Prop :=
  (∀ l ∈ b.side o.side.opposite, ((repriced f).order o).Crosses (f l.1) → o.Crosses l.1)
    ∨ o.qty ≤ total Order.qty (eligible b o)

instance (b : OrderBook P) (o : Order P) : Decidable (FillsAlike f b o) :=
  inferInstanceAs (Decidable (_ ∨ _))

/-- The sides at rounded prices, for the preview. -/
def OrderBook.rounded (b : OrderBook P) : OrderBook P :=
  ⟨(repriced f).levels b.bids, (repriced f).levels b.asks, ∅⟩

/-- Submitted at rounded prices, an order that is previewed is previewed alike and, unless it is
refused, meets the same orders and rests in a level of its own price. -/
def SubmitsAlike (b : OrderBook P) (o : Order P) : Prop :=
  -- an order of quantity 0 returns in front of the preview
  (o.quantity ≠ 0 → o.type = .fok →
      canFullyFill (b.rounded f) o.side (f o.price) o.quantity
        = canFullyFill b o.side o.price o.quantity)
    ∧ (¬ Refused b o → FillsAlike f b o ∧ (Rests b o → Apart f o.price (b.side o.side)))

instance (b : OrderBook P) (o : Order P) : Decidable (SubmitsAlike f b o) :=
  inferInstanceAs (Decidable ((_ → _ → _ = _) ∧ (_ → _ ∧ (_ → _))))

/-- The new price of a modification, unless it is the old one, does not come to the old one where
that would be a decrease in place; submitted afresh, the order meets the same orders and rests in
a level of its own price, the level it leaves empty aside. -/
def ModifiesAlike (b : OrderBook P) (counter id : UInt64) (p : P) (q : UInt64) (s : Side)
    (price : P) (order : Order P) : Prop :=
  p = price ∧ q ≤ order.quantity
    ∨ ¬ (f p = f price ∧ q ≤ order.quantity)
      ∧ FillsAlike f b ⟨id, s, p, q, counter, .limit⟩
      ∧ (Rests b ⟨id, s, p, q, counter, .limit⟩ →
        Apart f p ((b.side s).filter fun l => l.2 ≠ [order]))

instance (b : OrderBook P) (counter id : UInt64) (p : P) (q : UInt64) (s : Side) (price : P)
    (order : Order P) : Decidable (ModifiesAlike f b counter id p q s price order) :=
  inferInstanceAs (Decidable (_ ∧ _ ∨ ¬ (_ ∧ _) ∧ _ ∧ (_ → _)))

/-- **The call makes the same decisions** at rounded prices: no two levels merge, no order is
previewed otherwise or meets more, no modification becomes a decrease in place. -/
def RoundsAlike (b : OrderBook P) : Call P → Prop
  | .addOrder o => Apart f o.price (b.side o.side)
  | .submitOrder o => SubmitsAlike f b o
  | .cancelOrder _ => True
  | .modifyOrder counter id p q =>
      q ≠ 0 → ∀ loc ∈ b.orderIndex.lookup id,
        ∀ order ∈ findOrderInDeque loc.side (b.side loc.side) loc.price id,
          ModifiesAlike f b counter id p q loc.side loc.price order

instance (b : OrderBook P) (c : Call P) : Decidable (RoundsAlike f b c) :=
  match c with
  | .addOrder _ => inferInstanceAs (Decidable (Apart _ _ _))
  | .submitOrder _ => inferInstanceAs (Decidable (SubmitsAlike _ _ _))
  | .cancelOrder _ => inferInstanceAs (Decidable True)
  | .modifyOrder counter id p q =>
      inferInstanceAs (Decidable (q ≠ 0 → ∀ loc ∈ b.orderIndex.lookup id,
        ∀ order ∈ findOrderInDeque loc.side (b.side loc.side) loc.price id,
          ModifiesAlike f b counter id p q loc.side loc.price order))

end Alike

/-! ### What a monotone map keeps -/

section Monotone

variable {f : P → P} (hf : Monotone f)

include hf

lemma before_of_before {s : Side} {p q : P} (h : s.before (f p) (f q)) : s.before p q := by
  cases s with
  | buy | sell => exact lt_of_not_ge fun hle => absurd h (hf hle).not_gt

lemma before_image {s : Side} {p q : P} (h : s.before p q) (hne : f p ≠ f q) :
    s.before (f p) (f q) := by
  cases s with
  | buy => exact lt_of_le_of_ne (hf (le_of_lt h)) hne.symm
  | sell => exact lt_of_le_of_ne (hf (le_of_lt h)) hne

/-- A price apart from the others lies among them as it does after rounding. -/
lemma fits_of_apart (s : Side) {p : P} {m : SideMap P} (h : Apart f p m) :
    (repriced f).Fits s p m := by
  have hirrefl : ∀ q : P, ¬ s.before q q := fun q => irrefl_of s.before q
  intro l hl
  refine ⟨⟨before_of_before hf, fun hb => before_image hf hb fun heq => ?_⟩,
    ⟨before_of_before hf, fun hb => before_image hf hb fun heq => ?_⟩⟩
  · exact hirrefl p (h l hl heq ▸ hb)
  · exact hirrefl p (h l hl heq.symm ▸ hb)

lemma crosses_image {o : Order P} {p : P} (h : o.Crosses p) :
    ((repriced f).order o).Crosses (f p) := by
  rcases h with hm | hw
  · exact Or.inl hm
  · right
    have hside : ((repriced f).order o).side = o.side := rfl
    rw [hside]
    cases hs : o.side with
    | buy | sell =>
        rw [hs] at hw
        exact hf hw

lemma FillsAlike.meets {b : OrderBook P} {o : Order P} (h : FillsAlike f b o) :
    (repriced f).Meets b o :=
  ⟨fun _ _ hc => crosses_image hf hc, h⟩

end Monotone

section Related

variable {f : P → P} {b b' : OrderBook P}

/-- Where the rounded book is in good order, the levels of the live one are still distinct. -/
lemma Relabelled.nodup_rounded (h : Relabelled (repriced f) b b') (hwf' : BookWF b') (s : Side) :
    ((b.side s).map fun l => f l.1).Nodup := by
  have hside : b'.side s = (repriced f).levels (b.side s) := h.side s
  have hsorted : ((repriced f).levels (b.side s)).Pairwise fun a a' => s.before a.1 a'.1 := by
    rw [← hside]
    exact (hwf' s).sorted
  refine List.pairwise_map.mpr ((List.pairwise_map.mp hsorted).imp fun {a a'} hb heq => ?_)
  have hb : s.before (f a.1) (f a'.1) := hb
  rw [heq] at hb
  exact irrefl_of s.before _ hb

lemma Relabelled.apart (h : Relabelled (repriced f) b b') (hwf' : BookWF b') (s : Side)
    {l : P × List (Order P)} (hl : l ∈ b.side s) : Apart f l.1 (b.side s) := by
  intro l' hl' heq
  exact congrArg Prod.fst (List.inj_on_of_nodup_map (h.nodup_rounded hwf' s) hl' hl heq)

/-- The preview sees the sides only. -/
lemma Relabelled.canFullyFill_eq (h : Relabelled (repriced f) b b') (s : Side) (p : P)
    (q : UInt64) : canFullyFill b' s p q = canFullyFill (b.rounded f) s p q := by
  have hbids : b'.bids = (repriced f).levels b.bids := h.side .buy
  have hasks : b'.asks = (repriced f).levels b.asks := h.side .sell
  cases s with
  | buy => rw [canFullyFill, canFullyFill, hasks]; rfl
  | sell => rw [canFullyFill, canFullyFill, hbids]; rfl

lemma SubmitsAlike.submitOrder (hf : Monotone f) (h : Relabelled (repriced f) b b')
    (hwf : BookWF b) (hwf' : BookWF b') {o : Order P} (ho : SubmitsAlike f b o) :
    (submitOrder b' ((repriced f).order o)).1 = (submitOrder b o).1.map (repriced f).trade
      ∧ Relabelled (repriced f) (submitOrder b o).2 (submitOrder b' ((repriced f).order o)).2 := by
  obtain ⟨hpreview, halike⟩ := ho
  refine h.submitOrder hwf hwf' ?_ (fun hr => (halike hr).1.meets hf) fun hr hre =>
    fits_of_apart hf o.side ((halike hr).2 hre)
  by_cases hq : o.quantity = 0
  · exact iff_of_true (Or.inl hq) (Or.inl hq)
  · refine or_congr Iff.rfl (and_congr_right fun ht => ?_)
    rw [← hpreview hq ht, ← h.canFullyFill_eq]
    rfl

/-- The levels of a book that an order has left are levels it had, of other orders. -/
lemma Removed.exists_level {s : Side} {o : Order P} {bef aft : List (Order P)}
    (hr : Removed b b' s o bef aft) (hwf : BookWF b) {l : P × List (Order P)}
    (hl : l ∈ b'.side s) : ∃ l' ∈ b.side s, l'.1 = l.1 ∧ l'.2 ≠ [o] := by
  obtain ⟨x, q, hq⟩ := List.exists_cons_of_ne_nil ((hr.wf s).ne_nil l hl)
  have hxl : x ∈ l.2 := hq ▸ List.mem_cons_self
  have hx : x ∈ bef ++ aft := by
    rw [← hr.resting']
    exact mem_orders.mpr ⟨l, hl, hxl⟩
  have hprice : x.price = l.1 := ((hr.wf s).home l hl x hxl).2
  have hsub : x ∈ b.resting s := by
    rw [hr.resting]
    exact (List.Sublist.append_left (List.sublist_cons_self o aft) bef).subset hx
  obtain ⟨q', hq', hxq⟩ := (hwf s).mem_level hsub
  refine ⟨(x.price, q'), hq', hprice, fun heq => ?_⟩
  have heq : q' = [o] := heq
  -- the level would be that of `o` alone, but `x` stands beside it
  have hlevel : (b.resting s).filter (fun y => y.price = x.price) = [o] := by
    rw [OrderBook.resting, (hwf s).filter_orders, (OrderedMap.mem_iff_find? (hwf s).sorted).mp hq',
      Option.getD_some, heq]
  have hox : o.price = x.price := by
    have ho : o ∈ (b.resting s).filter (fun y => y.price = x.price) := by simp [hlevel]
    simpa using (List.mem_filter.mp ho).2
  have hlen := congrArg List.length hlevel
  rw [hr.resting, List.filter_append, List.filter_cons_of_pos (by simpa using hox),
    List.length_append, List.length_cons, List.length_singleton] at hlen
  have hpos : 0 < ((bef ++ aft).filter fun y => y.price = x.price).length :=
    List.length_pos_of_mem (List.mem_filter.mpr ⟨hx, by simp⟩)
  rw [List.filter_append, List.length_append] at hpos
  omega

/-- The order of a modification submitted afresh, on the book that its old self has left. -/
lemma ModifiesAlike.submitsAlike {b₁ : OrderBook P} (hwf : BookWF b) {counter : UInt64} {p : P}
    {q : UInt64} {s : Side} {o : Order P} {bef aft : List (Order P)}
    (hr : Removed b b₁ s o bef aft) (hin : ¬ (p = o.price ∧ q ≤ o.quantity))
    (h : ModifiesAlike f b counter o.id p q s o.price o) :
    SubmitsAlike f b₁ ⟨o.id, s, p, q, counter, .limit⟩ := by
  obtain ⟨-, hfills, hrests⟩ := h.resolve_left hin
  have helig : eligible b₁ ⟨o.id, s, p, q, counter, .limit⟩
      = eligible b ⟨o.id, s, p, q, counter, .limit⟩ := by
    rw [eligible, eligible, OrderBook.resting_congr hr.other]
  refine ⟨fun _ ht => absurd ht (by simp), fun _ => ⟨?_, fun hre => ?_⟩⟩
  · rw [FillsAlike, helig, hr.other]
    exact hfills
  · intro l hl heq
    rw [Rests, helig] at hre
    obtain ⟨l', hl', hll, hne⟩ := hr.exists_level hwf hl
    rw [← hll] at heq ⊢
    exact hrests hre l' (List.mem_filter.mpr ⟨hl', by simpa using hne⟩) heq

end Related

/-- The order a modification finds is the one its cancellation removes. -/
lemma removed_of_found {b : OrderBook P} (hwf : BookWF b) {id : UInt64} {s : Side} {price : P}
    {order : Order P} (hl : b.orderIndex.lookup id = some ⟨s, price⟩)
    (hfind : findOrderInDeque s (b.side s) price id = some order) :
    order.id = id ∧ order.price = price
      ∧ ∃ bef aft, Removed b (cancelOrder b id).2 s order bef aft := by
  rcases cancelOrder_cases hwf id with ⟨-, hnone⟩ | ⟨t, o, bef, aft, rfl, -, hr⟩
  · have hno := ((hwf s).findOrderInDeque_eq_none price id).1.mpr (hnone s price hl)
    rw [hfind] at hno
    cases hno
  · obtain ⟨rfl, rfl⟩ : s = t ∧ price = o.price := by simpa [hl] using hr.lookup
    obtain rfl : order = o := by simpa [hfind] using hr.found
    exact ⟨rfl, rfl, bef, aft, hr⟩

/-! ### Calls and runs at rounded prices -/

section Call

variable {f : P → P} (hf : Monotone f) {b b' : OrderBook P} (hs : IndexSound b)
  (hwf' : BookWF b') (h : Relabelled (repriced f) b b')

/-- Where a modification compares its new price, it is as near to the old one as before. -/
lemma ModifiesAlike.price_iff {counter id : UInt64} {p : P} {q : UInt64} {s : Side} {price : P}
    {order : Order P} (hm : ModifiesAlike f b counter id p q s price order)
    (hle : q ≤ order.quantity) : f p = f price ↔ p = price := by
  rcases hm with ⟨rfl, -⟩ | ⟨hne, -⟩
  · exact iff_of_true rfl rfl
  · refine iff_of_false (fun heq => hne ⟨heq, hle⟩) ?_
    rintro rfl
    exact hne ⟨rfl, hle⟩

include hf hs hwf' h

lemma fits_of_lookup {id : UInt64} {s : Side} {p : P}
    (hl : b.orderIndex.lookup id = some ⟨s, p⟩) : (repriced f).Fits s p (b.side s) := by
  obtain ⟨o, ho, -, rfl⟩ := hs.exists_order hl
  obtain ⟨q, hq, -⟩ := (hs.wf s).mem_level ho
  exact fits_of_apart hf s (h.apart hwf' s hq)

/-- **One call** that rounding leaves alone: the same answer at rounded prices, and books that
are the same up to them. -/
lemma rounded_call {c : Call P} (hc : RoundsAlike f b c) :
    (call b' ((repriced f).call c)).1 = (repriced f).response (call b c).1
      ∧ Relabelled (repriced f) (call b c).2 (call b' ((repriced f).call c)).2 := by
  have hid : ∀ (id : UInt64) s p, b.orderIndex.lookup id = some ⟨s, p⟩ →
      (repriced f).Fits s p (b.side s) := fun _ _ _ hl => fits_of_lookup hf hs hwf' h hl
  cases c with
  | addOrder o => exact ⟨rfl, h.addOrder (fits_of_apart hf o.side hc)⟩
  | submitOrder o =>
      obtain ⟨htr, hbook⟩ := SubmitsAlike.submitOrder hf h hs.wf hwf' hc
      exact ⟨congrArg Response.trades htr, hbook⟩
  | cancelOrder id =>
      obtain ⟨hok, hbook⟩ := h.cancelOrder (hid id)
      exact ⟨congrArg Response.cancelled hok, hbook⟩
  | modifyOrder counter id p q =>
      obtain ⟨hres, hbook⟩ := @Relabelled.modifyOrder _ _ _ _ _ _ _ h counter counter id p q
        (hid id) (fun s price order hl hfind hq hle => (hc hq _ hl order hfind).price_iff hle)
        fun s price order hl hfind hq hin => by
          obtain ⟨rfl, rfl, bef, aft, hr⟩ := removed_of_found hs.wf hl hfind
          have hsub := (hc hq _ hl order hfind).submitsAlike hs.wf hr hin
          exact hsub.submitOrder hf (h.cancelOrder (hid order.id)).2 hr.wf
            (wf_cancelOrder hwf' order.id)
      exact ⟨congrArg Response.modified hres, hbook⟩

/-- A modification that rounding leaves alone takes the same way. -/
lemma rounded_branch {counter id : UInt64} {p : P} {q : UInt64}
    (hc : RoundsAlike f b (.modifyOrder counter id p q)) :
    modifyBranch b' id (f p) q = (modifyBranch b id p q).map f := by
  rw [modifyBranch, modifyBranch, h.index]
  cases hl : b.orderIndex.lookup id with
  | none => rfl
  | some loc =>
      obtain ⟨s, price⟩ := loc
      have hside : b'.side s = (repriced f).levels (b.side s) := h.side s
      have hlookup := findOrderInDeque_levels (fits_of_lookup hf hs hwf' h hl) id
      have hlookup : findOrderInDeque s (b'.side s) (f price) id
          = (findOrderInDeque s (b.side s) price id).map (repriced f).order := by
        rw [hside]
        exact hlookup
      show (if q = 0 then ModifyBranch.cancel
          else match findOrderInDeque s (b'.side s) (f price) id with
            | none => .notFound
            | some order =>
                if f p = f price ∧ q ≤ order.quantity then .inPlace s (f price)
                else .resubmit s) = _
      by_cases hq : q = 0
      · simp only [if_pos hq, ModifyBranch.map]
      · simp only [if_neg hq, hlookup]
        cases hfind : findOrderInDeque s (b.side s) price id with
        | none => rfl
        | some order =>
            have hiff : f p = f price ∧ q ≤ order.quantity ↔ p = price ∧ q ≤ order.quantity :=
              and_congr_left fun hle => (hc hq _ hl order hfind).price_iff hle
            simp only [Option.map_some, Relabelling.order_quantity, hiff]
            split_ifs <;> rfl

end Call

/-- **Runs at rounded prices.**  A run of calls that rounding leaves alone, each at the book it
comes to, gives at rounded prices the same answers, and ends in a book with the same levels,
queues and index. -/
theorem rounded_run {f : P → P} (hf : Monotone f) {cs : List (Call P)}
    (hcs : Machine.Guarded call (RoundsAlike f) OrderBook.empty cs) :
    responses (cs.map (repriced f).call) = (responses cs).map (repriced f).response
      ∧ Relabelled (repriced f) (after cs) (after (cs.map (repriced f).call)) := by
  obtain ⟨hans, -, -, hbook⟩ := hcs.simulation
    (R := fun b b' => IndexSound b ∧ BookWF b' ∧ Relabelled (repriced f) b b')
    (F := (repriced f).call) (G := (repriced f).response)
    (fun b b' c hb hc => by
      obtain ⟨hs, hwf', h⟩ := hb
      obtain ⟨hans, hbook⟩ := rounded_call hf hs hwf' h hc
      exact ⟨hans, hs.call c, wf_call hwf' _, hbook⟩)
    ⟨IndexSound.empty, BookWF.empty, Relabelled.empty _⟩
  exact ⟨hans, hbook⟩

end Leviathan
