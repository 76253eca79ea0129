import Leviathan.Book.Calls

/-!
The index and the levels tell the same story.

* `Tracks ix l`: the orders of `l` have distinct ids and the index `ix` maps exactly those ids,
  each to the location of its order.  The steps `Tracks.insert` and `Tracks.erase` follow the
  index writes of the source.
* The operations act on `OrderBook.restingAll` as a bag of orders: `restingAll_addOrder`,
  `restingAll_matched`, `Removed.restingAll`, `Rewritten.restingAll`.
* `IndexRelation R`: what an index and a bag of orders have to do with each other stays true when
  an order leaves both, and so through the loop, a removal and a write in place
  (`IndexRelation.matched`, `IndexRelation.removed`, `IndexRelation.rewritten`).
* `IndexExact` is the invariant of the runs that bring only ids which are not resting at that
  moment; `index_exact` reads it off in terms of the queries of the book.
-/

namespace Leviathan

open Allotment

variable {P : Type*}

/-- The place an order stands at. -/
def Order.location (o : Order P) : OrderLocation P := ⟨o.side, o.price⟩

/-- What the index can see of an order. -/
def Order.entry (o : Order P) : UInt64 × OrderLocation P := (o.id, o.location)

lemma map_id_of_map_entry {l l' : List (Order P)} (h : l.map Order.entry = l'.map Order.entry) :
    l.map Order.id = l'.map Order.id := by
  have h1 := congrArg (List.map Prod.fst) h
  rwa [List.map_map, List.map_map] at h1

/-- **The index tracks a bag of orders**: their ids are distinct, and the index maps exactly
these, each to the place of its order. -/
structure Tracks (ix : OrderIndex P) (l : List (Order P)) : Prop where
  nodup : (l.map Order.id).Nodup
  lookup : ∀ id loc, ix.lookup id = some loc ↔ (id, loc) ∈ l.map Order.entry

namespace Tracks

variable {ix : OrderIndex P} {l l' : List (Order P)} {o : Order P}

lemma empty : Tracks (∅ : OrderIndex P) [] := ⟨List.nodup_nil, by simp⟩

lemma perm (h : Tracks ix l) (hp : l.Perm l') : Tracks ix l' := by
  refine ⟨(hp.map Order.id).nodup_iff.mp h.nodup, ?_⟩
  intro id loc
  rw [h.lookup]
  exact (hp.map Order.entry).mem_iff

/-- Tracking sees nothing of an order but its entry. -/
lemma congr (h : Tracks ix l) (he : l.map Order.entry = l'.map Order.entry) : Tracks ix l' := by
  refine ⟨map_id_of_map_entry he ▸ h.nodup, ?_⟩
  intro id loc
  rw [h.lookup, he]

lemma lookup_eq_none (h : Tracks ix l) {id : UInt64} :
    ix.lookup id = none ↔ id ∉ l.map Order.id := by
  constructor
  · intro hnone hid
    obtain ⟨o, ho, rfl⟩ := List.mem_map.mp hid
    have hsome := (h.lookup o.id o.location).mpr (List.mem_map_of_mem ho)
    rw [hnone] at hsome
    simp at hsome
  · intro hid
    cases hl : ix.lookup id with
    | none => rfl
    | some loc =>
        obtain ⟨o, ho, heq⟩ := List.mem_map.mp ((h.lookup id loc).mp hl)
        obtain ⟨rfl, -⟩ := Prod.mk.inj heq
        exact absurd (List.mem_map_of_mem ho) hid

lemma lookup_of_mem (h : Tracks ix l) (ho : o ∈ l) : ix.lookup o.id = some o.location :=
  (h.lookup _ _).mpr (List.mem_map_of_mem ho)

/-- `order_index_[order.id] = {order.side, order.price}`. -/
lemma insert (h : Tracks ix l) (ho : o.id ∉ l.map Order.id) :
    Tracks (ix.insert o.id o.location) (o :: l) := by
  refine ⟨List.nodup_cons.mpr ⟨ho, h.nodup⟩, ?_⟩
  intro id loc
  by_cases hid : id = o.id
  · subst hid
    rw [Finmap.lookup_insert, List.map_cons, List.mem_cons]
    constructor
    · intro heq
      exact Or.inl (by rw [← Option.some.inj heq]; rfl)
    · rintro (heq | hmem)
      · rw [(Prod.mk.inj heq).2]
      · obtain ⟨x, hx, heq⟩ := List.mem_map.mp hmem
        exact absurd (List.mem_map.mpr ⟨x, hx, (Prod.mk.inj heq).1⟩) ho
  · rw [Finmap.lookup_insert_of_ne _ hid, h.lookup, List.map_cons, List.mem_cons]
    have hne : (id, loc) ≠ o.entry := fun heq => hid (Prod.mk.inj heq).1
    simp [hne]

/-- `order_index_.erase(order.id)`. -/
lemma erase (h : Tracks ix (o :: l)) : Tracks (ix.erase o.id) l := by
  obtain ⟨ho, hl⟩ := List.nodup_cons.mp h.nodup
  refine ⟨hl, ?_⟩
  intro id loc
  by_cases hid : id = o.id
  · subst hid
    rw [Finmap.lookup_erase]
    constructor
    · intro heq
      simp at heq
    · intro hmem
      obtain ⟨x, hx, heq⟩ := List.mem_map.mp hmem
      exact absurd (List.mem_map.mpr ⟨x, hx, (Prod.mk.inj heq).1⟩) ho
  · rw [Finmap.lookup_erase_ne hid, h.lookup, List.map_cons, List.mem_cons]
    have hne : (id, loc) ≠ o.entry := fun heq => hid (Prod.mk.inj heq).1
    simp [hne]

/-- The index holds one entry for each order. -/
lemma card_keys (h : Tracks ix l) : ix.keys.card = l.length := by
  have hkeys : ix.keys = (l.map Order.id).toFinset := by
    ext id
    rw [Finmap.mem_keys, ← Finmap.lookup_isSome, List.mem_toFinset]
    cases hl : ix.lookup id with
    | none => simpa using h.lookup_eq_none.mp hl
    | some loc =>
        have hid : id ∈ l.map Order.id := by
          by_contra hn
          simp [h.lookup_eq_none.mpr hn] at hl
        simpa using hid
  rw [hkeys, List.toFinset_card_of_nodup h.nodup, List.length_map]

end Tracks

/-- A relation of an index to a bag of orders that sees nothing of the orders but their entries,
and is kept when an order leaves the bag and its id the index. -/
structure IndexRelation (R : OrderIndex P → List (Order P) → Prop) : Prop where
  perm {ix : OrderIndex P} {l l' : List (Order P)} (h : R ix l) (hp : l.Perm l') : R ix l'
  congr {ix : OrderIndex P} {l l' : List (Order P)} (h : R ix l)
    (he : l.map Order.entry = l'.map Order.entry) : R ix l'
  erase {ix : OrderIndex P} {o : Order P} {l : List (Order P)} (h : R ix (o :: l)) :
    R (ix.erase o.id) l

lemma Tracks.indexRelation : IndexRelation (Tracks (P := P)) :=
  ⟨Tracks.perm, Tracks.congr, Tracks.erase⟩

/-- Orders that leave one after the other. -/
lemma IndexRelation.eraseIds {R : OrderIndex P → List (Order P) → Prop} (hR : IndexRelation R)
    {ix : OrderIndex P} {d l : List (Order P)} (h : R ix (d ++ l)) : R (eraseIds d ix) l := by
  induction d generalizing ix with
  | nil => exact h
  | cons o d ih => exact ih (hR.erase h)

/-! ### The operations on the bag of resting orders -/

variable [LinearOrder P]

lemma restingAll_addOrder {b : OrderBook P} (h : BookWF b) (o : Order P) :
    (addOrder b o).restingAll.Perm (o :: b.restingAll) := by
  refine ((addOrder b o).restingAll_perm o.side).trans ?_
  rw [resting_addOrder_self h]
  have hother : (addOrder b o).resting o.side.opposite = b.resting o.side.opposite :=
    OrderBook.resting_congr (side_addOrder_of_ne b o.side.opposite_ne)
  rw [hother]
  exact ((List.perm_orderedInsert _ o _).append_right _).trans
    ((b.restingAll_perm o.side).symm.cons o)

/-- The resting orders an incoming order does not meet: its own side and the other side beyond
its limit. -/
def unmet (b : OrderBook P) (o : Order P) : List (Order P) :=
  b.resting o.side ++ ineligible b o

lemma restingAll_eligible {b : OrderBook P} (h : BookWF b) (o : Order P) :
    b.restingAll.Perm (eligible b o ++ unmet b o) := by
  refine (b.restingAll_perm o.side).trans ?_
  rw [eligible_append_ineligible h o]
  exact List.perm_append_comm_assoc _ _ _

/-- The loop leaves what it keeps of the orders it meets, and the others untouched. -/
lemma restingAll_matched {b : OrderBook P} (h : BookWF b) (o : Order P) :
    (matched b o).restingAll.Perm
      (keep Order.qty Order.cutTo o.qty (eligible b o) ++ unmet b o) := by
  refine ((matched b o).restingAll_perm o.side).trans ?_
  have hown : (matched b o).resting o.side = b.resting o.side :=
    OrderBook.resting_congr (side_matched b o)
  rw [resting_matched_opposite h, hown]
  exact List.perm_append_comm_assoc _ _ _

/-- When a remainder rests, the loop has left the orders it did not meet and no other. -/
lemma Rests.restingAll_matched {b : OrderBook P} {o : Order P} (hr : Rests b o) (h : BookWF b) :
    (matched b o).restingAll.Perm (unmet b o) := by
  have hperm := Leviathan.restingAll_matched h o
  rwa [hr.keep_eligible, List.nil_append] at hperm

lemma Removed.restingAll {b b' : OrderBook P} {s : Side} {o : Order P}
    {bef aft : List (Order P)} (h : Removed b b' s o bef aft) :
    b.restingAll.Perm (o :: b'.restingAll) := by
  have hother : b'.resting s.opposite = b.resting s.opposite := OrderBook.resting_congr h.other
  refine (b.restingAll_perm s).trans ?_
  rw [h.resting, ← hother]
  refine (List.perm_middle.append_right _).trans ?_
  refine List.Perm.cons o ?_
  rw [← h.resting']
  exact (b'.restingAll_perm s).symm

lemma Rewritten.restingAll {b b' b'' : OrderBook P} {s : Side} {o : Order P} {q : UInt64}
    {bef aft : List (Order P)} (h : Rewritten b b'' s o q bef aft)
    (hr : Removed b b' s o bef aft) :
    b''.restingAll.Perm (o.setQuantity q :: b'.restingAll) := by
  have hother : b''.resting s.opposite = b'.resting s.opposite :=
    OrderBook.resting_congr (h.other.trans hr.other.symm)
  refine (b''.restingAll_perm s).trans ?_
  rw [h.resting', hother]
  refine (List.perm_middle.append_right _).trans ?_
  refine List.Perm.cons _ ?_
  rw [← hr.resting']
  exact (b'.restingAll_perm s).symm

omit [LinearOrder P] in
/-- The ids the loop keeps are those behind the ids it uses up. -/
lemma map_entry_keep (Q : ℕ) (l : List (Order P)) :
    (keep Order.qty Order.cutTo Q l).map Order.entry
      = (l.drop (spent Order.qty Q l)).map Order.entry :=
  map_keep Order.qty Order.cutTo Order.entry (fun _ _ => rfl) Q l

namespace IndexRelation

variable {R : OrderIndex P → List (Order P) → Prop} (hR : IndexRelation R) {b b' b'' : OrderBook P}
  (h : R b.orderIndex b.restingAll)

include hR h

/-- The ids that leave the index in the matching loop are those of the orders that leave the
levels. -/
lemma matched (hwf : BookWF b) (o : Order P) :
    R (matched b o).orderIndex (matched b o).restingAll := by
  have hsplit : b.restingAll.Perm (usedUp o.qty (eligible b o)
      ++ ((eligible b o).drop (spent Order.qty o.qty (eligible b o)) ++ unmet b o)) := by
    rw [← List.append_assoc, usedUp, List.take_append_drop]
    exact restingAll_eligible hwf o
  have hleft := hR.eraseIds (hR.perm h hsplit)
  refine hR.perm (hR.congr hleft ?_) (restingAll_matched hwf o).symm
  rw [List.map_append, List.map_append, map_entry_keep]

lemma removed {s : Side} {o : Order P} {bef aft : List (Order P)}
    (hr : Removed b b' s o bef aft) : R b'.orderIndex b'.restingAll := by
  rw [hr.index]
  exact hR.erase (hR.perm h hr.restingAll)

/-- A quantity is no part of an entry. -/
lemma rewritten {s : Side} {o : Order P} {q : UInt64} {bef aft : List (Order P)}
    (hr : Removed b b' s o bef aft) (hw : Rewritten b b'' s o q bef aft) :
    R b''.orderIndex b''.restingAll := by
  rw [hw.index]
  have hentry : (o :: b'.restingAll).map Order.entry
      = (o.setQuantity q :: b'.restingAll).map Order.entry := rfl
  exact hR.perm (hR.congr (hR.perm h hr.restingAll) hentry) (hw.restingAll hr).symm

end IndexRelation

/-! ### The invariant -/

/-- The index of the book is exact. -/
structure IndexExact (b : OrderBook P) : Prop where
  wf : BookWF b
  tracks : Tracks b.orderIndex b.restingAll

lemma IndexExact.empty : IndexExact (OrderBook.empty : OrderBook P) :=
  ⟨BookWF.empty, Tracks.empty⟩

namespace IndexExact

variable {b : OrderBook P}

lemma addOrder (h : IndexExact b) {o : Order P} (ho : o.id ∉ b.restingIds) :
    IndexExact (addOrder b o) := by
  refine ⟨wf_addOrder h.wf o, ?_⟩
  rw [orderIndex_addOrder]
  exact (h.tracks.insert ho).perm (restingAll_addOrder h.wf o).symm

lemma matched (h : IndexExact b) (o : Order P) : IndexExact (matched b o) :=
  ⟨wf_matched h.wf o, Tracks.indexRelation.matched h.tracks h.wf o⟩

/-- A submitted order keeps the index exact unless its remainder rests beside an order of the
same id that the loop did not meet. -/
lemma submitOrder (h : IndexExact b) {o : Order P}
    (ho : Rests b o → o.id ∉ (unmet b o).map Order.id) : IndexExact (submitOrder b o).2 := by
  rw [submitOrder_eq h.wf]
  split_ifs with hr hrests
  · exact h
  · refine (h.matched o).addOrder ?_
    rw [OrderBook.restingIds, ((hrests.restingAll_matched h.wf).map Order.id).mem_iff]
    exact ho hrests
  · exact h.matched o

lemma removed (h : IndexExact b) {b' : OrderBook P} {s : Side} {o : Order P}
    {bef aft : List (Order P)} (hr : Removed b b' s o bef aft) :
    IndexExact b' ∧ o.id ∉ b'.restingIds :=
  ⟨⟨hr.wf, Tracks.indexRelation.removed h.tracks hr⟩,
    (List.nodup_cons.mp (h.tracks.perm hr.restingAll).nodup).1⟩

lemma rewritten (h : IndexExact b) {b' b'' : OrderBook P} {s : Side} {o : Order P} {q : UInt64}
    {bef aft : List (Order P)} (hr : Removed b b' s o bef aft)
    (hw : Rewritten b b'' s o q bef aft) : IndexExact b'' :=
  ⟨hw.wf, Tracks.indexRelation.rewritten h.tracks hr hw⟩

lemma cancelOrder (h : IndexExact b) (id : UInt64) : IndexExact (cancelOrder b id).2 := by
  rcases cancelOrder_cases h.wf id with ⟨heq, -⟩ | ⟨s, o, bef, aft, -, -, hr⟩
  · rwa [heq]
  · exact (h.removed hr).1

lemma modifyOrder (h : IndexExact b) (counter id : UInt64) (p : P) (q : UInt64) :
    IndexExact (modifyOrder b counter id p q).2.1 := by
  rcases modifyOrder_cases h.wf counter id p q with
    ⟨heq, -⟩ | ⟨s, o, bef, aft, hid, -, hr, hcase⟩
  · rwa [heq]
  · obtain ⟨hex, hfree⟩ := h.removed hr
    rcases hcase with ⟨-, heq⟩ | ⟨-, -, -, b', heq, hw⟩ | ⟨-, -, heq⟩
    · rwa [heq]
    · rw [heq]
      exact h.rewritten hr hw
    · rw [heq]
      refine hex.submitOrder fun _ hmem => hfree ?_
      rw [OrderBook.restingIds, ((restingAll_eligible hex.wf _).map Order.id).mem_iff,
        List.map_append, hid]
      exact List.mem_append_right _ hmem

/-- An id with no order where the index points rests nowhere. -/
lemma not_mem_restingIds (h : IndexExact b) {id : UInt64}
    (hnone : ∀ s p, b.orderIndex.lookup id = some ⟨s, p⟩ →
      ∀ o ∈ b.resting s, ¬ (o.id = id ∧ o.price = p)) : id ∉ b.restingIds := by
  intro hid
  obtain ⟨s, o, ho, rfl⟩ := OrderBook.mem_restingIds.mp hid
  obtain rfl := (h.wf s).side_of_mem ho
  have hlook := h.tracks.lookup_of_mem (OrderBook.mem_restingAll.mpr ⟨_, ho⟩)
  exact hnone _ _ hlook o ho ⟨rfl, rfl⟩

/-- On an exact index a cancellation misses only an id that is not resting. -/
lemma cancelOrder_spec (h : IndexExact b) (id : UInt64) :
    (id ∉ b.restingIds ∧ Leviathan.cancelOrder b id = (false, b))
      ∨ ∃ s o bef aft, o.id = id ∧ (Leviathan.cancelOrder b id).1 = true
          ∧ Removed b (Leviathan.cancelOrder b id).2 s o bef aft := by
  rcases cancelOrder_cases h.wf id with ⟨heq, hnone⟩ | hsome
  · exact Or.inl ⟨h.not_mem_restingIds hnone, heq⟩
  · exact Or.inr hsome

/-- Two resting orders of one id are the same. -/
lemma eq_of_id_eq (h : IndexExact b) {o o' : Order P} (ho : o ∈ b.restingAll)
    (ho' : o' ∈ b.restingAll) (hid : o.id = o'.id) : o = o' :=
  List.inj_on_of_nodup_map h.tracks.nodup ho ho' hid

/-- **One call** with a fresh id keeps the index exact. -/
lemma call (h : IndexExact b) (c : Call P) (hc : FreshIds b c) : IndexExact (call b c).2 := by
  cases c with
  | addOrder o => exact h.addOrder hc
  | submitOrder o =>
      refine h.submitOrder fun _ hmem => hc ?_
      rw [OrderBook.restingIds, ((restingAll_eligible h.wf o).map Order.id).mem_iff,
        List.map_append]
      exact List.mem_append_right _ hmem
  | cancelOrder id => exact h.cancelOrder id
  | modifyOrder counter id p q => exact h.modifyOrder counter id p q

end IndexExact

/-- Runs with fresh ids keep the index exact. -/
lemma indexExact_after {cs : List (Call P)}
    (h : Machine.Guarded call FreshIds OrderBook.empty cs) : IndexExact (after cs) :=
  h.invariant IndexExact (fun _ c hb hc => hb.call c hc) IndexExact.empty

/-- What is unique and holds of the head price of a side in good order is the head price. -/
lemma head?_spec {s : Side} {m : SideMap P} (h : SideWF s m) {Best : P → Prop}
    (hbest : ∀ p, (∃ o ∈ orders m, o.price = p) → (∀ o ∈ orders m, ¬ s.before o.price p) → Best p)
    (hmem : ∀ p, Best p → ∃ o ∈ orders m, o.price = p)
    (huniq : ∀ p q, Best p → Best q → p = q) :
    (∀ p, m.head?.map Prod.fst = some p ↔ Best p)
      ∧ (m.head?.map Prod.fst = none ↔ orders m = []) := by
  have hsome : ∀ p, m.head?.map Prod.fst = some p → Best p := fun p hp =>
    hbest p (h.head?_eq_some hp).1 (h.head?_eq_some hp).2
  refine ⟨fun p => ⟨hsome p, fun hp => ?_⟩, h.head?_eq_none⟩
  cases hb : m.head?.map Prod.fst with
  | none =>
      obtain ⟨o, ho, -⟩ := hmem p hp
      rw [h.head?_eq_none.mp hb] at ho
      simp at ho
  | some q => rw [huniq q p (hsome q hb) hp]

/-- The best bid is the greatest price of the resting buys. -/
lemma bestBid_spec {b : OrderBook P} (h : BookWF b) :
    (∀ p, bestBid b = some p ↔ IsGreatest {x | ∃ o ∈ b.resting .buy, o.price = x} p)
      ∧ (bestBid b = none ↔ b.resting .buy = []) := by
  refine head?_spec (h .buy) (fun p hex hall => ⟨hex, ?_⟩) (fun p hp => hp.1)
    (fun p q hp hq => hp.unique hq)
  rintro x ⟨o, ho, rfl⟩
  exact not_lt.mp (hall o ho)

/-- The best ask is the least price of the resting sells. -/
lemma bestAsk_spec {b : OrderBook P} (h : BookWF b) :
    (∀ p, bestAsk b = some p ↔ IsLeast {x | ∃ o ∈ b.resting .sell, o.price = x} p)
      ∧ (bestAsk b = none ↔ b.resting .sell = []) := by
  refine head?_spec (h .sell) (fun p hex hall => ⟨hex, ?_⟩) (fun p hp => hp.1)
    (fun p q hp hq => hp.unique hq)
  rintro x ⟨o, ho, rfl⟩
  exact not_lt.mp (hall o ho)

/-- The level an index entry points to. -/
lemma IndexExact.lookup_iff {b : OrderBook P} (h : IndexExact b) (id : UInt64) (s : Side) (p : P) :
    b.orderIndex.lookup id = some ⟨s, p⟩ ↔ ∃ q, (p, q) ∈ b.side s ∧ ∃ o ∈ q, o.id = id := by
  rw [h.tracks.lookup, List.mem_map]
  constructor
  · rintro ⟨o, ho, heq⟩
    obtain ⟨rfl, hloc⟩ := Prod.mk.inj heq
    obtain ⟨rfl, rfl⟩ := OrderLocation.mk.inj hloc
    obtain ⟨t, ht⟩ := OrderBook.mem_restingAll.mp ho
    obtain rfl := (h.wf t).side_of_mem ht
    obtain ⟨q, hq, hoq⟩ := (h.wf o.side).mem_level ht
    exact ⟨q, hq, o, hoq, rfl⟩
  · rintro ⟨q, hq, o, ho, rfl⟩
    obtain ⟨rfl, rfl⟩ := (h.wf s).home (p, q) hq o ho
    exact ⟨o, OrderBook.mem_restingAll.mpr ⟨_, mem_orders.mpr ⟨_, hq, ho⟩⟩, rfl⟩

omit [LinearOrder P] in
lemma length_orders (m : SideMap P) : (orders m).length = (m.map fun l => l.2.length).sum := by
  rw [orders, List.length_flatMap]

/-- **The index and the book correspond exactly** after every call of a run that brings only
ids which are not resting at that moment. -/
theorem index_exact (cs : List (Call P))
    (h : Machine.Guarded call FreshIds OrderBook.empty cs) :
    (after cs).restingIds.Nodup
      ∧ (∀ id s p, (after cs).orderIndex.lookup id = some ⟨s, p⟩
          ↔ ∃ q, (p, q) ∈ (after cs).side s ∧ ∃ o ∈ q, o.id = id)
      ∧ totalOrderCount (after cs)
          = ((after cs).bids.map fun l => l.2.length).sum
            + ((after cs).asks.map fun l => l.2.length).sum
      ∧ ((∀ p, bestBid (after cs) = some p
            ↔ IsGreatest {x | ∃ o ∈ (after cs).resting .buy, o.price = x} p)
          ∧ (bestBid (after cs) = none ↔ (after cs).resting .buy = []))
      ∧ ((∀ p, bestAsk (after cs) = some p
            ↔ IsLeast {x | ∃ o ∈ (after cs).resting .sell, o.price = x} p)
          ∧ (bestAsk (after cs) = none ↔ (after cs).resting .sell = [])) := by
  have hex := indexExact_after h
  refine ⟨hex.tracks.nodup, hex.lookup_iff, ?_, bestBid_spec hex.wf, bestAsk_spec hex.wf⟩
  rw [totalOrderCount, hex.tracks.card_keys, OrderBook.restingAll, List.length_append]
  exact congrArg₂ (· + ·) (length_orders _) (length_orders _)

/-- In the sample book the index of order 3 points to the asks at 102. -/
theorem index_exact_sample :
    (after sampleCalls).orderIndex.lookup 3 = some ⟨.sell, 102⟩
      ∧ totalOrderCount (after sampleCalls) = 5 := by
  have h := index_exact sampleCalls (by decide)
  exact ⟨(h.2.1 3 .sell 102).mpr
      ⟨[⟨3, .sell, 102, 7, 2, .limit⟩], by decide, _, List.mem_cons_self, rfl⟩,
    h.2.2.1.trans (by decide)⟩

/-! ### Ids that no call brings -/

omit [LinearOrder P] in
/-- The id an add or a submit carries. -/
def Call.Brings (id : UInt64) : Call P → Prop
  | .addOrder o => o.id = id
  | .submitOrder o => o.id = id
  | _ => False

/-- A trade names an id. -/
def Trade.Names (id : UInt64) (t : Trade P) : Prop := t.buyOrderId = id ∨ t.sellOrderId = id

instance (id : UInt64) (t : Trade P) : Decidable (t.Names id) :=
  inferInstanceAs (Decidable (_ ∨ _))

omit [LinearOrder P] in
lemma Order.tradeWith_names {o m : Order P} {n : ℕ} {id : UInt64} :
    (o.tradeWith m n).Names id ↔ o.id = id ∨ m.id = id := by
  rw [Order.tradeWith]
  cases o.side with
  | buy => exact Iff.rfl
  | sell => exact or_comm

lemma mem_restingIds_of_eligible {b : OrderBook P} {o m : Order P} (hm : m ∈ eligible b o) :
    m.id ∈ b.restingIds :=
  OrderBook.mem_restingIds.mpr ⟨_, m, List.mem_of_mem_filter hm, rfl⟩

lemma mem_restingIds_addOrder {b : OrderBook P} (h : BookWF b) {o : Order P} {id : UInt64} :
    id ∈ (addOrder b o).restingIds ↔ id = o.id ∨ id ∈ b.restingIds := by
  rw [OrderBook.restingIds, ((restingAll_addOrder h o).map Order.id).mem_iff]
  exact List.mem_cons

lemma mem_restingIds_matched {b : OrderBook P} (h : BookWF b) {o : Order P} {id : UInt64}
    (hid : id ∈ (matched b o).restingIds) : id ∈ b.restingIds := by
  rw [OrderBook.restingIds, ((restingAll_matched h o).map Order.id).mem_iff, List.map_append,
    map_id_of_map_entry (map_entry_keep _ _)] at hid
  rw [OrderBook.restingIds, ((restingAll_eligible h o).map Order.id).mem_iff, List.map_append]
  rcases List.mem_append.mp hid with hid | hid
  · exact List.mem_append_left _ (List.map_subset _ (List.drop_subset _ _) hid)
  · exact List.mem_append_right _ hid

lemma mem_restingIds_submitOrder {b : OrderBook P} (h : BookWF b) {o : Order P} {id : UInt64}
    (hid : id ∈ (submitOrder b o).2.restingIds) : id = o.id ∨ id ∈ b.restingIds := by
  rw [submitOrder_eq h] at hid
  split_ifs at hid
  · exact Or.inr hid
  · rcases (mem_restingIds_addOrder (wf_matched h o)).mp hid with hid | hid
    · exact Or.inl hid
    · exact Or.inr (mem_restingIds_matched h hid)
  · exact Or.inr (mem_restingIds_matched h hid)

lemma names_submitOrder {b : OrderBook P} (h : BookWF b) {o : Order P} {id : UInt64}
    {t : Trade P} (ht : t ∈ (submitOrder b o).1) (hid : t.Names id) :
    id = o.id ∨ id ∈ b.restingIds := by
  rw [submitOrder_eq h] at ht
  split_ifs at ht
  · simp at ht
  all_goals
    obtain ⟨f, hf, rfl⟩ := List.mem_map.mp ht
    rcases Order.tradeWith_names.mp hid with rfl | rfl
    · exact Or.inl rfl
    · exact Or.inr (mem_restingIds_of_eligible (mem_of_mem_allot _ hf))

lemma Removed.mem_restingIds {b b' : OrderBook P} {s : Side} {o : Order P}
    {bef aft : List (Order P)} (h : Removed b b' s o bef aft) {id : UInt64} :
    id ∈ b.restingIds ↔ id = o.id ∨ id ∈ b'.restingIds := by
  rw [OrderBook.restingIds, (h.restingAll.map Order.id).mem_iff]
  exact List.mem_cons

/-- **One call** leaves no id resting, and names none in a trade, that was not resting before
and that it does not bring itself. -/
lemma ids_call {b : OrderBook P} (h : BookWF b) (c : Call P) {id : UInt64}
    (hb : id ∉ b.restingIds) (hc : ¬ c.Brings id) :
    id ∉ (call b c).2.restingIds ∧ ∀ t ∈ (call b c).1.tradeList, ¬ t.Names id := by
  cases c with
  | addOrder o =>
      refine ⟨fun hid => ?_, by simp [call, Response.tradeList]⟩
      rcases (mem_restingIds_addOrder h).mp hid with heq | hid
      · exact hc heq.symm
      · exact hb hid
  | submitOrder o =>
      refine ⟨fun hid => ?_, fun t ht hid => ?_⟩
      · rcases mem_restingIds_submitOrder h hid with heq | hid
        · exact hc heq.symm
        · exact hb hid
      · rcases names_submitOrder h ht hid with heq | hid
        · exact hc heq.symm
        · exact hb hid
  | cancelOrder i =>
      refine ⟨fun hid => ?_, by simp [call, Response.tradeList]⟩
      rcases cancelOrder_cases h i with ⟨heq, -⟩ | ⟨s, o, bef, aft, -, -, hr⟩
      · exact hb (by rwa [call, heq] at hid)
      · exact hb (hr.mem_restingIds.mpr (Or.inr hid))
  | modifyOrder counter i p q =>
      rcases modifyOrder_cases h counter i p q with
        ⟨heq, -⟩ | ⟨s, o, bef, aft, hid, -, hr, hcase⟩
      · simp only [call, heq]
        exact ⟨hb, by simp [Response.tradeList]⟩
      · have hb' : ¬ (id = o.id ∨ id ∈ (cancelOrder b i).2.restingIds) :=
          fun h' => hb (hr.mem_restingIds.mpr h')
        rcases hcase with ⟨-, heq⟩ | ⟨-, -, -, b', heq, hw⟩ | ⟨-, -, heq⟩
        · simp only [call, heq]
          exact ⟨fun h' => hb' (Or.inr h'), by simp [Response.tradeList]⟩
        · simp only [call, heq]
          refine ⟨fun h' => hb' ?_, by simp [Response.tradeList]⟩
          rw [OrderBook.restingIds, ((hw.restingAll hr).map Order.id).mem_iff] at h'
          exact List.mem_cons.mp h'
        · simp only [call, heq]
          rw [hid] at hb'
          exact ⟨fun h' => hb' (mem_restingIds_submitOrder hr.wf h'),
            fun t ht h' => hb' (names_submitOrder hr.wf ht h')⟩

/-- **A whole run** stays silent about an id that is not resting and that none of its calls
brings. -/
lemma ids_run {b : OrderBook P} (h : BookWF b) {id : UInt64} (hb : id ∉ b.restingIds)
    {cs : List (Call P)} (hcs : ∀ c ∈ cs, ¬ c.Brings id) :
    id ∉ (Machine.final call b cs).restingIds
      ∧ ∀ r ∈ Machine.answers call b cs, ∀ t ∈ r.tradeList, ¬ t.Names id := by
  induction cs generalizing b with
  | nil => exact ⟨hb, by simp⟩
  | cons c cs ih =>
      obtain ⟨hb', ht⟩ := ids_call h c hb (hcs c List.mem_cons_self)
      obtain ⟨hfin, hans⟩ := ih (wf_call h c) hb' fun c' hc' => hcs c' (List.mem_cons_of_mem _ hc')
      refine ⟨hfin, ?_⟩
      intro r hr
      rcases List.mem_cons.mp hr with rfl | hr
      · exact ht
      · exact hans r hr

end Leviathan
