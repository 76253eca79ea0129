import Leviathan.Book.Index
import Leviathan.Book.Priority

/-!
Orders that cross nothing.

A LIMIT order that crosses no resting order is added whole (`submitOrder_of_no_cross`), so a flow
of such orders leaves the book that adding them one by one leaves, `addAll os`:

* `queueAt_addAll`: the queue of a price holds the orders of that side and price, as they came;
* `addAll_perm`: for two orders of arrival of the same orders the queues are permutations of each
  other, and the queries of the book, which see the queues as bags, agree.
-/

namespace Leviathan

open Allotment

variable {P : Type*} [LinearOrder P]

lemma submitOrder_of_no_cross {b : OrderBook P} (h : BookWF b) {o : Order P}
    (ht : o.type = .limit) (hq : o.quantity ≠ 0)
    (hno : ∀ m ∈ b.resting o.side.opposite, ¬ o.Crosses m.price) :
    submitOrder b o = ([], addOrder b o) := by
  have helig : eligible b o = [] := List.filter_eq_nil_iff.mpr fun m hm => by simpa using hno m hm
  have hlevel : ∀ l ∈ b.side o.side.opposite, ¬ o.Crosses l.1 := by
    intro l hl
    obtain ⟨m, q, hq⟩ := List.exists_cons_of_ne_nil ((h o.side.opposite).ne_nil l hl)
    have hm : m ∈ l.2 := hq ▸ List.mem_cons_self
    rw [← ((h o.side.opposite).home l hl m hm).2]
    exact hno m (mem_orders.mpr ⟨l, hl, hm⟩)
  have hdrained : drained b o = b.side o.side.opposite := by
    have hnone : (b.side o.side.opposite).filter (fun l => o.Crosses l.1) = [] :=
      List.filter_eq_nil_iff.mpr fun l hl => by simpa using hlevel l hl
    have hall : (b.side o.side.opposite).filter (fun l => ¬ o.Crosses l.1)
        = b.side o.side.opposite :=
      List.filter_eq_self.mpr fun l hl => by simpa using hlevel l hl
    rw [drained, hnone, hall, drain, List.nil_append]
  have hmatched : matched b o = b := by
    rw [matched, hdrained, helig, usedUp_nil, eraseIds_nil]
    cases o.side <;> rfl
  have hrefused : ¬ Refused b o := by
    rintro (h0 | ⟨hf, -⟩)
    · exact hq h0
    · rw [ht] at hf
      cases hf
  have hpos : o.qty ≠ 0 := Order.quantity_ne_zero_iff.mp hq
  have hrests : Rests b o := by
    refine ⟨ht, ?_⟩
    rw [helig, total_nil]
    omega
  rw [submitOrder_eq h, if_neg hrefused, if_pos hrests, hmatched, fills, remainder, helig,
    allot_nil, total_nil, Nat.sub_zero, Order.cutTo_self, List.map_nil]

/-! ### The book that orders added one by one leave -/

/-- The orders added to an empty book. -/
def addAll (os : List (Order P)) : OrderBook P := os.foldl addOrder OrderBook.empty

lemma addAll_concat (os : List (Order P)) (o : Order P) :
    addAll (os ++ [o]) = addOrder (addAll os) o := by
  rw [addAll, List.foldl_append]
  rfl

lemma wf_addAll (os : List (Order P)) : BookWF (addAll os) := by
  induction os using List.reverseRecOn with
  | nil => exact BookWF.empty
  | append_singleton os o ih =>
      rw [addAll_concat]
      exact wf_addOrder ih o

lemma queueAt_addOrder {b : OrderBook P} (h : BookWF b) (o : Order P) (s : Side) (p : P) :
    (addOrder b o).queueAt s p
      = b.queueAt s p ++ [o].filter fun x => x.side = s ∧ x.price = p := by
  by_cases hs : s = o.side
  · subst hs
    have hside : (addOrder b o).side o.side = pushBack o.side o (b.side o.side) := by
      rw [addOrder_eq, OrderBook.side_setIndex, OrderBook.side_setSide]
    rw [OrderBook.queueAt, hside, queueAt_pushBack (h o.side)]
    by_cases hp : p = o.price
    · simp [hp, OrderBook.queueAt]
    · have hp' : ¬ o.price = p := fun heq => hp heq.symm
      simp [hp, hp', OrderBook.queueAt]
  · have hs' : ¬ o.side = s := fun heq => hs heq.symm
    rw [OrderBook.queueAt, side_addOrder_of_ne b hs]
    simp [hs', OrderBook.queueAt]

/-- **The queue of a price** holds the orders of its side and price, as they came. -/
lemma queueAt_addAll (os : List (Order P)) (s : Side) (p : P) :
    (addAll os).queueAt s p = os.filter fun o => o.side = s ∧ o.price = p := by
  induction os using List.reverseRecOn with
  | nil => cases s <;> rfl
  | append_singleton os o ih =>
      rw [addAll_concat, queueAt_addOrder (wf_addAll os), ih, List.filter_append]

lemma mem_resting_addAll {os : List (Order P)} {s : Side} {o : Order P} :
    o ∈ (addAll os).resting s ↔ o ∈ os ∧ o.side = s := by
  have hq : (addAll os).queueAt s o.price
      = ((addAll os).resting s).filter fun x => x.price = o.price :=
    ((wf_addAll os s).filter_orders o.price).symm
  rw [queueAt_addAll] at hq
  have hmem := congrArg (o ∈ ·) hq
  simpa using hmem.symm

lemma restingAll_addAll (os : List (Order P)) : (addAll os).restingAll.Perm os := by
  induction os using List.reverseRecOn with
  | nil => exact List.Perm.refl _
  | append_singleton os o ih =>
      rw [addAll_concat]
      refine (restingAll_addOrder (wf_addAll os) o).trans ?_
      exact (ih.cons o).trans (List.perm_append_singleton o os).symm

lemma indexExact_addAll {os : List (Order P)} (h : (os.map Order.id).Nodup) :
    IndexExact (addAll os) := by
  induction os using List.reverseRecOn with
  | nil => exact IndexExact.empty
  | append_singleton os o ih =>
      rw [List.map_append, List.nodup_append] at h
      obtain ⟨hos, -, hdis⟩ := h
      rw [addAll_concat]
      refine (ih hos).addOrder fun hmem => ?_
      rw [OrderBook.restingIds, ((restingAll_addAll os).map Order.id).mem_iff] at hmem
      exact hdis o.id hmem o.id (by simp) rfl

/-! ### Books with the same queues up to order -/

omit [LinearOrder P] in
/-- The aggregate of a level sees its queue as a bag. -/
lemma aggregate_perm (p : P) {q q' : List (Order P)} (h : q.Perm q') :
    aggregate p q = aggregate p q' := by
  have hcomm : ∀ x ∈ q, ∀ y ∈ q, ∀ agg : UInt64,
      agg + x.quantity + y.quantity = agg + y.quantity + x.quantity := fun x _ y _ agg => by
    rw [UInt64.add_assoc, UInt64.add_comm x.quantity, ← UInt64.add_assoc]
  rw [aggregate, aggregate, h.length_eq, h.foldl_eq' hcomm]

/-- Two sides whose queues agree up to order have the same levels. -/
lemma levels_perm {s : Side} {m m' : SideMap P} (h : SideWF s m) (h' : SideWF s m')
    (hq : ∀ p, ((OrderedMap.find? s.before p m).getD []).Perm
      ((OrderedMap.find? s.before p m').getD [])) :
    List.Forall₂ (fun l l' => l.1 = l'.1 ∧ l.2.Perm l'.2) m m' := by
  -- with the queues as bags the two sides are the same map
  have hfind : ∀ p, (OrderedMap.find? s.before p m).map Multiset.ofList
      = (OrderedMap.find? s.before p m').map Multiset.ofList := by
    intro p
    have hne : OrderedMap.find? s.before p m ≠ some [] := fun hf =>
      h.ne_nil _ ((OrderedMap.mem_iff_find? h.sorted (v := [])).mpr hf) rfl
    have hne' : OrderedMap.find? s.before p m' ≠ some [] := fun hf =>
      h'.ne_nil _ ((OrderedMap.mem_iff_find? h'.sorted (v := [])).mpr hf) rfl
    have hp := hq p
    cases hf : OrderedMap.find? s.before p m with
    | none =>
        cases hf' : OrderedMap.find? s.before p m' with
        | none => rfl
        | some q' =>
            rw [hf, hf', Option.getD_none, Option.getD_some] at hp
            rw [List.nil_perm.mp hp] at hf'
            exact (hne' hf').elim
    | some q =>
        cases hf' : OrderedMap.find? s.before p m' with
        | none =>
            rw [hf, hf', Option.getD_none, Option.getD_some] at hp
            rw [List.perm_nil.mp hp] at hf
            exact (hne hf).elim
        | some q' =>
            rw [hf, hf', Option.getD_some, Option.getD_some] at hp
            exact congrArg some (Multiset.coe_eq_coe.mpr hp)
  have hkeys : ∀ l : SideMap P,
      (l.map (Prod.map id Multiset.ofList)).map Prod.fst = l.map Prod.fst := fun l => by
    rw [List.map_map]
    rfl
  have heq : m.map (Prod.map id Multiset.ofList) = m'.map (Prod.map id Multiset.ofList) := by
    refine OrderedMap.Sorted.ext (h.sorted.of_keys _ (hkeys m ▸ List.Sublist.refl _))
      (h'.sorted.of_keys _ (hkeys m' ▸ List.Sublist.refl _)) fun p => ?_
    rw [OrderedMap.find?_map, OrderedMap.find?_map, hfind]
  have hall : List.Forall₂ (· = ·) (m.map (Prod.map id Multiset.ofList))
      (m'.map (Prod.map id Multiset.ofList)) := by
    rw [heq]
    exact List.forall₂_refl _
  refine (List.forall₂_map_right_iff.mp (List.forall₂_map_left_iff.mp hall)).imp fun l l' hl => ?_
  obtain ⟨hkey, hval⟩ := Prod.mk.inj hl
  exact ⟨hkey, Multiset.coe_eq_coe.mp hval⟩

omit [LinearOrder P] in
lemma depthFromMap_perm {m m' : SideMap P}
    (h : List.Forall₂ (fun l l' => l.1 = l'.1 ∧ l.2.Perm l'.2) m m') (maxSize : ℕ)
    (maxLevels : UInt64) :
    depthFromMap maxSize m maxLevels = depthFromMap maxSize m' maxLevels := by
  have htake : ∀ n, (m.take n).map (fun l => aggregate l.1 l.2)
      = (m'.take n).map fun l => aggregate l.1 l.2 := by
    intro n
    refine List.forall₂_eq_eq_eq ▸ List.forall₂_map_left_iff.mpr (List.forall₂_map_right_iff.mpr ?_)
    refine (List.forall₂_take n h).imp ?_
    rintro ⟨p, q⟩ ⟨p', q'⟩ ⟨hp : p = p', hq⟩
    exact hp ▸ aggregate_perm p hq
  rw [depthFromMap, depthFromMap, htake]

/-- **The order of arrival** of orders with distinct ids shows in the order inside the queues
alone. -/
lemma addAll_perm {os os' : List (Order P)} (h : os.Perm os') (hid : (os.map Order.id).Nodup) :
    (∀ s p, ((addAll os).queueAt s p).Perm ((addAll os').queueAt s p))
      ∧ totalOrderCount (addAll os) = totalOrderCount (addAll os')
      ∧ bestBid (addAll os) = bestBid (addAll os') ∧ bestAsk (addAll os) = bestAsk (addAll os')
      ∧ ∀ maxSize s maxLevels,
        getDepth maxSize (addAll os) s maxLevels = getDepth maxSize (addAll os') s maxLevels := by
  have hqueue : ∀ s p, ((addAll os).queueAt s p).Perm ((addAll os').queueAt s p) := by
    intro s p
    rw [queueAt_addAll, queueAt_addAll]
    exact h.filter _
  have hlevels : ∀ s, List.Forall₂ (fun l l' => l.1 = l'.1 ∧ l.2.Perm l'.2) ((addAll os).side s)
      ((addAll os').side s) := fun s => levels_perm (wf_addAll os s) (wf_addAll os' s) (hqueue s)
  have hhead : ∀ {m m' : SideMap P},
      List.Forall₂ (fun l l' => l.1 = l'.1 ∧ l.2.Perm l'.2) m m' →
        m.head?.map Prod.fst = m'.head?.map Prod.fst := by
    intro m m' hm
    cases hm with
    | nil => rfl
    | cons hl _ => exact congrArg some hl.1
  have hcount : ∀ {l : List (Order P)}, (l.map Order.id).Nodup →
      totalOrderCount (addAll l) = l.length := fun {l} hl =>
    (indexExact_addAll hl).tracks.card_keys.trans (restingAll_addAll l).length_eq
  refine ⟨hqueue, ?_, hhead (hlevels .buy), hhead (hlevels .sell), fun maxSize s n => ?_⟩
  · rw [hcount hid, hcount ((h.map Order.id).nodup_iff.mp hid), h.length_eq]
  · cases s with
    | buy => exact depthFromMap_perm (hlevels .buy) maxSize n
    | sell => exact depthFromMap_perm (hlevels .sell) maxSize n

end Leviathan
