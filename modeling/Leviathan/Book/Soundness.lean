import Leviathan.Book.Index

/-!
The defensive exits of the book are never taken, whatever its callers do.

When ids are reused the index is no longer exact, but each of its entries still tells the
truth:

* `PointsInto ix l`: every entry of the index is the entry of some order of the bag.  An order
  that leaves the bag takes the entry of its id with it, so no entry is left without an order: an
  `IndexRelation`, as `Tracks` is.
* `IndexSound`: the book is in good order and its index points into it, the invariant of all
  runs (`indexSound_after`).
* `Turns`: the states a matching loop passes through, all of them without an empty level
  (`Turns.ne_nil`).
* `defensive_exits` collects what follows for the partial operations of the source.
-/

namespace Leviathan

open Allotment

variable {P : Type*}

/-- Every entry of the index is the entry of an order of the bag. -/
def PointsInto (ix : OrderIndex P) (l : List (Order P)) : Prop :=
  ∀ id loc, ix.lookup id = some loc → (id, loc) ∈ l.map Order.entry

namespace PointsInto

variable {ix : OrderIndex P} {l l' : List (Order P)} {o : Order P}

lemma empty : PointsInto (∅ : OrderIndex P) [] := fun id loc h => by simp at h

lemma perm (h : PointsInto ix l) (hp : l.Perm l') : PointsInto ix l' := by
  intro id loc hl
  exact (hp.map Order.entry).subset (h id loc hl)

lemma congr (h : PointsInto ix l) (he : l.map Order.entry = l'.map Order.entry) :
    PointsInto ix l' := by
  intro id loc hl
  rw [← he]
  exact h id loc hl

/-- The entry written for an order points to it, whatever stood there before. -/
lemma insert (h : PointsInto ix l) : PointsInto (ix.insert o.id o.location) (o :: l) := by
  intro id loc hl
  rw [List.map_cons]
  by_cases hid : id = o.id
  · subst hid
    rw [Finmap.lookup_insert] at hl
    rw [← Option.some.inj hl]
    exact List.mem_cons_self
  · rw [Finmap.lookup_insert_of_ne _ hid] at hl
    exact List.mem_cons_of_mem _ (h id loc hl)

/-- An order that leaves takes the entry of its id with it. -/
lemma erase (h : PointsInto ix (o :: l)) : PointsInto (ix.erase o.id) l := by
  intro id loc hl
  have hid : id ≠ o.id := by
    rintro rfl
    rw [Finmap.lookup_erase] at hl
    simp at hl
  rw [Finmap.lookup_erase_ne hid] at hl
  have hmem := h id loc hl
  rw [List.map_cons] at hmem
  rcases List.mem_cons.mp hmem with heq | hmem
  · exact absurd (Prod.mk.inj heq).1 hid
  · exact hmem

lemma indexRelation : IndexRelation (PointsInto (P := P)) := ⟨perm, congr, erase⟩

end PointsInto

/-! ### The turns of a matching loop -/

/-- The loop comes from the one state to the other in some number of turns. -/
def Turns (stops : P → P → Bool) (record : Order P → Order P → UInt64 → Trade P)
    (skipPriceCheck : Bool) : Matching P → Matching P → Prop :=
  Relation.ReflTransGen fun s s' => matchStep stops record skipPriceCheck s = some s'

/-- A turn leaves no level empty: `removeFrontOrder` drops the level it empties. -/
lemma matchStep_ne_nil {stops : P → P → Bool} {record : Order P → Order P → UInt64 → Trade P}
    {skip : Bool} {s s' : Matching P} (hne : ∀ l ∈ s.levels, l.2 ≠ [])
    (h : matchStep stops record skip s = some s') : ∀ l ∈ s'.levels, l.2 ≠ [] := by
  obtain ⟨best, resting, behind, worse, hlv, -, -, -, -, hcase⟩ := matchStep_eq_some h
  have hworse : ∀ l ∈ worse, l.2 ≠ [] := fun l hl =>
    hne l (hlv ▸ List.mem_cons_of_mem _ hl)
  rcases hcase with ⟨-, hlv', -⟩ | ⟨-, hlv', -⟩
  · rw [hlv']
    split_ifs with hb
    · exact hworse
    · exact List.forall_mem_cons.mpr ⟨hb, hworse⟩
  · rw [hlv']
    exact List.forall_mem_cons.mpr ⟨List.cons_ne_nil _ _, hworse⟩

lemma Turns.ne_nil {stops : P → P → Bool} {record : Order P → Order P → UInt64 → Trade P}
    {skip : Bool} {s s' : Matching P} (h : Turns stops record skip s s')
    (hne : ∀ l ∈ s.levels, l.2 ≠ []) : ∀ l ∈ s'.levels, l.2 ≠ [] := by
  induction h with
  | refl => exact hne
  | tail _ hturn ih => exact matchStep_ne_nil ih hturn

/-! ### The invariant -/

variable [LinearOrder P]

/-- The book is in good order and its index points into it. -/
structure IndexSound (b : OrderBook P) : Prop where
  wf : BookWF b
  points : PointsInto b.orderIndex b.restingAll

lemma IndexSound.empty : IndexSound (OrderBook.empty : OrderBook P) :=
  ⟨BookWF.empty, PointsInto.empty⟩

namespace IndexSound

variable {b : OrderBook P}

lemma addOrder (h : IndexSound b) (o : Order P) : IndexSound (addOrder b o) := by
  refine ⟨wf_addOrder h.wf o, ?_⟩
  rw [orderIndex_addOrder]
  exact h.points.insert.perm (restingAll_addOrder h.wf o).symm

lemma matched (h : IndexSound b) (o : Order P) : IndexSound (matched b o) :=
  ⟨wf_matched h.wf o, PointsInto.indexRelation.matched h.points h.wf o⟩

lemma submitOrder (h : IndexSound b) (o : Order P) : IndexSound (submitOrder b o).2 := by
  rw [submitOrder_eq h.wf]
  split_ifs
  · exact h
  · exact (h.matched o).addOrder _
  · exact h.matched o

lemma removed (h : IndexSound b) {b' : OrderBook P} {s : Side} {o : Order P}
    {bef aft : List (Order P)} (hr : Removed b b' s o bef aft) : IndexSound b' :=
  ⟨hr.wf, PointsInto.indexRelation.removed h.points hr⟩

lemma rewritten (h : IndexSound b) {b' b'' : OrderBook P} {s : Side} {o : Order P} {q : UInt64}
    {bef aft : List (Order P)} (hr : Removed b b' s o bef aft)
    (hw : Rewritten b b'' s o q bef aft) : IndexSound b'' :=
  ⟨hw.wf, PointsInto.indexRelation.rewritten h.points hr hw⟩

lemma cancelOrder (h : IndexSound b) (id : UInt64) : IndexSound (cancelOrder b id).2 := by
  rcases cancelOrder_cases h.wf id with ⟨heq, -⟩ | ⟨s, o, bef, aft, -, -, hr⟩
  · rwa [heq]
  · exact h.removed hr

lemma modifyOrder (h : IndexSound b) (counter id : UInt64) (p : P) (q : UInt64) :
    IndexSound (modifyOrder b counter id p q).2.1 := by
  rcases modifyOrder_cases h.wf counter id p q with
    ⟨heq, -⟩ | ⟨s, o, bef, aft, -, -, hr, hcase⟩
  · rwa [heq]
  · rcases hcase with ⟨-, heq⟩ | ⟨-, -, -, b', heq, hw⟩ | ⟨-, -, heq⟩
    · rw [heq]
      exact h.removed hr
    · rw [heq]
      exact h.rewritten hr hw
    · rw [heq]
      exact (h.removed hr).submitOrder _

/-- **One call**, whatever ids and quantities it uses. -/
lemma call (h : IndexSound b) (c : Call P) : IndexSound (call b c).2 := by
  cases c with
  | addOrder o => exact h.addOrder o
  | submitOrder o => exact h.submitOrder o
  | cancelOrder id => exact h.cancelOrder id
  | modifyOrder counter id p q => exact h.modifyOrder counter id p q

/-- Where an entry points there is an order of its id. -/
lemma exists_order (h : IndexSound b) {id : UInt64} {s : Side} {p : P}
    (hl : b.orderIndex.lookup id = some ⟨s, p⟩) : ∃ o ∈ b.resting s, o.id = id ∧ o.price = p := by
  obtain ⟨o, ho, heq⟩ := List.mem_map.mp (h.points id _ hl)
  obtain ⟨hid, hloc⟩ := Prod.mk.inj heq
  obtain ⟨t, ht⟩ := OrderBook.mem_restingAll.mp ho
  have hside : o.side = s := congrArg OrderLocation.side hloc
  have hprice : o.price = p := congrArg OrderLocation.price hloc
  obtain rfl : t = s := ((h.wf t).side_of_mem ht).symm.trans hside
  exact ⟨o, ht, hid, hprice⟩

/-- On a sound index a lookup that succeeds is followed by one that does. -/
lemma found (h : IndexSound b) {id : UInt64} {s : Side} {p : P}
    (hl : b.orderIndex.lookup id = some ⟨s, p⟩) :
    ∃ o bef aft, findOrderInDeque s (b.side s) p id = some o
      ∧ Located s (b.side s) p id o bef aft := by
  obtain ⟨x, hx, hxid⟩ := h.exists_order hl
  cases hf : findOrderInDeque s (b.side s) p id with
  | none => exact absurd hxid (((h.wf s).findOrderInDeque_eq_none p id).1.mp hf x hx)
  | some o =>
      obtain ⟨bef, aft, hloc⟩ := (h.wf s).located hf
      exact ⟨o, bef, aft, rfl, hloc⟩

/-- An id with no order where the index points is not in the index. -/
lemma lookup_eq_none (h : IndexSound b) {id : UInt64}
    (hnone : ∀ s p, b.orderIndex.lookup id = some ⟨s, p⟩ →
      ∀ o ∈ b.resting s, ¬ (o.id = id ∧ o.price = p)) : b.orderIndex.lookup id = none := by
  cases hl : b.orderIndex.lookup id with
  | none => rfl
  | some loc =>
      obtain ⟨x, hx, hxid⟩ := h.exists_order hl
      exact absurd hxid (hnone _ _ hl x hx)

/-- A cancellation succeeds exactly on the ids in the index. -/
lemma cancelOrder_iff (h : IndexSound b) (id : UInt64) :
    (Leviathan.cancelOrder b id).1 = true ↔ (b.orderIndex.lookup id).isSome := by
  rcases cancelOrder_cases h.wf id with ⟨heq, hnone⟩ | ⟨s, o, bef, aft, rfl, hok, hr⟩
  · simp [heq, h.lookup_eq_none hnone]
  · simp [hok, hr.lookup]

/-- A modification is denied exactly for the ids that are not in the index. -/
lemma modifyOrder_eq_none (h : IndexSound b) (counter id : UInt64) (p : P) (q : UInt64) :
    (Leviathan.modifyOrder b counter id p q).1 = none ↔ b.orderIndex.lookup id = none := by
  rcases modifyOrder_cases h.wf counter id p q with
    ⟨heq, hnone⟩ | ⟨s, o, bef, aft, rfl, -, hr, hcase⟩
  · rw [heq]
    exact iff_of_true rfl (h.lookup_eq_none hnone)
  · refine iff_of_false ?_ (by simp [hr.lookup])
    rcases hcase with ⟨-, heq⟩ | ⟨-, -, -, b', heq, -⟩ | ⟨-, -, heq⟩ <;> simp [heq]

end IndexSound

/-- Every run keeps the index sound. -/
lemma indexSound_after (cs : List (Call P)) : IndexSound (after cs) :=
  Machine.invariant IndexSound (fun _ c h => h.call c) IndexSound.empty cs

/-- **No run reaches a defensive exit.**  After any calls: no level is empty, nor is one in any
state a matching loop passes through from there, so `front()` always has an order to return;
every order is at home; every entry of the index points to a level with an order of its id, so
`eraseFromSide` and the lookup of `modifyOrder` succeed, a cancellation succeeds exactly on the
ids in the index and a modification is denied exactly to the others.  The resubmission of
`modifyOrder` runs its loop on the book after a cancellation, itself the book of a run. -/
theorem defensive_exits (cs : List (Call P)) :
    (∀ s, ∀ l ∈ (after cs).side s, l.2 ≠ [])
      ∧ (∀ stops record skip incoming s t,
          Turns stops record skip ⟨incoming, (after cs).side s, (after cs).orderIndex, []⟩ t →
            ∀ l ∈ t.levels, l.2 ≠ [])
      ∧ (∀ s, ∀ l ∈ (after cs).side s, ∀ o ∈ l.2, o.side = s ∧ o.price = l.1)
      ∧ (∀ id s p, (after cs).orderIndex.lookup id = some ⟨s, p⟩ →
          (∃ q, (p, q) ∈ (after cs).side s ∧ ∃ o ∈ q, o.id = id)
            ∧ eraseFromSide s ((after cs).side s) p id ≠ none
            ∧ findOrderInDeque s ((after cs).side s) p id ≠ none)
      ∧ (∀ id, (cancelOrder (after cs) id).1 = true ↔ ((after cs).orderIndex.lookup id).isSome)
      ∧ (∀ counter id p q, (modifyOrder (after cs) counter id p q).1 = none
          ↔ (after cs).orderIndex.lookup id = none) := by
  have h := indexSound_after cs
  refine ⟨fun s => (h.wf s).ne_nil, ?_, fun s => (h.wf s).home, ?_, h.cancelOrder_iff,
    h.modifyOrder_eq_none⟩
  · intro stops record skip incoming s t ht
    exact ht.ne_nil (h.wf s).ne_nil
  · intro id s p hl
    obtain ⟨o, bef, aft, hf, hloc⟩ := h.found hl
    obtain ⟨m', hm', -⟩ := hloc.erase
    obtain ⟨x, hx, hid, rfl⟩ := h.exists_order hl
    obtain ⟨q, hq, hxq⟩ := (h.wf s).mem_level hx
    exact ⟨⟨q, hq, x, hxq, hid⟩, by simp [hm'], by simp [hf]⟩

end Leviathan
