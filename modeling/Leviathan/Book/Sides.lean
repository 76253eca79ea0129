import Mathlib.Data.List.Sort
import Mathlib.Order.RelClasses
import Leviathan.Foundations.Allotment
import Leviathan.Book.OrderBook

/-!
Well-formed sides of a book and the flat view of them.

* `SideWF s m`: the levels come in the strict order of the side's comparator, none is
  empty, and every order stands on its own side in the level of its own price.
* `orders m` is the flat view, one list in price-time priority.  On a well-formed side the
  operations of the book read there as operations on that list: `orders_pushBack` is an
  ordered insertion, `orders_eraseFromSide` the removal of one order, and
  `orders_writeQuantity` a write to one order.
* `OrderBook.side` and `OrderBook.setSide` name the two maps by their side, so that what
  holds of both is said once.
-/

namespace Leviathan

variable {P : Type*}

/-! ### The two sides by name -/

/-- The other side. -/
def Side.opposite : Side → Side
  | .buy => .sell
  | .sell => .buy

lemma Side.opposite_ne (s : Side) : s.opposite ≠ s := by
  cases s <;> simp [Side.opposite]

lemma Side.eq_or_eq_opposite (s t : Side) : t = s ∨ t = s.opposite := by
  cases s <;> cases t <;> simp [Side.opposite]

namespace OrderBook

/-- The map of a side. -/
def side (book : OrderBook P) : Side → SideMap P
  | .buy => book.bids
  | .sell => book.asks

/-- The book with another map on a side. -/
def setSide (book : OrderBook P) (s : Side) (m : SideMap P) : OrderBook P :=
  match s with
  | .buy => { book with bids := m }
  | .sell => { book with asks := m }

/-- The book with another index. -/
def setIndex (book : OrderBook P) (ix : OrderIndex P) : OrderBook P :=
  { book with orderIndex := ix }

/-- The orders resting on a side, in price-time priority. -/
def resting (book : OrderBook P) (s : Side) : List (Order P) := orders (book.side s)

lemma ext_side {b b' : OrderBook P} (h : ∀ s, b.side s = b'.side s)
    (hix : b.orderIndex = b'.orderIndex) : b = b' := by
  obtain ⟨bids, asks, ix⟩ := b
  obtain ⟨bids', asks', ix'⟩ := b'
  obtain rfl : bids = bids' := h .buy
  obtain rfl : asks = asks' := h .sell
  obtain rfl : ix = ix' := hix
  rfl

lemma resting_congr {book book' : OrderBook P} {s : Side} (h : book'.side s = book.side s) :
    book'.resting s = book.resting s := by
  rw [resting, resting, h]

section SetSide

variable (book : OrderBook P) (s : Side) (m : SideMap P) (ix : OrderIndex P)

@[simp] lemma side_setSide : (book.setSide s m).side s = m := by cases s <;> rfl

@[simp] lemma side_setSide_opposite :
    (book.setSide s m).side s.opposite = book.side s.opposite := by
  cases s <;> rfl

@[simp] lemma side_opposite_setSide : (book.setSide s.opposite m).side s = book.side s := by
  cases s <;> rfl

@[simp] lemma orderIndex_setSide : (book.setSide s m).orderIndex = book.orderIndex := by
  cases s <;> rfl

@[simp] lemma side_setIndex (t : Side) : (book.setIndex ix).side t = book.side t := by
  cases t <;> rfl

@[simp] lemma orderIndex_setIndex : (book.setIndex ix).orderIndex = ix := rfl

lemma side_setSide_of_ne {s t : Side} (h : t ≠ s) : (book.setSide s m).side t = book.side t := by
  cases s <;> cases t <;> first | rfl | exact absurd rfl h

end SetSide

end OrderBook

/-! ### The flat view -/

@[simp] lemma orders_nil : orders ([] : SideMap P) = [] := rfl

@[simp] lemma orders_cons (p : P) (q : List (Order P)) (m : SideMap P) :
    orders ((p, q) :: m) = q ++ orders m := rfl

@[simp] lemma orders_append (m m' : SideMap P) : orders (m ++ m') = orders m ++ orders m' :=
  List.flatMap_append

lemma mem_orders {m : SideMap P} {o : Order P} : o ∈ orders m ↔ ∃ l ∈ m, o ∈ l.2 :=
  List.mem_flatMap

variable [LinearOrder P]

instance (s : Side) : IsStrictTotalOrder P s.before := by
  cases s with
  | buy => exact inferInstanceAs (IsStrictTotalOrder P (· > ·))
  | sell => exact inferInstanceAs (IsStrictTotalOrder P (· < ·))

/-- Orders in price priority. -/
def OrderBefore (s : Side) (a b : Order P) : Prop := s.before a.price b.price

instance (s : Side) : DecidableRel (OrderBefore s (P := P)) := fun a b =>
  inferInstanceAs (Decidable (s.before a.price b.price))

/-- A side in good order. -/
structure SideWF (s : Side) (m : SideMap P) : Prop where
  sorted : OrderedMap.Sorted s.before m
  ne_nil : ∀ l ∈ m, l.2 ≠ []
  home : ∀ l ∈ m, ∀ o ∈ l.2, o.side = s ∧ o.price = l.1

namespace SideWF

variable {s : Side} {m : SideMap P}

lemma nil (s : Side) : SideWF s ([] : SideMap P) :=
  ⟨OrderedMap.sorted_nil _, by simp, by simp⟩

lemma sublist {m' : SideMap P} (h : SideWF s m) (hsub : m'.Sublist m) : SideWF s m' :=
  ⟨h.sorted.sublist hsub, fun l hl => h.ne_nil l (hsub.subset hl),
    fun l hl => h.home l (hsub.subset hl)⟩

/-- The levels of a well-formed side, around the place of a price. -/
lemma split (h : SideWF s m) (p : P) :
    ∃ pre post, OrderedMap.Around s.before p pre post
      ∧ (m = pre ++ post ∨ ∃ q, m = pre ++ (p, q) :: post) :=
  OrderedMap.exists_split h.sorted p

/-- A queue written at the place of a price leaves a side in good order. -/
lemma insert {p : P} {pre post : SideMap P} (hk : OrderedMap.Around s.before p pre post)
    (hpre : SideWF s pre) (hpost : SideWF s post) {q : List (Order P)} (hq : q ≠ [])
    (hhome : ∀ o ∈ q, o.side = s ∧ o.price = p) : SideWF s (pre ++ (p, q) :: post) := by
  have hmem : ∀ l ∈ pre ++ (p, q) :: post, l ∈ pre ∨ l = (p, q) ∨ l ∈ post := by
    intro l hl
    simpa using hl
  refine ⟨hk.sorted hpre.sorted hpost.sorted q, ?_, ?_⟩
  · intro l hl
    rcases hmem l hl with hl | rfl | hl
    · exact hpre.ne_nil l hl
    · exact hq
    · exact hpost.ne_nil l hl
  · intro l hl
    rcases hmem l hl with hl | rfl | hl
    · exact hpre.home l hl
    · exact hhome
    · exact hpost.home l hl

lemma side_of_mem (h : SideWF s m) {o : Order P} (ho : o ∈ orders m) : o.side = s := by
  obtain ⟨l, hl, ho⟩ := mem_orders.mp ho
  exact (h.home l hl o ho).1

/-- An order stands in the level of its own price. -/
lemma mem_level (h : SideWF s m) {o : Order P} (ho : o ∈ orders m) :
    ∃ q, (o.price, q) ∈ m ∧ o ∈ q := by
  obtain ⟨⟨p, q⟩, hl, ho⟩ := mem_orders.mp ho
  obtain rfl : o.price = p := (h.home _ hl o ho).2
  exact ⟨q, hl, ho⟩

/-- The queue of a price holds exactly the orders of that price. -/
lemma mem_find? (h : SideWF s m) {o : Order P} {p : P} {q : List (Order P)}
    (hq : OrderedMap.find? s.before p m = some q) :
    o ∈ q ↔ o ∈ orders m ∧ o.price = p := by
  have hmem := (OrderedMap.mem_iff_find? h.sorted).mpr hq
  constructor
  · intro ho
    exact ⟨mem_orders.mpr ⟨_, hmem, ho⟩, (h.home _ hmem o ho).2⟩
  · rintro ⟨ho, rfl⟩
    obtain ⟨q', hq', ho'⟩ := h.mem_level ho
    rw [OrderedMap.mem_iff_find? h.sorted, hq] at hq'
    exact (Option.some.inj hq') ▸ ho'

/-- Selecting levels by price is selecting orders by price. -/
lemma orders_filter (h : SideWF s m) (c : P → Prop) [DecidablePred c] :
    orders (m.filter fun l => c l.1) = (orders m).filter fun o => c o.price := by
  induction m with
  | nil => rfl
  | cons l m ih =>
      obtain ⟨p, q⟩ := l
      have ih := ih (h.sublist (List.sublist_cons_self _ _))
      have hq : ∀ a ∈ q, a.price = p := fun a ha => (h.home (p, q) List.mem_cons_self a ha).2
      rw [orders_cons, List.filter_append, ← ih]
      by_cases hc : c p
      · have hall : q.filter (fun o => c o.price) = q :=
          List.filter_eq_self.mpr fun a ha => by simpa [hq a ha] using hc
        rw [List.filter_cons_of_pos (by simpa using hc), orders_cons, hall]
      · have hnone : q.filter (fun o => c o.price) = [] :=
          List.filter_eq_nil_iff.mpr fun a ha => by simpa [hq a ha] using hc
        rw [List.filter_cons_of_neg (by simpa using hc), hnone, List.nil_append]

/-- The queue of a price is the part of the flat view at that price. -/
lemma filter_orders (h : SideWF s m) (p : P) :
    (orders m).filter (fun o => o.price = p) = (OrderedMap.find? s.before p m).getD [] := by
  have hoff : ∀ {m' : SideMap P}, SideWF s m' → (∀ l ∈ m', l.1 ≠ p) →
      (orders m').filter (fun o => o.price = p) = [] := by
    intro m' hm' hne
    refine List.filter_eq_nil_iff.mpr ?_
    intro o ho
    obtain ⟨l, hl, ho⟩ := mem_orders.mp ho
    simpa [(hm'.home l hl o ho).2] using hne l hl
  have hne : ∀ {pre post : SideMap P}, OrderedMap.Around s.before p pre post →
      (∀ l ∈ pre, l.1 ≠ p) ∧ ∀ l ∈ post, l.1 ≠ p := by
    intro pre post hk
    exact ⟨fun l hl heq => irrefl_of s.before p (heq ▸ hk.1 l hl),
      fun l hl heq => irrefl_of s.before p (heq ▸ hk.2 l hl)⟩
  obtain ⟨pre, post, hk, rfl | ⟨q, rfl⟩⟩ := h.split p
  · have hpre := hoff (h.sublist (List.sublist_append_left _ _)) (hne hk).1
    have hpost := hoff (h.sublist (List.sublist_append_right _ _)) (hne hk).2
    rw [orders_append, List.filter_append, hpre, hpost, OrderedMap.find?_gap hk]
    rfl
  · have hpre := hoff (h.sublist (List.sublist_append_left _ _)) (hne hk).1
    have hpost := hoff (h.sublist ((List.sublist_cons_self _ _).trans
      (List.sublist_append_right _ _))) (hne hk).2
    have hq : q.filter (fun o => o.price = p) = q :=
      List.filter_eq_self.mpr fun o ho => by
        simpa using (h.home (p, q) (by simp) o ho).2
    rw [orders_append, orders_cons, List.filter_append, List.filter_append, hpre, hpost, hq,
      OrderedMap.find?_split hk]
    simp

/-- **A side in good order is determined by its flat view.** -/
lemma ext {m' : SideMap P} (h : SideWF s m) (h' : SideWF s m') (heq : orders m = orders m') :
    m = m' := by
  have hsome : ∀ {m : SideMap P}, SideWF s m → ∀ p,
      OrderedMap.find? s.before p m ≠ some [] := by
    intro m hm p hp
    exact hm.ne_nil _ ((OrderedMap.mem_iff_find? hm.sorted).mpr hp) rfl
  refine h.sorted.ext h'.sorted fun p => ?_
  have hq : (OrderedMap.find? s.before p m).getD [] = (OrderedMap.find? s.before p m').getD [] := by
    rw [← h.filter_orders, ← h'.filter_orders, heq]
  have h1 := hsome h p
  have h2 := hsome h' p
  cases hf : OrderedMap.find? s.before p m with
  | none =>
      cases hf' : OrderedMap.find? s.before p m' with
      | none => rfl
      | some q' =>
          rw [hf, hf', Option.getD_none, Option.getD_some] at hq
          exact absurd (hq ▸ hf') h2
  | some q =>
      cases hf' : OrderedMap.find? s.before p m' with
      | none =>
          rw [hf, hf', Option.getD_none, Option.getD_some] at hq
          exact absurd (hq ▸ hf) h1
      | some q' =>
          rw [hf, hf', Option.getD_some, Option.getD_some] at hq
          rw [hq]

/-- The flat view is in price priority. -/
lemma orders_sorted (h : SideWF s m) :
    (orders m).Pairwise fun a b => ¬ OrderBefore s b a := by
  induction m with
  | nil => exact List.Pairwise.nil
  | cons l m ih =>
      obtain ⟨p, q⟩ := l
      have hm := ih (h.sublist (List.sublist_cons_self _ _))
      have hq : ∀ o ∈ q, o.price = p := fun o ho =>
        (h.home (p, q) List.mem_cons_self o ho).2
      rw [orders_cons]
      refine List.pairwise_append.mpr ⟨?_, hm, ?_⟩
      · refine List.pairwise_of_forall_mem_list ?_
        intro a ha b hb
        rw [OrderBefore, hq a ha, hq b hb]
        exact irrefl_of s.before p
      · intro a ha b hb
        obtain ⟨l, hl, hb⟩ := mem_orders.mp hb
        have hlt : s.before p l.1 := ((OrderedMap.sorted_cons _).mp h.sorted).1 l hl
        rw [OrderBefore, hq a ha, (h.home l (List.mem_cons_of_mem _ hl) b hb).2]
        exact asymm_of s.before hlt

/-- The best price is the price of the head level, and every resting order's price is that
or comes behind it. -/
lemma head?_eq_some (h : SideWF s m) {p : P} (hp : m.head?.map Prod.fst = some p) :
    (∃ o ∈ orders m, o.price = p) ∧ ∀ o ∈ orders m, ¬ s.before o.price p := by
  cases m with
  | nil => simp at hp
  | cons l m =>
      obtain ⟨p', q⟩ := l
      obtain rfl : p' = p := by simpa using hp
      obtain ⟨o, q', rfl⟩ := List.exists_cons_of_ne_nil (h.ne_nil _ List.mem_cons_self)
      have hop : o.price = p' := (h.home _ List.mem_cons_self o List.mem_cons_self).2
      refine ⟨⟨o, by simp, hop⟩, ?_⟩
      intro a ha
      have hs := h.orders_sorted
      rw [orders_cons, List.cons_append] at hs ha
      rcases List.mem_cons.mp ha with rfl | ha
      · rw [hop]
        exact irrefl_of s.before p'
      · have h1 := (List.pairwise_cons.mp hs).1 a ha
        rwa [OrderBefore, hop] at h1

lemma head?_eq_none (h : SideWF s m) : m.head?.map Prod.fst = none ↔ orders m = [] := by
  cases m with
  | nil => simp
  | cons l m =>
      obtain ⟨p, q⟩ := l
      have hq : q ≠ [] := h.ne_nil _ List.mem_cons_self
      simp [hq]

end SideWF

/-! ### The operations in the flat view -/

lemma orderedInsert_append {s : Side} {o : Order P} {l l' : List (Order P)}
    (hl : ∀ a ∈ l, ¬ OrderBefore s o a) (hl' : ∀ a ∈ l', OrderBefore s o a) :
    (l ++ l').orderedInsert (OrderBefore s) o = l ++ o :: l' := by
  induction l with
  | nil =>
      cases l' with
      | nil => rfl
      | cons a l' => exact List.orderedInsert_cons_of_le _ _ (hl' a List.mem_cons_self)
  | cons a l ih =>
      rw [List.cons_append, List.orderedInsert, if_neg (hl a List.mem_cons_self),
        ih fun b hb => hl b (List.mem_cons_of_mem a hb), List.cons_append]

lemma SideWF.around_orders {s : Side} {p : P} {pre post : SideMap P}
    (hk : OrderedMap.Around s.before p pre post) (hpre : SideWF s pre) (hpost : SideWF s post)
    {o : Order P} (hp : o.price = p) :
    (∀ a ∈ orders pre, ¬ OrderBefore s o a) ∧ ∀ a ∈ orders post, OrderBefore s o a := by
  constructor
  · intro a ha
    obtain ⟨l, hl, ha⟩ := mem_orders.mp ha
    rw [OrderBefore, (hpre.home l hl a ha).2, hp]
    exact asymm_of s.before (hk.1 l hl)
  · intro a ha
    obtain ⟨l, hl, ha⟩ := mem_orders.mp ha
    rw [OrderBefore, (hpost.home l hl a ha).2, hp]
    exact hk.2 l hl

/-- **Pushing back** puts the order behind every order of a price at least as good, and
leaves the side in good order. -/
lemma orders_pushBack {s : Side} {m : SideMap P} (h : SideWF s m) {o : Order P}
    (ho : o.side = s) :
    SideWF s (pushBack s o m)
      ∧ orders (pushBack s o m) = (orders m).orderedInsert (OrderBefore s) o := by
  obtain ⟨pre, post, hk, hm⟩ := h.split o.price
  have hpre : SideWF s pre := by
    rcases hm with rfl | ⟨q, rfl⟩ <;> exact h.sublist (List.sublist_append_left _ _)
  have hpost : SideWF s post := by
    rcases hm with rfl | ⟨q, rfl⟩
    · exact h.sublist (List.sublist_append_right _ _)
    · exact h.sublist ((List.sublist_cons_self _ _).trans (List.sublist_append_right _ _))
  obtain ⟨hbef, haft⟩ := SideWF.around_orders hk hpre hpost (o := o) rfl
  rcases hm with rfl | ⟨q, rfl⟩
  · rw [pushBack, OrderedMap.alter_gap hk]
    refine ⟨SideWF.insert hk hpre hpost (by simp) (by simp [ho]), ?_⟩
    rw [orders_append, orders_append, orderedInsert_append hbef haft]
    rfl
  · rw [pushBack, OrderedMap.alter_split hk]
    have hq : ∀ a ∈ q, a.side = s ∧ a.price = o.price := h.home (o.price, q) (by simp)
    refine ⟨SideWF.insert hk hpre hpost (by simp) ?_, ?_⟩
    · intro a ha
      rcases List.mem_append.mp ha with ha | ha
      · exact hq a ha
      · rw [List.mem_singleton.mp ha]
        exact ⟨ho, rfl⟩
    · have hbef' : ∀ a ∈ orders pre ++ q, ¬ OrderBefore s o a := by
        intro a ha
        rcases List.mem_append.mp ha with ha | ha
        · exact hbef a ha
        · rw [OrderBefore, (hq a ha).2]
          exact irrefl_of s.before _
      rw [orders_append, orders_append, orders_cons, orders_cons,
        ← List.append_assoc (orders pre) q, orderedInsert_append hbef' haft]
      simp

/-- The order a pointer into a level reaches, with what `eraseFromSide` and the write
through the pointer make of the flat view around it. -/
structure Located (s : Side) (m : SideMap P) (p : P) (id : UInt64) (o : Order P)
    (before after : List (Order P)) : Prop where
  orders_eq : orders m = before ++ o :: after
  id_eq : o.id = id
  price_eq : o.price = p
  first : ∀ a ∈ before, ¬ (a.id = id ∧ a.price = p)
  erase : ∃ m', eraseFromSide s m p id = some m' ∧ SideWF s m' ∧ orders m' = before ++ after
  write : ∀ n, SideWF s (writeQuantity s m p id n)
    ∧ orders (writeQuantity s m p id n) = before ++ o.setQuantity n :: after

omit [LinearOrder P] in
/-- A queue cut at its first order of an id, and what the erasure and the write do there. -/
lemma queue_split {q : List (Order P)} {id : UInt64} {o : Order P}
    (hfind : q.find? (·.id == id) = some o) :
    ∃ q₁ q₂, q = q₁ ++ o :: q₂ ∧ o.id = id ∧ (∀ a ∈ q₁, a.id ≠ id)
      ∧ q.any (·.id == id) = true
      ∧ q.eraseP (·.id == id) = q₁ ++ q₂
      ∧ ∀ n, q.replaceF (fun a => if a.id == id then some (a.setQuantity n) else none)
          = q₁ ++ o.setQuantity n :: q₂ := by
  induction q with
  | nil => simp at hfind
  | cons a q ih =>
      by_cases ha : a.id = id
      · obtain rfl : a = o := by simpa [ha] using hfind
        exact ⟨[], q, rfl, ha, by simp, by simp [ha], by simp [ha], fun n => by simp [ha]⟩
      · have hfind' : q.find? (·.id == id) = some o := by simpa [ha] using hfind
        obtain ⟨q₁, q₂, rfl, hid, hq₁, hany, hep, hrep⟩ := ih hfind'
        refine ⟨a :: q₁, q₂, rfl, hid, ?_, ?_, ?_, fun n => ?_⟩
        · intro b hb
          rcases List.mem_cons.mp hb with rfl | hb
          · exact ha
          · exact hq₁ b hb
        · simp [hid]
        · rw [List.eraseP_cons_of_neg (by simp [ha]), hep, List.cons_append]
        · rw [List.replaceF_cons_of_none _ (by simp [ha]), hrep, List.cons_append]

/-- **Locating an order**: what the lookup in a level finds is the first order of that id
and price, and the two mutations act on it alone. -/
lemma SideWF.located {s : Side} {m : SideMap P} (h : SideWF s m) {p : P} {id : UInt64}
    {o : Order P} (hfind : findOrderInDeque s m p id = some o) :
    ∃ before after, Located s m p id o before after := by
  obtain ⟨pre, post, hk, rfl | ⟨q, rfl⟩⟩ := h.split p
  · simp [findOrderInDeque, OrderedMap.find?_gap hk] at hfind
  have hpre : SideWF s pre := h.sublist (List.sublist_append_left _ _)
  have hpost : SideWF s post :=
    h.sublist ((List.sublist_cons_self _ _).trans (List.sublist_append_right _ _))
  have hhome : ∀ a ∈ q, a.side = s ∧ a.price = p := h.home (p, q) (by simp)
  rw [findOrderInDeque, OrderedMap.find?_split hk] at hfind
  obtain ⟨q₁, q₂, rfl, hid, hq₁, hany, hep, hrep⟩ := queue_split hfind
  refine ⟨orders pre ++ q₁, q₂ ++ orders post, ?_, hid, ?_, ?_, ?_, ?_⟩
  · simp
  · exact (hhome o (by simp)).2
  · rintro a ha ⟨hai, hap⟩
    rcases List.mem_append.mp ha with ha | ha
    · obtain ⟨l, hl, ha⟩ := mem_orders.mp ha
      have hlp := hk.1 l hl
      rw [← (hpre.home l hl a ha).2, hap] at hlp
      exact irrefl_of s.before p hlp
    · exact hq₁ a ha hai
  · simp only [eraseFromSide, OrderedMap.find?_split hk, hany, if_true, hep]
    cases hq : q₁ ++ q₂ with
    | nil =>
        refine ⟨_, rfl, ?_, ?_⟩
        · rw [OrderedMap.erase_split hk]
          exact h.sublist ((List.sublist_cons_self _ _).append_left _)
        · rw [OrderedMap.erase_split hk]
          obtain ⟨rfl, rfl⟩ := List.append_eq_nil_iff.mp hq
          simp
    | cons a q' =>
        refine ⟨_, rfl, ?_, ?_⟩
        · rw [OrderedMap.alter_split hk]
          refine SideWF.insert hk hpre hpost (by simp) ?_
          intro b hb
          rw [← hq] at hb
          exact hhome b (by
            rcases List.mem_append.mp hb with hb | hb <;> simp [hb])
        · rw [OrderedMap.alter_split hk, orders_append, orders_cons, ← hq]
          simp
  · intro n
    rw [writeQuantity, OrderedMap.alter_split hk, hrep]
    refine ⟨SideWF.insert hk hpre hpost (by simp) ?_, by simp⟩
    intro a ha
    rcases List.mem_append.mp ha with ha | ha
    · exact hhome a (by simp [ha])
    · rcases List.mem_cons.mp ha with rfl | ha
      · exact hhome o (by simp)
      · exact hhome a (by simp [ha])

/-- The lookup fails exactly when the level of that price holds no order of that id, and
then there is nothing to erase. -/
lemma SideWF.findOrderInDeque_eq_none {s : Side} {m : SideMap P} (h : SideWF s m) (p : P)
    (id : UInt64) :
    (findOrderInDeque s m p id = none ↔ ∀ o ∈ orders m, ¬ (o.id = id ∧ o.price = p))
      ∧ (findOrderInDeque s m p id = none → eraseFromSide s m p id = none) := by
  rw [findOrderInDeque, eraseFromSide]
  cases hq : OrderedMap.find? s.before p m with
  | none =>
      refine ⟨iff_of_true rfl ?_, fun _ => rfl⟩
      rintro o ho ⟨-, rfl⟩
      obtain ⟨q, hq', -⟩ := h.mem_level ho
      rw [OrderedMap.mem_iff_find? h.sorted, hq] at hq'
      simp at hq'
  | some q =>
      have hmem := fun o => h.mem_find? (o := o) hq
      constructor
      · rw [List.find?_eq_none]
        constructor
        · rintro hnone o ho ⟨hid, hp⟩
          exact hnone o ((hmem o).mpr ⟨ho, hp⟩) (by simpa using hid)
        · intro hall o ho hid
          obtain ⟨ho, hp⟩ := (hmem o).mp ho
          exact hall o ho ⟨by simpa using hid, hp⟩
      · intro hnone
        have hany : q.any (·.id == id) = false := by
          simpa [List.find?_eq_none] using hnone
        simp [hany]

end Leviathan
