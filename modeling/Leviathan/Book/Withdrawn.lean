import Leviathan.Book.Placement
import Leviathan.Book.Preview
import Leviathan.Book.Soundness
import Leviathan.Book.Timestamps

/-!
An order that never trades and is cancelled.

Two runs are compared, one with an order `x` in the book and one without it.

* `Without x b b'`: the book `b'` is the book `b` without the order `x`.  The queues differ by one
  entry, at any place of any of them, and the levels may differ by one.
* An incoming order that does not trade with `x` is filled before it comes to `x`
  (`Without.exists_queue`), so it sees the same queue on both books.  A fill-or-kill preview counts
  `x` as well, but where that decides it, the order it lets through trades with `x`.
* `Without.call` is one call on both books, `Without.run` all of them.
-/

namespace Leviathan

open Allotment

variable {P : Type*}

/-- The call carries the id. -/
def Call.Passes (id : UInt64) : Call P → Prop
  | .addOrder o => o.id = id
  | .submitOrder o => o.id = id
  | .cancelOrder i => i = id
  | .modifyOrder _ i _ _ => i = id

instance (id : UInt64) (c : Call P) : Decidable (c.Passes id) :=
  match c with
  | .addOrder o => inferInstanceAs (Decidable (o.id = id))
  | .submitOrder o => inferInstanceAs (Decidable (o.id = id))
  | .cancelOrder i => inferInstanceAs (Decidable (i = id))
  | .modifyOrder _ i _ _ => inferInstanceAs (Decidable (i = id))

/-- The quantity a call brings. -/
def Call.qty : Call P → ℕ
  | .addOrder o => o.qty
  | .submitOrder o => o.qty
  | .cancelOrder _ => 0
  | .modifyOrder _ _ _ q => q.toNat

/-! ### The quantity in the book -/

lemma total_perm {l l' : List (Order P)} (h : l.Perm l') : total Order.qty l = total Order.qty l' :=
  (h.map _).sum_eq

section Total

variable [LinearOrder P] {b : OrderBook P} (h : BookWF b)

include h

lemma total_addOrder (o : Order P) :
    total Order.qty (addOrder b o).restingAll = o.qty + total Order.qty b.restingAll := by
  rw [total_perm (restingAll_addOrder h o), total_cons]

lemma total_submitOrder_le (o : Order P) :
    total Order.qty (submitOrder b o).2.restingAll ≤ total Order.qty b.restingAll + o.qty := by
  have hmatched : total Order.qty (matched b o).restingAll ≤ total Order.qty b.restingAll := by
    rw [total_perm (restingAll_matched h o), total_perm (restingAll_eligible h o), total_append,
      total_append]
    have hkeep := total_keep_le Order.qty Order.cutTo (fun _ _ hn => Order.cutTo_qty hn) o.qty
      (eligible b o)
    omega
  have hrem : (remainder b o).qty ≤ o.qty := by
    rw [remainder, Order.cutTo_qty (Nat.sub_le _ _)]
    omega
  rw [submitOrder_eq h]
  split_ifs
  · exact Nat.le_add_right _ _
  · rw [total_addOrder (wf_matched h o)]
    omega
  · exact hmatched.trans (Nat.le_add_right _ _)

/-- A call adds no more quantity to the book than it brings. -/
lemma total_call_le (c : Call P) :
    total Order.qty (call b c).2.restingAll ≤ total Order.qty b.restingAll + c.qty := by
  cases c with
  | addOrder o =>
      simp only [call, Call.qty, total_addOrder h]
      omega
  | submitOrder o => exact total_submitOrder_le h o
  | cancelOrder id =>
      rcases cancelOrder_cases h id with ⟨heq, -⟩ | ⟨s, o, bef, aft, -, -, hr⟩
      · simp only [call, heq]
        exact Nat.le_add_right _ _
      · have hsplit := total_perm hr.restingAll
        rw [total_cons] at hsplit
        simp only [call, Call.qty]
        omega
  | modifyOrder counter id p q =>
      rcases modifyOrder_cases h counter id p q with
        ⟨heq, -⟩ | ⟨s, o, bef, aft, -, -, hr, hcase⟩
      · simp only [call, heq]
        exact Nat.le_add_right _ _
      · have hsplit := total_perm hr.restingAll
        rw [total_cons] at hsplit
        rcases hcase with ⟨-, heq⟩ | ⟨-, -, -, b', heq, hw⟩ | ⟨-, -, heq⟩
        · simp only [call, Call.qty, heq]
          omega
        · have hwrite := total_perm (hw.restingAll hr)
          have hq : (o.setQuantity q).qty = q.toNat := rfl
          rw [total_cons, hq] at hwrite
          simp only [call, Call.qty, heq]
          omega
        · have hsub := total_submitOrder_le hr.wf ⟨id, s, p, q, counter, .limit⟩
          have hq : (⟨id, s, p, q, counter, .limit⟩ : Order P).qty = q.toNat := rfl
          rw [hq] at hsub
          simp only [call, Call.qty, heq]
          omega

lemma total_eligible_le (o : Order P) :
    total Order.qty (eligible b o) ≤ total Order.qty b.restingAll := by
  rw [total_perm (restingAll_eligible h o), total_append]
  exact Nat.le_add_right _ _

end Total

/-! ### Lists with and without an entry -/

section Lists

variable {α : Type*} {c : α → Prop} [DecidablePred c]

omit [DecidablePred c] in
/-- A list is cut uniquely at its first entry of a kind. -/
lemma first_unique {l₁ l₁' l₂ l₂' : List α} {a a' : α} (h : l₁ ++ a :: l₂ = l₁' ++ a' :: l₂')
    (ha : c a) (ha' : c a') (h₁ : ∀ x ∈ l₁, ¬ c x) (h₁' : ∀ x ∈ l₁', ¬ c x) :
    l₁ = l₁' ∧ a = a' ∧ l₂ = l₂' := by
  induction l₁ generalizing l₁' with
  | nil =>
      cases l₁' with
      | nil =>
          obtain ⟨rfl, rfl⟩ := List.cons.inj h
          exact ⟨rfl, rfl, rfl⟩
      | cons y l₁' =>
          obtain ⟨rfl, -⟩ := List.cons.inj h
          exact absurd ha (h₁' a List.mem_cons_self)
  | cons y l₁ ih =>
      cases l₁' with
      | nil =>
          obtain ⟨rfl, -⟩ := List.cons.inj h
          exact absurd ha' (h₁ y List.mem_cons_self)
      | cons y' l₁' =>
          obtain ⟨rfl, hrest⟩ := List.cons.inj h
          obtain ⟨rfl, rfl, rfl⟩ := ih hrest (fun x hx => h₁ x (List.mem_cons_of_mem _ hx))
            fun x hx => h₁' x (List.mem_cons_of_mem _ hx)
          exact ⟨rfl, rfl, rfl⟩

/-- A list with at most one entry of a kind, cut there. -/
lemma exists_split_of_filter {l : List α} {x : α}
    (h : l.filter (fun a => c a) = [] ∨ l.filter (fun a => c a) = [x]) :
    ∃ A mid B, l = A ++ mid ++ B ∧ l.filter (fun a => ¬ c a) = A ++ B
      ∧ l.filter (fun a => c a) = mid ∧ ∀ a ∈ A ++ B, ¬ c a := by
  rcases h with h | h
  · have hnone : ∀ a ∈ l, ¬ c a := by simpa using List.filter_eq_nil_iff.mp h
    exact ⟨l, [], [], by simp, by simpa using hnone, h, by simpa using hnone⟩
  · obtain ⟨A, B, rfl, hA, hx, hB⟩ := List.filter_eq_cons_iff.mp h
    have hA : ∀ a ∈ A, ¬ c a := by simpa using hA
    have hB : ∀ a ∈ B, ¬ c a := by simpa using hB
    have hx : c x := by simpa using hx
    refine ⟨A, [x], B, by simp, ?_, h, fun a ha => (List.mem_append.mp ha).elim (hA a) (hB a)⟩
    rw [List.filter_append, List.filter_cons_of_neg (by simpa using hx),
      List.filter_eq_self.mpr (by simpa using hA), List.filter_eq_self.mpr (by simpa using hB)]

/-- Three pieces told apart by a test. -/
lemma filter_around {K mid R : List α} (hKR : ∀ a ∈ K ++ R, ¬ c a) (hmid : ∀ a ∈ mid, c a) :
    (K ++ mid ++ R).filter (fun a => c a) = mid
      ∧ (K ++ mid ++ R).filter (fun a => ¬ c a) = K ++ R := by
  have hK : ∀ a ∈ K, ¬ c a := fun a ha => hKR a (List.mem_append_left _ ha)
  have hR : ∀ a ∈ R, ¬ c a := fun a ha => hKR a (List.mem_append_right _ ha)
  have hnil : ∀ l : List α, (∀ a ∈ l, ¬ c a) →
      l.filter (fun a => c a) = [] ∧ l.filter (fun a => ¬ c a) = l := fun l hl =>
    ⟨List.filter_eq_nil_iff.mpr (by simpa using hl), List.filter_eq_self.mpr (by simpa using hl)⟩
  have hself : mid.filter (fun a => c a) = mid ∧ mid.filter (fun a => ¬ c a) = [] :=
    ⟨List.filter_eq_self.mpr (by simpa using hmid),
      List.filter_eq_nil_iff.mpr (by simpa using hmid)⟩
  constructor
  · rw [List.filter_append, List.filter_append, (hnil K hK).1, (hnil R hR).1, hself.1,
      List.nil_append, List.append_nil]
  · rw [List.filter_append, List.filter_append, (hnil K hK).2, (hnil R hR).2, hself.2,
      List.append_nil]

end Lists

/-- What a demand takes from a queue and leaves of it, with an entry in it that it does not come
to, and without that entry. -/
lemma served_around {x : Order P} {Q : ℕ} {A mid B : List (Order P)}
    (hids : ∀ a ∈ A ++ B, ¬ a.id = x.id) (hcover : mid = [] ∨ Q ≤ total Order.qty A) :
    allot Order.qty Q (A ++ B) = allot Order.qty Q (A ++ mid ++ B)
      ∧ usedUp Q (A ++ B) = usedUp Q (A ++ mid ++ B)
      ∧ ∃ K R, keep Order.qty Order.cutTo Q (A ++ mid ++ B) = K ++ mid ++ R
        ∧ keep Order.qty Order.cutTo Q (A ++ B) = K ++ R ∧ ∀ a ∈ K ++ R, ¬ a.id = x.id := by
  have hkept : ∀ l : List (Order P), (∀ a ∈ l, ¬ a.id = x.id) →
      ∀ a ∈ keep Order.qty Order.cutTo Q l, ¬ a.id = x.id := by
    intro l hl a ha
    rcases mem_keep _ _ ha with ha | ⟨a', ha', n, rfl⟩
    · exact hl a ha
    · exact hl a' ha'
  rcases hcover with rfl | hle
  · rw [List.append_nil]
    refine ⟨rfl, rfl, keep Order.qty Order.cutTo Q (A ++ B), [], ?_, ?_, ?_⟩
    · rw [List.append_nil, List.append_nil]
    · rw [List.append_nil]
    · rw [List.append_nil]
      exact hkept _ hids
  · have husedUp : ∀ m, usedUp Q (A ++ m) = usedUp Q A := fun m => by
      rw [usedUp, usedUp, spent_append_of_le Order.qty hle,
        List.take_append_of_le_length (spent_le_length Order.qty Q A)]
    rw [List.append_assoc, allot_append_of_le Order.qty hle, allot_append_of_le Order.qty hle,
      husedUp, husedUp, keep_append_of_le Order.qty Order.cutTo hle,
      keep_append_of_le Order.qty Order.cutTo hle]
    refine ⟨rfl, rfl, keep Order.qty Order.cutTo Q A, B, (List.append_assoc _ _ _).symm, rfl,
      fun a ha => ?_⟩
    rcases List.mem_append.mp ha with ha | ha
    · exact hkept A (fun a ha => hids a (List.mem_append_left _ ha)) a ha
    · exact hids a (List.mem_append_right _ ha)

/-! ### Two books -/

variable [LinearOrder P]

/-- The book `b'` is the book `b` without the order `x`, which stands in `b` once, where the index
says, with no other order of its id. -/
structure Without (x : Order P) (b b' : OrderBook P) : Prop where
  wf : BookWF b
  wf' : BookWF b'
  own : ∀ s, (b.resting s).filter (fun a => a.id = x.id) = [x].filter fun a => a.side = s
  others : ∀ s, b'.resting s = (b.resting s).filter fun a => ¬ a.id = x.id
  lookup : b.orderIndex.lookup x.id = some x.location
  index : b'.orderIndex = b.orderIndex.erase x.id

omit [LinearOrder P] in
lemma erase_insert_of_ne {ix : OrderIndex P} {id id' : UInt64} {loc : OrderLocation P}
    (h : id ≠ id') : (ix.insert id loc).erase id' = (ix.erase id').insert id loc := by
  refine Finmap.ext_lookup fun i => ?_
  by_cases hi' : i = id'
  · subst hi'
    rw [Finmap.lookup_erase, Finmap.lookup_insert_of_ne _ h.symm, Finmap.lookup_erase]
  · rw [Finmap.lookup_erase_ne hi']
    by_cases hi : i = id
    · subst hi
      rw [Finmap.lookup_insert, Finmap.lookup_insert]
    · rw [Finmap.lookup_insert_of_ne _ hi, Finmap.lookup_insert_of_ne _ hi,
        Finmap.lookup_erase_ne hi']

omit [LinearOrder P] in
lemma eraseIds_erase (d : List (Order P)) (ix : OrderIndex P) (id : UInt64) :
    eraseIds d (ix.erase id) = (eraseIds d ix).erase id := by
  induction d generalizing ix with
  | nil => rfl
  | cons a d ih => rw [eraseIds_cons, eraseIds_cons, Finmap.erase_erase, ih]

omit [LinearOrder P] in
lemma lookup_eraseIds_of_notMem {d : List (Order P)} {id : UInt64} (hd : ∀ a ∈ d, ¬ a.id = id)
    (ix : OrderIndex P) : (eraseIds d ix).lookup id = ix.lookup id := by
  induction d generalizing ix with
  | nil => rfl
  | cons a d ih =>
      have ha : id ≠ a.id := fun heq => hd a List.mem_cons_self heq.symm
      rw [eraseIds_cons, ih fun a' ha' => hd a' (List.mem_cons_of_mem _ ha'),
        Finmap.lookup_erase_ne ha]

/-- An id whose entry leads to no order of it. -/
lemma not_found {b : OrderBook P} (h : BookWF b) {id : UInt64}
    (hnone : ∀ s p, b.orderIndex.lookup id = some ⟨s, p⟩ →
      ∀ o ∈ b.resting s, ¬ (o.id = id ∧ o.price = p)) :
    cancelOrder b id = (false, b)
      ∧ ∀ counter p q, modifyOrder b counter id p q = (none, b, counter) := by
  have habsurd : ∀ {b' s o bef aft}, o.id = id → Removed b b' s o bef aft → False := by
    rintro b' s o bef aft rfl hr
    have ho : o ∈ b.resting s := by
      rw [hr.resting]
      exact List.mem_append_right _ List.mem_cons_self
    exact hnone s o.price hr.lookup o ho ⟨rfl, rfl⟩
  refine ⟨?_, fun counter p q => ?_⟩
  · rcases cancelOrder_cases h id with ⟨heq, -⟩ | ⟨s, o, bef, aft, hid, -, hr⟩
    · exact heq
    · exact (habsurd hid hr).elim
  · rcases modifyOrder_cases h counter id p q with ⟨heq, -⟩ | ⟨s, o, bef, aft, hid, -, hr, -⟩
    · exact heq
    · exact (habsurd hid hr).elim

namespace Without

variable {x : Order P} {b b' : OrderBook P}

/-- Adding another order. -/
lemma addOrder (h : Without x b b') {o : Order P} (ho : ¬ o.id = x.id) :
    Without x (addOrder b o) (addOrder b' o) := by
  have hother : ∀ (d : OrderBook P) s, s ≠ o.side →
      (Leviathan.addOrder d o).resting s = d.resting s := fun d s hs =>
    OrderBook.resting_congr (side_addOrder_of_ne d hs)
  refine ⟨wf_addOrder h.wf o, wf_addOrder h.wf' o, fun s => ?_, fun s => ?_, ?_, ?_⟩
  · by_cases hs : s = o.side
    · subst hs
      have hcomm : ∀ d : Order P → Bool, ((b.resting o.side).filter d).filter (fun a => a.id = x.id)
          = ([x].filter fun a => a.side = o.side).filter d := fun d => by
        rw [List.filter_comm, h.own]
      rw [resting_addOrder_eq_filter h.wf, List.filter_append,
        List.filter_cons_of_neg (by simpa using ho), hcomm, hcomm]
      by_cases hx : x.side = o.side
      · by_cases hb : OrderBefore o.side o x <;> simp [hx, hb]
      · simp [hx]
    · rw [hother b s hs, h.own]
  · by_cases hs : s = o.side
    · subst hs
      have hcomm : ∀ d : Order P → Bool,
          ((b.resting o.side).filter d).filter (fun a => ¬ a.id = x.id)
            = (b'.resting o.side).filter d := fun d => by
        rw [List.filter_comm, h.others]
      rw [resting_addOrder_eq_filter h.wf, resting_addOrder_eq_filter h.wf', List.filter_append,
        List.filter_cons_of_pos (by simpa using ho), hcomm, hcomm]
    · rw [hother b s hs, hother b' s hs, h.others]
  · have hid : x.id ≠ o.id := fun heq => ho heq.symm
    rw [orderIndex_addOrder, Finmap.lookup_insert_of_ne _ hid, h.lookup]
  · rw [orderIndex_addOrder, orderIndex_addOrder, h.index, erase_insert_of_ne ho]

/-- The queue an incoming order sees with and without `x`. -/
lemma exists_queue (h : Without x b b') (o : Order P) :
    ∃ A mid B, eligible b o = A ++ mid ++ B ∧ eligible b' o = A ++ B ∧ (mid = [] ∨ mid = [x])
      ∧ (eligible b o).filter (fun a => a.id = x.id) = mid ∧ ∀ a ∈ A ++ B, ¬ a.id = x.id := by
  have hown : (eligible b o).filter (fun a => a.id = x.id)
      = ([x].filter fun a => a.side = o.side.opposite).filter fun m => o.Crosses m.price := by
    rw [eligible, List.filter_comm, h.own]
  have hcase : (eligible b o).filter (fun a => a.id = x.id) = []
      ∨ (eligible b o).filter (fun a => a.id = x.id) = [x] := by
    rw [hown]
    by_cases hs : x.side = o.side.opposite
    · by_cases hc : o.Crosses x.price <;> simp [hs, hc]
    · simp [hs]
  obtain ⟨A, mid, B, heq, hothers, hmid, hids⟩ := exists_split_of_filter hcase
  refine ⟨A, mid, B, heq, ?_, hmid ▸ hcase, hmid, hids⟩
  rw [← hothers, eligible, eligible, h.others, List.filter_comm]

section Submit

variable {o : Order P} {A mid B : List (Order P)} (helig : eligible b o = A ++ mid ++ B)
  (helig' : eligible b' o = A ++ B)

include helig helig'

lemma total_eligible_le_of_without :
    total Order.qty (eligible b' o) ≤ total Order.qty (eligible b o) := by
  rw [helig, helig', total_append, total_append, total_append]
  omega

/-- The book after an order that is filled before it comes to `x`, or does not meet it. -/
lemma matched (h : Without x b b')
    (hfilter : (eligible b o).filter (fun a => a.id = x.id) = mid)
    (hids : ∀ a ∈ A ++ B, ¬ a.id = x.id) (hcover : mid = [] ∨ o.qty ≤ total Order.qty A) :
    Without x (matched b o) (matched b' o) := by
  obtain ⟨-, husedUp, K, R, hkeep, hkeep', hKR⟩ := served_around (Q := o.qty) hids hcover
  rw [← helig, ← helig'] at husedUp
  rw [← helig'] at hkeep'
  rw [← helig] at hkeep
  have hmid : ∀ a ∈ mid, a.id = x.id := fun a ha => by
    rw [← hfilter] at ha
    simpa using (List.mem_filter.mp ha).2
  obtain ⟨hown, hothers⟩ := filter_around hKR hmid
  have hinel : ∀ d : Order P → Bool, (ineligible b o).filter d
      = ((b.resting o.side.opposite).filter d).filter fun m => ¬ o.Crosses m.price := fun d => by
    rw [ineligible, List.filter_comm]
  refine ⟨wf_matched h.wf o, wf_matched h.wf' o, fun s => ?_, fun s => ?_, ?_, ?_⟩
  · rcases o.side.eq_or_eq_opposite s with rfl | rfl
    · rw [OrderBook.resting_congr (side_matched b o), h.own]
    · rw [resting_matched_opposite h.wf, hkeep, List.filter_append, hown, ← hfilter,
        ← List.filter_append, ← eligible_append_ineligible h.wf, h.own]
  · rcases o.side.eq_or_eq_opposite s with rfl | rfl
    · rw [OrderBook.resting_congr (side_matched b o), OrderBook.resting_congr (side_matched b' o),
        h.others]
    · rw [resting_matched_opposite h.wf, resting_matched_opposite h.wf', hkeep, hkeep',
        List.filter_append, hothers, hinel, ← h.others]
      rfl
  · rw [Leviathan.matched, OrderBook.orderIndex_setIndex, lookup_eraseIds_of_notMem, h.lookup]
    rw [← husedUp, helig']
    exact fun a ha => hids a (List.mem_of_mem_take ha)
  · rw [Leviathan.matched, Leviathan.matched, OrderBook.orderIndex_setIndex,
      OrderBook.orderIndex_setIndex, husedUp, h.index, eraseIds_erase]

/-- Such an order is filled alike, and what remains of it rests alike. -/
lemma sameFills (hids : ∀ a ∈ A ++ B, ¬ a.id = x.id)
    (hcover : mid = [] ∨ o.qty ≤ total Order.qty A) :
    fills b' o = fills b o
      ∧ (Rests b' o ↔ Rests b o) ∧ (Rests b o → remainder b' o = remainder b o) := by
  obtain ⟨hallot, -⟩ := served_around (Q := o.qty) hids hcover
  rw [← helig, ← helig'] at hallot
  have htotal : mid = [] → total Order.qty (eligible b' o) = total Order.qty (eligible b o) := by
    rintro rfl
    rw [helig, helig', List.append_nil]
  have hcovered : o.qty ≤ total Order.qty A → o.qty ≤ total Order.qty (eligible b o)
      ∧ o.qty ≤ total Order.qty (eligible b' o) := by
    rw [helig, helig', total_append, total_append, total_append]
    omega
  refine ⟨by rw [fills, fills, hallot], ?_, fun hr => ?_⟩
  · rcases hcover with hmid | hle
    · rw [Rests, Rests, htotal hmid]
    · obtain ⟨h1, h2⟩ := hcovered hle
      exact iff_of_false (fun hr => absurd hr.2 (not_lt.mpr h2)) fun hr =>
        absurd hr.2 (not_lt.mpr h1)
  · rcases hcover with hmid | hle
    · rw [remainder, remainder, htotal hmid]
    · exact absurd hr.2 (not_lt.mpr (hcovered hle).1)

/-- Where the preview denies an order with `x` counted, it denies it without. -/
lemma refused_of_refused (h : Without x b b') (hlt : total Order.qty b.restingAll < 2 ^ 64)
    (hr : Refused b o) : Refused b' o := by
  have hle : total Order.qty (eligible b' o) ≤ total Order.qty (eligible b o) :=
    total_eligible_le_of_without helig helig'
  have hlt' := (total_eligible_le h.wf o).trans_lt hlt
  rcases hr with h0 | ⟨hf, hcan⟩
  · exact Or.inl h0
  · by_cases hq : o.quantity = 0
    · exact Or.inl hq
    · have hnm : o.type ≠ .market := by simp [hf]
      refine Or.inr ⟨hf, Bool.eq_false_iff.mpr fun hcan' => ?_⟩
      rw [canFullyFill_iff_of_lt h.wf' hnm hq (hle.trans_lt hlt')] at hcan'
      rw [Bool.eq_false_iff, Ne, canFullyFill_iff_of_lt h.wf hnm hq hlt'] at hcan
      exact hcan (hcan'.trans hle)

/-- It lets the order through without `x` if it does with it and the order does not come to `x`. -/
lemma not_refused (h : Without x b b') (hlt : total Order.qty b.restingAll < 2 ^ 64)
    (hcover : mid = [] ∨ o.qty ≤ total Order.qty A) (hr : ¬ Refused b o) : ¬ Refused b' o := by
  have hle : total Order.qty (eligible b' o) ≤ total Order.qty (eligible b o) :=
    total_eligible_le_of_without helig helig'
  have hlt' := (total_eligible_le h.wf o).trans_lt hlt
  rintro (h0 | ⟨hf, hcan'⟩)
  · exact hr (Or.inl h0)
  · have hq : o.quantity ≠ 0 := fun h0 => hr (Or.inl h0)
    have hnm : o.type ≠ .market := by simp [hf]
    rw [Bool.eq_false_iff, Ne, canFullyFill_iff_of_lt h.wf' hnm hq (hle.trans_lt hlt')] at hcan'
    refine hr (Or.inr ⟨hf, Bool.eq_false_iff.mpr fun hcan => hcan' ?_⟩)
    rw [canFullyFill_iff_of_lt h.wf hnm hq hlt'] at hcan
    rw [helig']
    rcases hcover with hx | hA
    · rwa [helig, hx, List.append_nil] at hcan
    · rw [total_append]
      omega

omit helig' in
/-- An order that is let through and does not trade with `x` is filled in front of it. -/
lemma cover_of_not_names (h : Without x b b') (hmid : mid = [] ∨ mid = [x]) (hr : ¬ Refused b o)
    (ht : ∀ t ∈ (submitOrder b o).1, ¬ t.Names x.id) : mid = [] ∨ o.qty ≤ total Order.qty A := by
  refine hmid.imp_right fun hx => ?_
  by_contra hlt
  have hmem := mem_allot_of_lt Order.qty (not_le.mp hlt) x B
  rw [show A ++ x :: B = eligible b o by rw [helig, hx]; simp] at hmem
  have htrade : o.tradeWith x (min x.qty (o.qty - total Order.qty A)) ∈ (submitOrder b o).1 := by
    rw [submitOrder_eq h.wf, if_neg hr]
    exact List.mem_map_of_mem hmem
  exact ht _ htrade (Order.tradeWith_names.mpr (Or.inr rfl))

end Submit

/-- **Submitting** another order, which does not trade with `x`. -/
lemma submitOrder (h : Without x b b') {o : Order P} (ho : ¬ o.id = x.id)
    (hlt : total Order.qty b.restingAll < 2 ^ 64)
    (ht : ∀ t ∈ (submitOrder b o).1, ¬ t.Names x.id) :
    (Leviathan.submitOrder b' o).1 = (Leviathan.submitOrder b o).1
      ∧ Without x (Leviathan.submitOrder b o).2 (Leviathan.submitOrder b' o).2 := by
  obtain ⟨A, mid, B, helig, helig', hmid, hfilter, hids⟩ := h.exists_queue o
  by_cases hr : Refused b o
  · have hr' : Refused b' o := h.refused_of_refused helig helig' hlt hr
    rw [submitOrder_eq h.wf, submitOrder_eq h.wf', if_pos hr, if_pos hr']
    exact ⟨rfl, h⟩
  · have hcover := h.cover_of_not_names helig hmid hr ht
    have hmatched := h.matched helig helig' hfilter hids hcover
    obtain ⟨hfills, hrests, hrem⟩ := sameFills helig helig' hids hcover
    rw [submitOrder_eq h.wf, submitOrder_eq h.wf', if_neg hr,
      if_neg (h.not_refused helig helig' hlt hcover hr)]
    refine ⟨hfills, ?_⟩
    by_cases hrest : Rests b o
    · rw [if_pos hrest, if_pos (hrests.mpr hrest), hrem hrest]
      exact hmatched.addOrder ho
    · rw [if_neg hrest, if_neg fun hr' => hrest (hrests.mp hr')]
      exact hmatched

/-- The lookup of another id finds the same order in the same place on both books, or none. -/
lemma removed_cases (h : Without x b b') {id : UInt64} (hid : ¬ id = x.id) :
    (cancelOrder b id = (false, b) ∧ cancelOrder b' id = (false, b')
        ∧ ∀ counter p q, modifyOrder b counter id p q = (none, b, counter)
          ∧ modifyOrder b' counter id p q = (none, b', counter))
      ∨ ∃ s o bef aft, o.id = id ∧ (cancelOrder b id).1 = true ∧ (cancelOrder b' id).1 = true
          ∧ Removed b (cancelOrder b id).2 s o bef aft
          ∧ Removed b' (cancelOrder b' id).2 s o (bef.filter fun a => ¬ a.id = x.id)
            (aft.filter fun a => ¬ a.id = x.id) := by
  have hlookup : b'.orderIndex.lookup id = b.orderIndex.lookup id := by
    rw [h.index, Finmap.lookup_erase_ne hid]
  rcases cancelOrder_cases h.wf id with ⟨hc, hnone⟩ | ⟨s, o, bef, aft, rfl, hc, hr⟩
  · have hnone' : ∀ s p, b'.orderIndex.lookup id = some ⟨s, p⟩ →
        ∀ o ∈ b'.resting s, ¬ (o.id = id ∧ o.price = p) := by
      intro s p hl o ho
      rw [h.others] at ho
      exact hnone s p (hlookup ▸ hl) o (List.mem_of_mem_filter ho)
    obtain ⟨hc', hm'⟩ := not_found h.wf' hnone'
    exact Or.inl ⟨hc, hc', fun counter p q => ⟨(not_found h.wf hnone).2 counter p q,
      hm' counter p q⟩⟩
  · have hresting : b'.resting s = bef.filter (fun a => ¬ a.id = x.id)
        ++ o :: aft.filter fun a => ¬ a.id = x.id := by
      rw [h.others, hr.resting, List.filter_append, List.filter_cons_of_pos (by simpa using hid)]
    rcases cancelOrder_cases h.wf' o.id with ⟨-, hnone⟩ | ⟨s', o', bef', aft', hid', hc', hr'⟩
    · have ho : o ∈ b'.resting s := by
        rw [hresting]
        exact List.mem_append_right _ List.mem_cons_self
      exact absurd ⟨rfl, rfl⟩ (hnone s o.price (hlookup.trans hr.lookup) o ho)
    · have hplace := hr'.lookup
      rw [hid', hlookup, hr.lookup] at hplace
      obtain ⟨rfl, hprice⟩ := OrderLocation.mk.inj (Option.some.inj hplace)
      have hfirst := hr'.located.first
      rw [hid', ← hprice] at hfirst
      obtain ⟨hbef, rfl, haft⟩ := first_unique (c := fun a => a.id = o.id ∧ a.price = o.price)
        (hr'.resting.symm.trans hresting) ⟨hid', hprice.symm⟩ ⟨rfl, rfl⟩ hfirst
        fun a ha => hr.located.first a (List.mem_of_mem_filter ha)
      rw [hbef, haft] at hr'
      exact Or.inr ⟨s, o', bef, aft, rfl, hc, hc', hr, hr'⟩

section Removed

variable {d d' : OrderBook P} {s : Side} {o : Order P} {bef aft : List (Order P)}

/-- Another order taken out of both books, or its quantity rewritten in both. -/
lemma replace (h : Without x b b') (ho : ¬ o.id = x.id) (mid : List (Order P))
    (hmid : ∀ a ∈ mid, ¬ a.id = x.id) (hb : b.resting s = bef ++ o :: aft) (hwf : BookWF d)
    (hwf' : BookWF d') (hd : d.resting s = bef ++ mid ++ aft)
    (hd' : d'.resting s = bef.filter (fun a => ¬ a.id = x.id) ++ mid
      ++ aft.filter fun a => ¬ a.id = x.id)
    (hother : d.side s.opposite = b.side s.opposite)
    (hother' : d'.side s.opposite = b'.side s.opposite)
    (hlookup : d.orderIndex.lookup x.id = b.orderIndex.lookup x.id)
    (hindex : d'.orderIndex = d.orderIndex.erase x.id) : Without x d d' := by
  refine ⟨hwf, hwf', fun t => ?_, fun t => ?_, hlookup.trans h.lookup, hindex⟩
  · rcases s.eq_or_eq_opposite t with rfl | rfl
    · have hnone : mid.filter (fun a => a.id = x.id) = [] :=
        List.filter_eq_nil_iff.mpr (by simpa using hmid)
      rw [← h.own, hd, hb, List.filter_append, List.filter_append, hnone, List.append_nil,
        List.filter_append, List.filter_cons_of_neg (by simpa using ho)]
    · rw [OrderBook.resting_congr hother, h.own]
  · rcases s.eq_or_eq_opposite t with rfl | rfl
    · have hall : mid.filter (fun a => ¬ a.id = x.id) = mid :=
        List.filter_eq_self.mpr (by simpa using hmid)
      rw [hd', hd, List.filter_append, List.filter_append, hall]
    · rw [OrderBook.resting_congr hother, OrderBook.resting_congr hother', h.others]

lemma removed (h : Without x b b') (ho : ¬ o.id = x.id) (hr : Removed b d s o bef aft)
    (hr' : Removed b' d' s o (bef.filter fun a => ¬ a.id = x.id)
      (aft.filter fun a => ¬ a.id = x.id)) : Without x d d' := by
  refine h.replace ho [] (by simp) hr.resting hr.wf hr'.wf ?_ ?_ hr.other hr'.other ?_ ?_
  · rw [hr.resting', List.append_nil]
  · rw [hr'.resting', List.append_nil]
  · rw [hr.index, Finmap.lookup_erase_ne fun heq => ho heq.symm]
  · rw [hr.index, hr'.index, h.index, Finmap.erase_erase]

lemma rewritten (h : Without x b b') (ho : ¬ o.id = x.id) {q : UInt64}
    (hb : b.resting s = bef ++ o :: aft) (hw : Rewritten b d s o q bef aft)
    (hw' : Rewritten b' d' s o q (bef.filter fun a => ¬ a.id = x.id)
      (aft.filter fun a => ¬ a.id = x.id)) : Without x d d' := by
  refine h.replace ho [o.setQuantity q] (by simpa using ho) hb hw.wf hw'.wf ?_ ?_
    hw.other hw'.other ?_ ?_
  · rw [hw.resting', List.append_assoc]
    rfl
  · rw [hw'.resting', List.append_assoc]
    rfl
  · rw [hw.index]
  · rw [hw.index, hw'.index, h.index]

end Removed

/-- **One call** on both books: the same response, and the same books up to `x` again. -/
lemma call (h : Without x b b') {c : Call P} (hc : ¬ c.Passes x.id)
    (hlt : total Order.qty b.restingAll < 2 ^ 64)
    (ht : ∀ t ∈ (call b c).1.tradeList, ¬ t.Names x.id) :
    (Leviathan.call b' c).1 = (Leviathan.call b c).1
      ∧ Without x (Leviathan.call b c).2 (Leviathan.call b' c).2 := by
  cases c with
  | addOrder o => exact ⟨rfl, h.addOrder hc⟩
  | submitOrder o =>
      obtain ⟨heq, hw⟩ := h.submitOrder hc hlt ht
      exact ⟨congrArg Response.trades heq, hw⟩
  | cancelOrder id =>
      rcases h.removed_cases hc with ⟨heq, heq', -⟩ | ⟨s, o, bef, aft, rfl, hok, hok', hr, hr'⟩
      · simp only [Leviathan.call, heq, heq']
        exact ⟨trivial, h⟩
      · simp only [Leviathan.call, hok, hok']
        exact ⟨trivial, h.removed hc hr hr'⟩
  | modifyOrder counter id p q =>
      rcases h.removed_cases hc with ⟨-, -, hm⟩ | ⟨s, o, bef, aft, rfl, hok, hok', hr, hr'⟩
      · obtain ⟨heq, heq'⟩ := hm counter p q
        simp only [Leviathan.call, heq, heq']
        exact ⟨trivial, h⟩
      · have hcancel := h.removed hc hr hr'
        rcases hr.modifyOrder_cases h.wf hok counter p q with
          ⟨hq, heq⟩ | ⟨hq, hp, hle, d, heq, hw⟩ | ⟨hq, hin, heq⟩ <;>
        rcases hr'.modifyOrder_cases h.wf' hok' counter p q with
          ⟨hq', heq'⟩ | ⟨hq', hp', hle', d', heq', hw'⟩ | ⟨hq', hin', heq'⟩
        · simp only [Leviathan.call, heq, heq']
          exact ⟨trivial, hcancel⟩
        · exact absurd hq hq'
        · exact absurd hq hq'
        · exact absurd hq' hq
        · simp only [Leviathan.call, heq, heq']
          exact ⟨trivial, h.rewritten hc hr.resting hw hw'⟩
        · exact absurd ⟨hp, hle⟩ hin'
        · exact absurd hq' hq
        · exact absurd ⟨hp', hle'⟩ hin
        · simp only [Leviathan.call, heq] at ht
          simp only [Leviathan.call, heq, heq']
          have hsplit := total_perm hr.restingAll
          rw [total_cons] at hsplit
          obtain ⟨htrades, hw⟩ := hcancel.submitOrder (o := ⟨o.id, s, p, q, counter, .limit⟩) hc
            (by omega) ht
          exact ⟨congrArg (fun ts => Response.modified (some ts)) htrades, hw⟩

/-- **A run** on both books. -/
lemma run (h : Without x b b') {cs : List (Call P)} (hcs : ∀ c ∈ cs, ¬ c.Passes x.id)
    (hlt : total Order.qty b.restingAll + (cs.map Call.qty).sum < 2 ^ 64)
    (ht : ∀ r ∈ Machine.answers Leviathan.call b cs, ∀ t ∈ r.tradeList, ¬ t.Names x.id) :
    Machine.answers Leviathan.call b' cs = Machine.answers Leviathan.call b cs
      ∧ Without x (Machine.final Leviathan.call b cs) (Machine.final Leviathan.call b' cs) := by
  induction cs generalizing b b' with
  | nil => exact ⟨rfl, h⟩
  | cons c cs ih =>
      rw [List.map_cons, List.sum_cons] at hlt
      rw [Machine.answers_cons] at ht
      obtain ⟨hc, hcs⟩ := List.forall_mem_cons.mp hcs
      obtain ⟨htc, ht⟩ := List.forall_mem_cons.mp ht
      obtain ⟨hres, hw⟩ := h.call hc (by omega) htc
      have hle := total_call_le h.wf c
      obtain ⟨hans, hfin⟩ := ih hw hcs (by omega) ht
      rw [Machine.answers_cons, Machine.answers_cons, hres, hans]
      exact ⟨rfl, hfin⟩

/-- Cancelling `x` leaves the other book. -/
lemma cancelOrder_self (h : Without x b b') : cancelOrder b x.id = (true, b') := by
  have hmem : ∀ {s a}, a ∈ b.resting s ∧ a.id = x.id ↔ a = x ∧ s = x.side := by
    intro s a
    have hown := congrArg (a ∈ ·) (h.own s)
    simp only [List.mem_filter, decide_eq_true_eq, List.mem_singleton, eq_iff_iff] at hown
    rw [hown]
    constructor
    · rintro ⟨rfl, hs⟩
      exact ⟨rfl, hs.symm⟩
    · rintro ⟨rfl, rfl⟩
      exact ⟨rfl, rfl⟩
  have hx : x ∈ b.resting x.side := (hmem.mpr ⟨rfl, rfl⟩).1
  rcases cancelOrder_cases h.wf x.id with ⟨-, hnone⟩ | ⟨s, o, bef, aft, hid, hok, hr⟩
  · exact absurd ⟨rfl, rfl⟩ (hnone x.side x.price h.lookup x hx)
  · have ho : o ∈ b.resting s := by
      rw [hr.resting]
      exact List.mem_append_right _ List.mem_cons_self
    obtain ⟨rfl, rfl⟩ := hmem.mp ⟨ho, hid⟩
    -- the order is alone with its id, so taking it out leaves the orders of other ids
    have hrest : bef ++ aft = (b.resting o.side).filter fun a => ¬ a.id = o.id := by
      have hlen := congrArg List.length (h.own o.side)
      rw [hr.resting, List.filter_append, List.filter_cons_of_pos (by simp), List.length_append,
        List.length_cons, List.filter_cons_of_pos (by simp), List.filter_nil,
        List.length_singleton] at hlen
      have hbef : ∀ a ∈ bef, ¬ a.id = o.id := by
        simpa using List.filter_eq_nil_iff.mp (List.eq_nil_of_length_eq_zero
          (l := bef.filter fun a => a.id = o.id) (by omega))
      have haft : ∀ a ∈ aft, ¬ a.id = o.id := by
        simpa using List.filter_eq_nil_iff.mp (List.eq_nil_of_length_eq_zero
          (l := aft.filter fun a => a.id = o.id) (by omega))
      rw [hr.resting, List.filter_append, List.filter_cons_of_neg (by simp),
        List.filter_eq_self.mpr (by simpa using hbef),
        List.filter_eq_self.mpr (by simpa using haft)]
    refine Prod.ext hok (OrderBook.ext_side (fun t => ?_) ?_)
    · refine (hr.wf t).ext (h.wf' t) ?_
      change (cancelOrder b o.id).2.resting t = b'.resting t
      rcases o.side.eq_or_eq_opposite t with rfl | rfl
      · rw [hr.resting', hrest, h.others]
      · have hnone : ∀ a ∈ b.resting o.side.opposite, ¬ a.id = o.id := fun a ha hid =>
          o.side.opposite_ne (hmem.mp ⟨ha, hid⟩).2
        rw [OrderBook.resting_congr hr.other, h.others,
          List.filter_eq_self.mpr fun a ha => by simpa using hnone a ha]
    · rw [hr.index, h.index]

end Without

/-- An order with an id that nothing carries, put into a book. -/
lemma without_addOrder {b : OrderBook P} (h : IndexSound b) {o : Order P}
    (ho : o.id ∉ b.restingIds) : Without o (addOrder b o) b := by
  have hnone : ∀ s, ∀ a ∈ b.resting s, ¬ a.id = o.id := fun s a ha hid =>
    ho (OrderBook.mem_restingIds.mpr ⟨s, a, ha, hid⟩)
  obtain ⟨l₁, l₂, hl, hside⟩ : ∃ l₁ l₂, b.resting o.side = l₁ ++ l₂
      ∧ (addOrder b o).resting o.side = l₁ ++ o :: l₂ := by
    rw [resting_addOrder_self h.wf, List.orderedInsert_eq_take_drop]
    exact ⟨_, _, List.takeWhile_append_dropWhile.symm, rfl⟩
  have hnone₁ : ∀ a ∈ l₁, ¬ a.id = o.id := fun a ha =>
    hnone o.side a (hl ▸ List.mem_append_left _ ha)
  have hnone₂ : ∀ a ∈ l₂, ¬ a.id = o.id := fun a ha =>
    hnone o.side a (hl ▸ List.mem_append_right _ ha)
  have hother : ∀ s, s ≠ o.side → (addOrder b o).resting s = b.resting s := fun s hs =>
    OrderBook.resting_congr (side_addOrder_of_ne b hs)
  refine ⟨wf_addOrder h.wf o, h.wf, fun s => ?_, fun s => ?_, ?_, ?_⟩
  · by_cases hs : s = o.side
    · subst hs
      rw [hside, List.filter_append, List.filter_cons_of_pos (by simp),
        List.filter_eq_nil_iff.mpr (by simpa using hnone₁),
        List.filter_eq_nil_iff.mpr (by simpa using hnone₂)]
      simp
    · rw [hother s hs, List.filter_eq_nil_iff.mpr (by simpa using hnone s)]
      simp [Ne.symm hs]
  · by_cases hs : s = o.side
    · subst hs
      rw [hside, hl, List.filter_append, List.filter_cons_of_neg (by simp),
        List.filter_eq_self.mpr (by simpa using hnone₁),
        List.filter_eq_self.mpr (by simpa using hnone₂)]
    · rw [hother s hs, List.filter_eq_self.mpr (by simpa using hnone s)]
  · rw [orderIndex_addOrder, Finmap.lookup_insert]
    rfl
  · refine Finmap.ext_lookup fun id => ?_
    rw [orderIndex_addOrder]
    by_cases hid : id = o.id
    · subst hid
      rw [Finmap.lookup_erase]
      cases hl : b.orderIndex.lookup o.id with
      | none => rfl
      | some loc =>
          obtain ⟨a, ha, haid, -⟩ := h.exists_order hl
          exact absurd haid (hnone _ a ha)
    · rw [Finmap.lookup_erase_ne hid, Finmap.lookup_insert_of_ne _ hid]

/-- **An order that never trades and is cancelled leaves no trace.**  Let an order with an id that
is not resting be added to a reachable book, then any calls made that do not carry its id, and the
order cancelled.  If no trade of these calls names it, and all quantities together stay below
`2^64`, the cancellation succeeds, every call has answered as in the run without the order, and the
book is the one of that run.  With other timestamps in the calls of that run, answers and books
agree up to timestamps. -/
theorem cancelled_without_trace {b : OrderBook P} (hb : Reachable b) (o : Order P)
    (ho : o.id ∉ b.restingIds) (cs : List (Call P)) (hcs : ∀ c ∈ cs, ¬ c.Passes o.id)
    (hlt : total Order.qty b.restingAll + o.qty + (cs.map Call.qty).sum < 2 ^ 64)
    (ht : ∀ r ∈ Machine.answers call (addOrder b o) cs, ∀ t ∈ r.tradeList, ¬ t.Names o.id) :
    cancelOrder (Machine.final call (addOrder b o) cs) o.id
        = (true, Machine.final call b cs)
      ∧ Machine.answers call (addOrder b o) cs = Machine.answers call b cs
      ∧ ∀ cs', List.Forall₂ (fun c c' : Call P => c.untimed = c'.untimed) cs cs' →
        List.Forall₂ (fun r r' : Response P => r.untimed = r'.untimed)
            (Machine.answers call (addOrder b o) cs) (Machine.answers call b cs')
          ∧ (cancelOrder (Machine.final call (addOrder b o) cs) o.id).2.untimed
            = (Machine.final call b cs').untimed := by
  obtain ⟨calls, rfl⟩ := hb
  have hsound := indexSound_after calls
  have hlt' : total Order.qty (addOrder (after calls) o).restingAll + (cs.map Call.qty).sum
      < 2 ^ 64 := by
    rw [total_addOrder hsound.wf]
    omega
  obtain ⟨hans, hfin⟩ := (without_addOrder hsound ho).run hcs hlt' ht
  refine ⟨hfin.cancelOrder_self, hans.symm, fun cs' hcs' => ?_⟩
  rw [hfin.cancelOrder_self, ← hans]
  exact untimed_run rfl hcs'

/-- Calls around a bid at 99: one more bid behind it, a sell that the bid in front of it fills, a
price change far from it and a cancellation. -/
def passingCalls : List (Call ℤ) :=
  [.addOrder ⟨12, .buy, 99, 5, 11, .limit⟩, .submitOrder ⟨13, .sell, 99, 4, 12, .fok⟩,
   .modifyOrder 14 3 103 7, .cancelOrder 5]

/-- A bid of 9 that stands among them at 99 and is cancelled behind them changes neither what they
return nor the book. -/
theorem cancelled_without_trace_sample :
    Machine.answers call (after sampleCalls) passingCalls
        = [.done, .trades [⟨4, 13, 99, 4, 12⟩], .modified (some []), .cancelled true]
      ∧ cancelOrder (Machine.final call (addOrder (after sampleCalls) ⟨11, .buy, 99, 9, 10, .limit⟩)
          passingCalls) 11 = (true, Machine.final call (after sampleCalls) passingCalls) := by
  obtain ⟨hcancel, hans, -⟩ := cancelled_without_trace ⟨sampleCalls, rfl⟩
    ⟨11, .buy, 99, 9, 10, .limit⟩ (by decide) passingCalls (by decide) (by decide) (by decide)
  exact ⟨hans ▸ by decide, hcancel⟩

end Leviathan
