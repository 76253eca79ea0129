import Leviathan.Book.Calls

/-!
The matching loops turn by turn.

`matchLoop_eq` says what all turns of a loop do together; here they are counted.

* `matchSide_eq_matchLoop`: the two copies of the loop by the comparison that breaks them and
  the record of a fill each has.  `trades_submitOrder`: what the call returns is what its loop has
  recorded, or nothing.
* `turns n s` is the state after `n` turns, and `Progress` what these turns have done: they have
  traded with the first `n` resting orders, one trade each, and have taken them off the book, the
  last one possibly only in part.
* The measure of the source's comment, the incoming quantity, does not fall on a resting order
  without quantity.  The number of resting orders does, on every turn that another one follows
  (`Progress.next`), so a loop has at most as many turns as there are orders to meet:
  `matching_terminates`.
-/

namespace Leviathan

variable {P : Type*}

section Sides

variable [LT P] [DecidableLT P]

/-- The comparison of the best price with the limit that breaks the loop. -/
def Side.breaks : Side → P → P → Bool
  | .buy, best, limit => limit < best
  | .sell, best, limit => best < limit

/-- The trade that the loop records for a fill. -/
def Side.record : Side → Order P → Order P → UInt64 → Trade P
  | .buy, incoming, resting, fillQty =>
      ⟨incoming.id, resting.id, resting.price, fillQty, incoming.timestamp⟩
  | .sell, incoming, resting, fillQty =>
      ⟨resting.id, incoming.id, resting.price, fillQty, incoming.timestamp⟩

omit [LT P] [DecidableLT P] in
lemma record_setQuantity {s : Side} (i r : Order P) (q n : UInt64) :
    s.record (i.setQuantity n) r q = s.record i r q := by
  cases s <;> rfl

end Sides

/-- The state in which the loop of an incoming order starts. -/
def Matching.start (b : OrderBook P) (o : Order P) : Matching P :=
  ⟨o, b.side o.side.opposite, b.orderIndex, []⟩

/-! ### submitOrder by its loop -/

section Loop

variable [LE P] [DecidableLE P] [LT P] [DecidableLT P]

/-- `submitOrder` with one loop for both sides. -/
lemma submitOrder_by_loop (b : OrderBook P) (o : Order P) :
    submitOrder b o =
      if o.quantity = 0 then ([], b)
      else if o.type = .fok ∧ !canFullyFill b o.side o.price o.quantity then ([], b)
      else
        let s := matchLoop o.side.breaks o.side.record (decide (o.type = .market))
          (Matching.start b o)
        let b' := (b.setSide o.side.opposite s.levels).setIndex s.orderIndex
        (s.trades, if s.incoming.quantity ≠ 0 ∧ !decide (o.type ≠ .limit) then
          addOrder b' s.incoming else b') := by
  rw [submitOrder]
  cases hs : o.side <;> simp only [Matching.start, hs] <;> rfl

/-- The trades of an order are those of its loop, or there are none. -/
lemma trades_submitOrder (b : OrderBook P) (o : Order P) :
    (submitOrder b o).1 = []
      ∨ (submitOrder b o).1 = (matchLoop o.side.breaks o.side.record (decide (o.type = .market))
          (Matching.start b o)).trades := by
  rw [submitOrder_by_loop]
  split_ifs
  · exact Or.inl rfl
  · exact Or.inl rfl
  · exact Or.inr rfl

end Loop

/-! ### The turns of a loop -/

section Turns

variable (stops : P → P → Bool) (record : Order P → Order P → UInt64 → Trade P) (skip : Bool)

/-- The state after `n` turns of a loop, `none` when it ends before. -/
def turns : ℕ → Matching P → Option (Matching P)
  | 0, s => some s
  | n + 1, s => (turns n s).bind (matchStep stops record skip)

variable {stops record skip}

lemma turns_succ {n : ℕ} {s t : Matching P} :
    turns stops record skip (n + 1) s = some t
      ↔ ∃ u, turns stops record skip n s = some u ∧ matchStep stops record skip u = some t :=
  Option.bind_eq_some_iff

/-- The first turn of several. -/
lemma turns_cons {n : ℕ} {s s' : Matching P} (h : matchStep stops record skip s = some s') :
    turns stops record skip (n + 1) s = turns stops record skip n s' := by
  induction n with
  | zero => simp [turns, h]
  | succ n ih => rw [turns, ih, turns]

/-- Every turn of a loop but the last is followed by another one. -/
lemma turns_of_lt {m n : ℕ} {s t : Matching P} (h : turns stops record skip n s = some t)
    (hm : m < n) :
    ∃ u u', turns stops record skip m s = some u ∧ matchStep stops record skip u = some u' := by
  induction n generalizing t with
  | zero => omega
  | succ n ih =>
      obtain ⟨u, hu, ht⟩ := turns_succ.mp h
      rcases Nat.lt_succ_iff_lt_or_eq.mp hm with hm | rfl
      · exact ih hu hm
      · exact ⟨u, t, hu, ht⟩

/-- The last of `n` resting orders is left with a part of its quantity, in front of the others at
the best price, and nothing is left of the incoming order. -/
def PartlyFilled (s t : Matching P) (n : ℕ) : Prop :=
  ∃ m k best behind worse, (∃ i, n = i + 1 ∧ (orders s.levels)[i]? = some m)
    ∧ 0 < k ∧ k < m.qty ∧ t.levels = (best, m.cutTo k :: behind) :: worse
    ∧ orders t.levels = m.cutTo k :: (orders s.levels).drop n ∧ t.incoming.quantity = 0

/-- What `n` turns from the state `s` have done. -/
structure Progress (record : Order P → Order P → UInt64 → Trade P) (s t : Matching P) (n : ℕ) :
    Prop where
  incoming : ∃ k, t.incoming = s.incoming.cutTo k
  n_le : n ≤ (orders s.levels).length
  trades : ∃ ts, t.trades = s.trades ++ ts
    ∧ List.Forall₂ (fun tr m => ∃ k, tr = record s.incoming m k) ts ((orders s.levels).take n)
  left : orders t.levels = (orders s.levels).drop n ∨ PartlyFilled s t n

lemma Progress.zero (s : Matching P) : Progress record s s 0 :=
  ⟨⟨s.incoming.qty, s.incoming.cutTo_self.symm⟩, Nat.zero_le _,
    ⟨[], (List.append_nil _).symm, List.Forall₂.nil⟩, Or.inl rfl⟩

/-- A loop that goes on has used up every order it has met. -/
lemma Progress.next {s t t' : Matching P} {n : ℕ} (h : Progress record s t n)
    (ht : matchStep stops record skip t = some t') :
    orders t.levels = (orders s.levels).drop n := by
  rcases h.left with h | ⟨m, k, best, behind, worse, -, -, -, -, -, hz⟩
  · exact h
  · simp [matchStep, hz] at ht

/-- **One more turn** meets the next resting order. -/
lemma Progress.step (hrec : ∀ i r q n, record (i.setQuantity n) r q = record i r q)
    {s t t' : Matching P} {n : ℕ} (h : Progress record s t n)
    (ht : matchStep stops record skip t = some t') : Progress record s t' (n + 1) := by
  have hleft := h.next ht
  obtain ⟨best, resting, behind, worse, hlv, hq, -, htr, hin, hcase⟩ := matchStep_eq_some ht
  obtain ⟨j, hj⟩ := h.incoming
  have hdrop : (orders s.levels).drop n = resting :: (behind ++ orders worse) := by
    rw [← hleft, hlv]
    rfl
  have hlt : n < (orders s.levels).length := by
    by_contra hge
    rw [List.drop_eq_nil_of_le (not_lt.mp hge)] at hdrop
    simp at hdrop
  have hmeet : (orders s.levels)[n]? = some resting := by
    rw [← List.head?_drop, hdrop]
    rfl
  have hrest : (orders s.levels).drop (n + 1) = behind ++ orders worse := by
    rw [← List.tail_drop, hdrop]
    rfl
  refine ⟨⟨t.incoming.qty - resting.qty, ?_⟩, hlt, ?_, ?_⟩
  · rw [hin, hj, Order.cutTo_cutTo]
  · obtain ⟨ts, hts, hall⟩ := h.trades
    refine ⟨ts ++ [record t.incoming resting (min t.incoming.quantity resting.quantity)], ?_, ?_⟩
    · rw [htr, hts, List.append_assoc]
    · have hlast : record t.incoming resting (min t.incoming.quantity resting.quantity)
          = record s.incoming resting (min t.incoming.quantity resting.quantity) := by
        rw [hj]
        exact hrec _ _ _ _
      rw [List.take_add_one, hmeet]
      exact List.rel_append hall (List.Forall₂.cons ⟨_, hlast⟩ List.Forall₂.nil)
  · rcases hcase with ⟨-, hlv', -⟩ | ⟨hcut, hlv', -⟩
    · left
      rw [hlv', hrest]
      split_ifs with hb
      · rw [hb, List.nil_append]
      · rfl
    · right
      refine ⟨resting, resting.qty - t.incoming.qty, best, behind, worse, ⟨n, rfl, hmeet⟩,
        by omega, by omega, hlv', ?_, ?_⟩
      · rw [hlv', hrest]
        rfl
      · rw [hin, Nat.sub_eq_zero_of_le hcut.le]
        rfl

/-- **The turns of a loop**, all of them. -/
lemma progress_turns (hrec : ∀ i r q n, record (i.setQuantity n) r q = record i r q) {n : ℕ}
    {s t : Matching P} (h : turns stops record skip n s = some t) : Progress record s t n := by
  induction n generalizing t with
  | zero =>
      obtain rfl := Option.some.inj h
      exact Progress.zero s
  | succ n ih =>
      obtain ⟨u, hu, ht⟩ := turns_succ.mp h
      exact (ih hu).step hrec ht

/-- A loop comes to its end in some number of turns. -/
lemma exists_turns (s : Matching P) :
    ∃ n, turns stops record skip n s = some (matchLoop stops record skip s)
      ∧ matchStep stops record skip (matchLoop stops record skip s) = none := by
  induction s using matchLoop.induct stops record skip with
  | case1 s hnone => exact ⟨0, by rw [matchLoop_of_none hnone]; exact ⟨rfl, hnone⟩⟩
  | case2 s s' hsome ih =>
      obtain ⟨n, hn, hend⟩ := ih
      rw [matchLoop_of_some hsome]
      exact ⟨n + 1, by rw [turns_cons hsome, hn], hend⟩

/-- Where no level is empty, a loop ends because the incoming order is filled, the side is empty
or its best price breaks it. -/
lemma matchStep_end {s : Matching P} (hne : ∀ l ∈ s.levels, l.2 ≠ [])
    (h : matchStep stops record skip s = none) :
    s.incoming.quantity = 0 ∨ s.levels = []
      ∨ skip = false ∧ ∃ l ∈ s.levels.head?, stops l.1 s.incoming.price = true := by
  by_cases hq : s.incoming.quantity = 0
  · exact Or.inl hq
  cases hlv : s.levels with
  | nil => exact Or.inr (Or.inl rfl)
  | cons l worse =>
      obtain ⟨best, q⟩ := l
      refine Or.inr (Or.inr ?_)
      obtain ⟨resting, behind, rfl⟩ :=
        List.exists_cons_of_ne_nil (hne (best, q) (hlv ▸ List.mem_cons_self))
      rw [matchStep, if_neg hq, hlv] at h
      simp only at h
      split_ifs at h with hstop
      simpa using hstop

end Turns

/-! ### Termination -/

variable [LinearOrder P]

lemma matchSide_eq_matchLoop (s : Side) :
    matchSide s = matchLoop (P := P) s.breaks s.record := by
  cases s <;> rfl

/-- **The matching loops terminate.**  On every reachable book, whatever its orders are, and for
every incoming order, the loop comes after some number of turns to a state where it ends, the
incoming order filled, the side empty or its best price beyond the limit; every turn but the last
takes exactly one resting order off the side; there are as many trades as turns, the first with
the first resting order, the second with the second, and so no more than resting orders; these are
the trades that `submitOrder` returns, unless it returns none; and these orders are gone, or the
last of them is left in part, in front of the best level, and the incoming quantity is zero. -/
theorem matching_terminates {b : OrderBook P} (hb : Reachable b) (o : Order P) :
    let step := matchStep o.side.breaks o.side.record (decide (o.type = .market))
    let run := turns o.side.breaks o.side.record (decide (o.type = .market))
    let start := Matching.start b o
    let t := matchSide o.side (decide (o.type = .market)) start
    ∃ n, run n start = some t ∧ step t = none
      ∧ (t.incoming.quantity = 0 ∨ t.levels = []
        ∨ o.type ≠ .market ∧ ∃ l ∈ t.levels.head?, o.side.breaks l.1 o.price = true)
      ∧ (∀ i s s', i + 1 < n → run i start = some s → step s = some s' →
          ∃ m, orders s.levels = m :: orders s'.levels)
      ∧ n ≤ (b.resting o.side.opposite).length ∧ t.trades.length = n
      ∧ ((submitOrder b o).1 = [] ∨ (submitOrder b o).1 = t.trades)
      ∧ (submitOrder b o).1.length ≤ n
      ∧ List.Forall₂ (fun tr m => ∃ k, tr = o.side.record o m k) t.trades
          ((b.resting o.side.opposite).take n)
      ∧ (orders t.levels = (b.resting o.side.opposite).drop n ∨ PartlyFilled start t n) := by
  intro step run start t
  have ht : t = matchLoop o.side.breaks o.side.record (decide (o.type = .market)) start := by
    show matchSide _ _ _ = _
    rw [matchSide_eq_matchLoop]
  obtain ⟨n, hn, hend⟩ := @exists_turns P o.side.breaks o.side.record
    (decide (o.type = .market)) start
  rw [← ht] at hn hend
  have hprog := progress_turns record_setQuantity hn
  obtain ⟨k, hk⟩ := hprog.incoming
  obtain ⟨ts, hts, hall⟩ := hprog.trades
  have hts : t.trades = ts := hts.trans (List.nil_append ts)
  have hlen : t.trades.length = n := by
    rw [hts, hall.length_eq, List.length_take]
    exact Nat.min_eq_left hprog.n_le
  have hne : ∀ l ∈ t.levels, l.2 ≠ [] := by
    have hlv : t.levels = drained b o := congrArg Matching.levels (matchSide_eq hb.wf o)
    rw [hlv]
    exact (wf_drained hb.wf o).ne_nil
  have hreturned : (submitOrder b o).1 = [] ∨ (submitOrder b o).1 = t.trades := by
    rw [ht]
    exact trades_submitOrder b o
  refine ⟨n, hn, hend, ?_, ?_, hprog.n_le, hlen, hreturned, ?_, ?_, hprog.left⟩
  · rcases matchStep_end hne hend with hq | hlv | ⟨hskip, l, hl, hstop⟩
    · exact Or.inl hq
    · exact Or.inr (Or.inl hlv)
    · refine Or.inr (Or.inr ⟨by simpa using hskip, l, hl, ?_⟩)
      rwa [hk] at hstop
  · intro i s s' hi hs hs'
    have hrun : run (i + 1) start = some s' := turns_succ.mpr ⟨s, hs, hs'⟩
    -- another turn follows, so the order met by this one is gone
    obtain ⟨u, u', hu, hu'⟩ := turns_of_lt hn hi
    obtain rfl := Option.some.inj (hrun.symm.trans hu)
    have hbefore := (progress_turns record_setQuantity hs).next hs'
    have hafter := (progress_turns record_setQuantity hrun).next hu'
    have hlt : i < (orders start.levels).length := by
      have := hprog.n_le
      omega
    exact ⟨_, by rw [hbefore, hafter, List.drop_eq_getElem_cons hlt]⟩
  · rcases hreturned with hnone | hall
    · rw [hnone]
      exact Nat.zero_le n
    · rw [hall]
      exact hlen.le
  · rw [hts]
    exact hall

/-- A bid for eight meets the three asks of the sample, the second one without quantity. -/
theorem matching_terminates_sample :
    let o : Order ℤ := ⟨9, .buy, 102, 8, 10, .limit⟩
    let t := matchSide .buy false (Matching.start (after sampleCalls) o)
    t.trades.length = 3 ∧ PartlyFilled (Matching.start (after sampleCalls) o) t 3 := by
  intro o t
  obtain ⟨n, -, -, -, -, -, hlen, -, -, -, hleft⟩ := matching_terminates ⟨sampleCalls, rfl⟩ o
  have hlen : t.trades.length = n := hlen
  have h3 : t.trades.length = 3 := by decide
  obtain rfl : n = 3 := by omega
  refine ⟨h3, hleft.resolve_left fun hgone => ?_⟩
  exact absurd (congrArg List.length hgone) (by decide)

end Leviathan
