import Leviathan.Book.Sides

/-!
The matching loop as a greedy allotment.

The loop of `submitOrder` re-reads the best level on every turn while levels and index
entries disappear under it.  `matchLoop_eq` says what all its turns together do, for any
comparison that breaks it: with `E` the orders of the levels in front of the first one that
breaks the loop, the trades are the fills `Allotment.allot` of the incoming quantity along
`E`, the levels left are `Allotment.drain`, the ids of the orders used up leave the index,
and what is left of the incoming quantity is what `E` did not cover.
-/

namespace Leviathan

open Allotment

variable {P : Type*}

/-- Drop the ids of a list of orders from the index. -/
def eraseIds (l : List (Order P)) (ix : OrderIndex P) : OrderIndex P :=
  l.foldl (fun ix o => ix.erase o.id) ix

@[simp] lemma eraseIds_nil (ix : OrderIndex P) : eraseIds [] ix = ix := rfl

@[simp] lemma eraseIds_cons (o : Order P) (l : List (Order P)) (ix : OrderIndex P) :
    eraseIds (o :: l) ix = eraseIds l (ix.erase o.id) := rfl

/-- The orders the demand `Q` uses up, in the order they are used up. -/
def usedUp (Q : ℕ) (l : List (Order P)) : List (Order P) := l.take (spent Order.qty Q l)

@[simp] lemma usedUp_zero (l : List (Order P)) : usedUp 0 l = [] := by simp [usedUp]

@[simp] lemma usedUp_nil (Q : ℕ) : usedUp Q ([] : List (Order P)) = [] := by simp [usedUp]

lemma usedUp_cons_le {Q : ℕ} {o : Order P} {l : List (Order P)} (hQ : Q ≠ 0) (ho : o.qty ≤ Q) :
    usedUp Q (o :: l) = o :: usedUp (Q - o.qty) l := by
  rw [usedUp, spent, if_neg hQ, if_pos ho, List.take_succ_cons, usedUp]

lemma usedUp_cons_lt {Q : ℕ} {o : Order P} {l : List (Order P)} (ho : Q < o.qty) :
    usedUp Q (o :: l) = [] := by
  rw [usedUp, spent]
  split_ifs <;> first | rfl | omega

section Loop

variable {stops : P → P → Bool} {record : Order P → Order P → UInt64 → Trade P} {skip : Bool}

/-- A level the loop does not stop at. -/
def Passes (stops : P → P → Bool) (skip : Bool) (limit : P) (level : P × List (Order P)) :
    Bool :=
  !(!skip && stops level.1 limit)

/-- The trades of the fills of `incoming`. -/
def recordAll (record : Order P → Order P → UInt64 → Trade P) (incoming : Order P)
    (fills : List (Order P × ℕ)) : List (Trade P) :=
  fills.map fun f => record incoming f.1 (UInt64.ofNat f.2)

/-- The loop ends with the incoming order exhausted or no level left that it passes. -/
lemma matchStep_eq_none {s : Matching P} (hne : ∀ l ∈ s.levels, l.2 ≠ [])
    (h : matchStep stops record skip s = none) :
    s.incoming.qty = 0 ∨ s.levels.takeWhile (Passes stops skip s.incoming.price) = [] := by
  rw [matchStep] at h
  split_ifs at h with hq
  · exact Or.inl (by rw [Order.qty, hq]; rfl)
  · refine Or.inr ?_
    split at h
    · rename_i hlv
      rw [hlv, List.takeWhile_nil]
    · rename_i best q worse hlv
      split_ifs at h with hstop
      · rw [hlv, List.takeWhile_cons_of_neg]
        simpa [Passes] using hstop
      · split at h
        · exact absurd rfl (hne _ (hlv ▸ List.mem_cons_self))
        · simp only at h
          split_ifs at h

/-- What the levels passed become when the front order of the best one is used up. -/
lemma orders_takeWhile_drop {c : P × List (Order P) → Bool} {p : P} {q : List (Order P)}
    {m : SideMap P} (hc : ∀ q' : List (Order P), c (p, q') = true) :
    (if q = [] then m else (p, q) :: m).takeWhile c
        = (if q = [] then m.takeWhile c else (p, q) :: m.takeWhile c)
      ∧ (if q = [] then m else (p, q) :: m).dropWhile c = m.dropWhile c
      ∧ orders ((if q = [] then m else (p, q) :: m).takeWhile c)
        = q ++ orders (m.takeWhile c) := by
  split_ifs with hq
  · exact ⟨rfl, rfl, by simp [hq]⟩
  · rw [List.takeWhile_cons_of_pos (hc q), List.dropWhile_cons_of_pos (hc q)]
    exact ⟨rfl, rfl, rfl⟩

lemma matchLoop_of_none {s : Matching P} (h : matchStep stops record skip s = none) :
    matchLoop stops record skip s = s := by
  rw [matchLoop]
  split
  · rfl
  · rename_i h'
    simp [h] at h'

lemma matchLoop_of_some {s s' : Matching P} (h : matchStep stops record skip s = some s') :
    matchLoop stops record skip s = matchLoop stops record skip s' := by
  rw [matchLoop]
  split
  · rename_i h'
    simp [h] at h'
  · rename_i h'
    rw [h] at h'
    rw [Option.some.inj h']

variable (stops record skip) in
/-- The orders in front of the first level that breaks the loop. -/
def Matching.reach (s : Matching P) : List (Order P) :=
  orders (s.levels.takeWhile (Passes stops skip s.incoming.price))

variable (stops record skip) in
/-- The incoming quantity allotted along the orders it reaches. -/
def Matching.settled (s : Matching P) : Matching P where
  incoming := s.incoming.cutTo (s.incoming.qty - total Order.qty (s.reach stops skip))
  levels :=
    drain Order.qty Order.cutTo s.incoming.qty
        (s.levels.takeWhile (Passes stops skip s.incoming.price))
      ++ s.levels.dropWhile (Passes stops skip s.incoming.price)
  orderIndex := eraseIds (usedUp s.incoming.qty (s.reach stops skip)) s.orderIndex
  trades := s.trades ++ recordAll record s.incoming (allot Order.qty s.incoming.qty
    (s.reach stops skip))

/-- Where the loop ends there is nothing left to allot. -/
lemma settled_of_none {s : Matching P} (hne : ∀ l ∈ s.levels, l.2 ≠ [])
    (h : matchStep stops record skip s = none) : s.settled stops record skip = s := by
  have hsplit : s.levels.takeWhile (Passes stops skip s.incoming.price)
      ++ s.levels.dropWhile (Passes stops skip s.incoming.price) = s.levels :=
    List.takeWhile_append_dropWhile
  rcases matchStep_eq_none hne h with hq | hlv
  · have hne' : ∀ l ∈ s.levels.takeWhile (Passes stops skip s.incoming.price), l.2 ≠ [] :=
      fun l hl => hne l (List.takeWhile_subset _ hl)
    ext1
    · simp only [Matching.settled, hq, Nat.zero_sub]
      rw [← hq, Order.cutTo_self]
    · simp only [Matching.settled, hq, drain_zero _ _ hne', hsplit]
    · simp only [Matching.settled, hq, usedUp_zero, eraseIds_nil]
    · simp only [Matching.settled, hq, allot_zero, recordAll, List.map_nil, List.append_nil]
  · have hE : s.reach stops skip = [] := by rw [Matching.reach, hlv, orders_nil]
    rw [hlv, List.nil_append] at hsplit
    ext1
    · simp only [Matching.settled, hE, total_nil, Nat.sub_zero, Order.cutTo_self]
    · simp only [Matching.settled, hlv, drain, hsplit, List.nil_append]
    · simp only [Matching.settled, hE, usedUp_nil, eraseIds_nil]
    · simp only [Matching.settled, hE, allot_nil, recordAll, List.map_nil, List.append_nil]

/-- A turn takes the front fill off the allotment and leaves the rest of it. -/
lemma settled_of_some (hrec : ∀ i r q n, record (i.setQuantity n) r q = record i r q)
    {s s' : Matching P} (hne : ∀ l ∈ s.levels, l.2 ≠ [])
    (h : matchStep stops record skip s = some s') :
    s'.settled stops record skip = s.settled stops record skip
      ∧ ∀ l ∈ s'.levels, l.2 ≠ [] := by
  obtain ⟨best, resting, behind, worse, hlv, hq, hpass, htr, hin, hcase⟩ := matchStep_eq_some h
  have hc : ∀ q' : List (Order P),
      Passes stops skip s.incoming.price (best, q') = true := fun q' => by
    simp only [Passes, hpass, Bool.not_false]
  have hreach : s.reach stops skip
      = resting :: (behind ++ orders (worse.takeWhile (Passes stops skip s.incoming.price))) := by
    rw [Matching.reach, hlv, List.takeWhile_cons_of_pos (hc _), orders_cons, List.cons_append]
  have hprice : s'.incoming.price = s.incoming.price := by rw [hin, Order.cutTo_price]
  have hrecs : ∀ fills,
      recordAll record s'.incoming fills = recordAll record s.incoming fills := by
    intro fills
    rw [hin]
    exact List.map_congr_left fun f _ => hrec _ _ _ _
  have hqty : s'.incoming.qty = s.incoming.qty - resting.qty := by
    rw [hin, Order.cutTo_qty (Nat.sub_le _ _)]
  have hne' : ∀ l ∈ worse, l.2 ≠ [] := fun l hl => hne l (hlv ▸ List.mem_cons_of_mem _ hl)
  have hfill : allot Order.qty s.incoming.qty (s.reach stops skip)
      = (resting, min resting.qty s.incoming.qty) :: allot Order.qty (s.incoming.qty - resting.qty)
          (behind ++ orders (worse.takeWhile (Passes stops skip s.incoming.price))) := by
    rw [hreach, allot, if_neg hq]
  rcases hcase with ⟨hle, hlv', hix⟩ | ⟨hlt, hlv', hix⟩
  · -- the resting order is used up and the next turn finds the rest of the demand
    obtain ⟨htake, hdrop, horders⟩ := orders_takeWhile_drop (q := behind) (m := worse) hc
    have hreach' : s'.reach stops skip
        = behind ++ orders (worse.takeWhile (Passes stops skip s.incoming.price)) := by
      rw [Matching.reach, hprice, hlv', horders]
    refine ⟨?_, ?_⟩
    · ext1
      · simp only [Matching.settled, hreach, hreach', hqty, total_cons, Nat.sub_sub]
        rw [hin, Order.cutTo_cutTo]
      · simp only [Matching.settled, hprice, hqty, hlv', htake, hdrop, hlv,
          List.takeWhile_cons_of_pos (hc _), List.dropWhile_cons_of_pos (hc _)]
        rw [drain_cons_le _ _ hq hle]
      · simp only [Matching.settled, hreach, hreach', hqty, hix, usedUp_cons_le hq hle,
          eraseIds_cons]
      · simp only [Matching.settled, hrecs, hfill, hreach', hqty, htr, min_eq_ofNat]
        rw [List.append_assoc]
        rfl
    · rw [hlv']
      split_ifs with hb
      · exact hne'
      · intro l hl
        rcases List.mem_cons.mp hl with rfl | hl
        · exact hb
        · exact hne' l hl
  · -- the demand ends inside the resting order
    have hzero : s.incoming.qty - resting.qty = 0 := Nat.sub_eq_zero_of_le hlt.le
    have hneW : ∀ l ∈ worse.takeWhile (Passes stops skip s.incoming.price), l.2 ≠ [] :=
      fun l hl => hne' l (List.takeWhile_subset _ hl)
    have hneD : ∀ l ∈ (best, resting.cutTo (resting.qty - s.incoming.qty) :: behind)
        :: worse.takeWhile (Passes stops skip s.incoming.price), l.2 ≠ [] := by
      intro l hl
      rcases List.mem_cons.mp hl with rfl | hl
      · simp
      · exact hneW l hl
    refine ⟨?_, ?_⟩
    · ext1
      · simp only [Matching.settled, hreach, hqty, hzero, total_cons, Nat.zero_sub]
        rw [hin, Order.cutTo_cutTo, show s.incoming.qty - (resting.qty + _) = 0 by omega]
      · simp only [Matching.settled, hprice, hqty, hzero, hlv', hlv,
          List.takeWhile_cons_of_pos (hc _), List.dropWhile_cons_of_pos (hc _)]
        rw [drain_zero _ _ hneD, drain_cons_lt _ _ hq hlt hneW]
      · simp only [Matching.settled, hreach, hqty, hzero, hix, usedUp_cons_lt hlt, usedUp_zero]
      · simp only [Matching.settled, hrecs, hfill, hqty, hzero, allot_zero, htr, min_eq_ofNat]
        simp [recordAll, Order.qty]
    · rw [hlv']
      intro l hl
      rcases List.mem_cons.mp hl with rfl | hl
      · simp
      · exact hne' l hl

/-- **The matching loop**, all its turns together. -/
theorem matchLoop_eq (hrec : ∀ i r q n, record (i.setQuantity n) r q = record i r q)
    (s : Matching P) (hne : ∀ l ∈ s.levels, l.2 ≠ []) :
    matchLoop stops record skip s = s.settled stops record skip := by
  induction s using matchLoop.induct stops record skip with
  | case1 s hnone => rw [matchLoop_of_none hnone, settled_of_none hne hnone]
  | case2 s s' hsome ih =>
      obtain ⟨heq, hne'⟩ := settled_of_some hrec hne hsome
      rw [matchLoop_of_some hsome, ih hne', heq]

end Loop

end Leviathan
