import Leviathan.Foundations.WithNaN
import Leviathan.Book.Iterations

/-!
Prices that are not numbers.

No layer of the code looks at a price before it is compared.  A loop of `submitOrder` goes on
until a test fails that is false when a price is not a number, the preview goes on while one
holds that is false then too.

* `LevelsFrom m' m`: the levels of `m'` are levels of `m` with some of their orders.  The loop, a
  cancellation and a write in place do this, whatever the comparisons of the prices are.
* `Filed`: the levels are in the order of the comparator, none is empty, and no order is filed
  under a price that comes before or behind its own.  `Reached.filed` has it of every book that
  the public calls lead to, at any prices.
* A price that is not a number is the same as every key to the map.  Its order goes to the best
  level, and becomes a level only where there is none; it is then the only level of its side
  (`Reached.side_eq_singleton`), takes every later order and keeps its key when the first one
  leaves it.
* `keepsLimit_iff` is what this comes to: the limit of an order is kept, and the two tests agree,
  as long as the limit and the levels it is compared with are numbers.
-/

namespace Leviathan

variable {P : Type*}

/-! ### The preview by its comparison -/

section Comparisons

variable [LE P] [DecidableLE P]

/-- The comparison of a level's price with the limit by which the preview goes on. -/
def Side.crosses : Side → P → P → Bool
  | .buy, askPrice, limit => askPrice ≤ limit
  | .sell, bidPrice, limit => limit ≤ bidPrice

/-- The preview of either side goes on by `crosses`. -/
lemma canFullyFill_by_side (b : OrderBook P) (s : Side) (p : P) (q : UInt64) :
    canFullyFill b s p q = canFullyFillFromMap (b.side s.opposite) p q s.crosses := by
  cases s <;> rfl

/-- Where the first level is none to go on to, the preview counts nothing in. -/
lemma canFullyFill_of_takeWhile {b : OrderBook P} {s : Side} {p : P}
    (h : (b.side s.opposite).takeWhile (fun l => s.crosses l.1 p) = []) (q : UInt64) :
    canFullyFill b s p q = false := by
  rw [canFullyFill_by_side, canFullyFillFromMap]
  cases hm : b.side s.opposite with
  | nil => rfl
  | cons l worse =>
      have hl : ¬ s.crosses l.1 p = true := fun hc => by simp [hm, hc] at h
      rw [previewLevels, if_neg hl]

end Comparisons

/-! ### What a level becomes -/

/-- The level is another one with some of its orders, at their prices, and not without any. -/
def Thinned (l l₀ : P × List (Order P)) : Prop :=
  l.1 = l₀.1 ∧ (l₀.2 ≠ [] → l.2 ≠ []) ∧ ∀ o ∈ l.2, ∃ o₀ ∈ l₀.2, o.price = o₀.price

lemma Thinned.refl (l : P × List (Order P)) : Thinned l l :=
  ⟨rfl, id, fun o ho => ⟨o, ho, rfl⟩⟩

lemma Thinned.trans {l l₁ l₂ : P × List (Order P)} (h : Thinned l l₁) (h' : Thinned l₁ l₂) :
    Thinned l l₂ := by
  refine ⟨h.1.trans h'.1, h.2.1 ∘ h'.2.1, fun o ho => ?_⟩
  obtain ⟨o₁, ho₁, hp⟩ := h.2.2 o ho
  obtain ⟨o₂, ho₂, hp'⟩ := h'.2.2 o₁ ho₁
  exact ⟨o₂, ho₂, hp.trans hp'⟩

/-- The levels of `m'` are thinned levels of `m`, in the same order. -/
structure LevelsFrom (m' m : SideMap P) : Prop where
  keys : (m'.map Prod.fst).Sublist (m.map Prod.fst)
  thinned : ∀ l ∈ m', ∃ l₀ ∈ m, Thinned l l₀

lemma levelsFrom_of_sublist {m' m : SideMap P} (h : m'.Sublist m) : LevelsFrom m' m :=
  ⟨h.map Prod.fst, fun l hl => ⟨l, h.subset hl, Thinned.refl l⟩⟩

lemma LevelsFrom.trans {m m₁ m₂ : SideMap P} (h : LevelsFrom m m₁) (h' : LevelsFrom m₁ m₂) :
    LevelsFrom m m₂ := by
  refine ⟨h.keys.trans h'.keys, fun l hl => ?_⟩
  obtain ⟨l₁, hl₁, ht⟩ := h.thinned l hl
  obtain ⟨l₂, hl₂, ht'⟩ := h'.thinned l₁ hl₁
  exact ⟨l₂, hl₂, ht.trans ht'⟩

/-- One level written anew, the others as they were. -/
lemma levelsFrom_middle {pre post : SideMap P} {l l₀ : P × List (Order P)} (h : Thinned l l₀) :
    LevelsFrom (pre ++ l :: post) (pre ++ l₀ :: post) := by
  refine ⟨by simp [h.1], fun x hx => ?_⟩
  rcases List.mem_append.mp hx with hx | hx
  · exact ⟨x, by simp [hx], Thinned.refl x⟩
  · rcases List.mem_cons.mp hx with rfl | hx
    · exact ⟨l₀, by simp, h⟩
    · exact ⟨x, by simp [hx], Thinned.refl x⟩

section Loop

variable {stops : P → P → Bool} {record : Order P → Order P → UInt64 → Trade P} {skip : Bool}

/-- One turn takes an order off its level, the level off the side, or a part off an order. -/
lemma levelsFrom_matchStep {s s' : Matching P} (h : matchStep stops record skip s = some s') :
    LevelsFrom s'.levels s.levels := by
  obtain ⟨best, resting, behind, worse, hlv, -, -, -, -, hcase⟩ := matchStep_eq_some h
  rw [hlv]
  rcases hcase with ⟨-, hlv', -⟩ | ⟨-, hlv', -⟩
  · rw [hlv']
    split_ifs with hb
    · exact levelsFrom_of_sublist (List.sublist_cons_self _ _)
    · exact @levelsFrom_middle P [] worse _ _
        ⟨rfl, fun _ => hb, fun o ho => ⟨o, List.mem_cons_of_mem _ ho, rfl⟩⟩
  · rw [hlv']
    refine @levelsFrom_middle P [] worse _ _ ⟨rfl, fun _ => List.cons_ne_nil _ _, fun o ho => ?_⟩
    rcases List.mem_cons.mp ho with rfl | ho
    · exact ⟨resting, List.mem_cons_self, rfl⟩
    · exact ⟨o, List.mem_cons_of_mem _ ho, rfl⟩

lemma levelsFrom_matchLoop (s : Matching P) :
    LevelsFrom (matchLoop stops record skip s).levels s.levels := by
  induction s using matchLoop.induct stops record skip with
  | case1 s hnone =>
      rw [matchLoop_of_none hnone]
      exact levelsFrom_of_sublist (List.Sublist.refl _)
  | case2 s s' hsome ih =>
      rw [matchLoop_of_some hsome]
      exact ih.trans (levelsFrom_matchStep hsome)

/-- **The price of a trade**: where every order has the price of its level, a loop trades at the
prices of levels that do not break it. -/
lemma price_of_mem_trades (hrec : ∀ i r q, (record i r q).price = r.price) {s : Matching P}
    (hs : ∀ l ∈ s.levels, ∀ o ∈ l.2, o.price = l.1) :
    ∀ t ∈ (matchLoop stops record false s).trades,
      t ∈ s.trades ∨ ∃ l ∈ s.levels, t.price = l.1 ∧ stops l.1 s.incoming.price = false := by
  induction s using matchLoop.induct stops record false with
  | case1 s hnone =>
      rw [matchLoop_of_none hnone]
      exact fun t ht => Or.inl ht
  | case2 s s' hsome ih =>
      have hthin := levelsFrom_matchStep hsome
      have hs' : ∀ l ∈ s'.levels, ∀ o ∈ l.2, o.price = l.1 := by
        intro l hl o ho
        obtain ⟨l₀, hl₀, hkey, -, hall⟩ := hthin.thinned l hl
        obtain ⟨o₀, ho₀, hp⟩ := hall o ho
        rw [hp, hs l₀ hl₀ o₀ ho₀, hkey]
      obtain ⟨best, resting, behind, worse, hlv, -, hstop, htr, hin, -⟩ := matchStep_eq_some hsome
      have hbest : (best, resting :: behind) ∈ s.levels := hlv ▸ List.mem_cons_self
      rw [matchLoop_of_some hsome]
      intro t ht
      rcases ih hs' t ht with ht | ⟨l, hl, hp, hl'⟩
      · rw [htr] at ht
        rcases List.mem_append.mp ht with ht | ht
        · exact Or.inl ht
        · obtain rfl := List.mem_singleton.mp ht
          refine Or.inr ⟨_, hbest, ?_, by simpa using hstop⟩
          rw [hrec]
          exact hs _ hbest resting List.mem_cons_self
      · obtain ⟨l₀, hl₀, hkey, -⟩ := hthin.thinned l hl
        rw [hin] at hl'
        exact Or.inr ⟨l₀, hl₀, hp.trans hkey, hkey ▸ hl'⟩

end Loop

/-! ### Filed books -/

section Comparisons

variable [LT P] [DecidableLT P]

/-- The levels are in order, none is empty, and no order is filed under a price that comes before
or behind its own. -/
structure Filed (s : Side) (m : SideMap P) : Prop where
  sorted : OrderedMap.Sorted s.before m
  ne_nil : ∀ l ∈ m, l.2 ≠ []
  home : ∀ l ∈ m, ∀ o ∈ l.2, ¬ s.before l.1 o.price ∧ ¬ s.before o.price l.1

/-- Both sides of the book are filed. -/
def BookFiled (b : OrderBook P) : Prop := ∀ s, Filed s (b.side s)

omit [DecidableLT P] in
lemma Filed.nil (s : Side) : Filed s ([] : SideMap P) :=
  ⟨OrderedMap.sorted_nil _, by simp, by simp⟩

omit [DecidableLT P] in
lemma Filed.levelsFrom {s : Side} {m m' : SideMap P} (h : Filed s m) (hm : LevelsFrom m' m) :
    Filed s m' := by
  refine ⟨h.sorted.of_keys _ hm.keys, fun l hl => ?_, fun l hl o ho => ?_⟩
  · obtain ⟨l₀, hl₀, -, hne, -⟩ := hm.thinned l hl
    exact hne (h.ne_nil l₀ hl₀)
  · obtain ⟨l₀, hl₀, hkey, -, hall⟩ := hm.thinned l hl
    obtain ⟨o₀, ho₀, hp⟩ := hall o ho
    rw [hkey, hp]
    exact h.home l₀ hl₀ o₀ ho₀

omit [DecidableLT P] in
/-- A level whose price is not before and not behind any other stands alone. -/
lemma Filed.eq_singleton {s : Side} {m : SideMap P} (h : Filed s m) {l : P × List (Order P)}
    (hl : l ∈ m) (hnone : ∀ p, ¬ s.before l.1 p ∧ ¬ s.before p l.1) : m = [l] := by
  obtain ⟨pre, post, rfl⟩ := List.mem_iff_append.mp hl
  obtain ⟨-, hpost, hpre⟩ := List.pairwise_append.mp h.sorted
  have hpost : post = [] := List.eq_nil_iff_forall_not_mem.mpr fun x hx =>
    (hnone x.1).1 (List.rel_of_pairwise_cons hpost hx)
  have hpre : pre = [] := List.eq_nil_iff_forall_not_mem.mpr fun x hx =>
    (hnone x.1).2 (hpre x hx l List.mem_cons_self)
  rw [hpre, hpost, List.nil_append]

omit [DecidableLT P] in
lemma BookFiled.set {b : OrderBook P} (h : BookFiled b) {s : Side} {m : SideMap P}
    (hm : Filed s m) (ix : OrderIndex P) : BookFiled ((b.setSide s m).setIndex ix) := by
  intro t
  rw [OrderBook.side_setIndex]
  by_cases ht : t = s
  · subst ht
    rwa [OrderBook.side_setSide]
  · rw [OrderBook.side_setSide_of_ne b m ht]
    exact h t

/-- A cancellation takes an order off its level, or the level off the side. -/
lemma levelsFrom_eraseFromSide {s : Side} {m m' : SideMap P} {p : P} {id : UInt64}
    (h : eraseFromSide s m p id = some m') : LevelsFrom m' m := by
  rw [eraseFromSide] at h
  rcases OrderedMap.exists_place s.before p m with
    ⟨-, -, -, -, -, hfind, -⟩ | ⟨pre, key, q, post, hm, -, -, hfind, herase, halter⟩
  · simp [hfind] at h
  · simp only [hfind] at h
    split_ifs at h
    split at h
    · obtain rfl := Option.some.inj h
      rw [herase, hm]
      exact levelsFrom_of_sublist ((List.sublist_cons_self _ _).append_left _)
    · rename_i o q' hq'
      obtain rfl := Option.some.inj h
      rw [halter, hm]
      refine levelsFrom_middle ⟨rfl, fun _ => List.cons_ne_nil _ _, fun a ha => ⟨a, ?_, rfl⟩⟩
      rw [← hq'] at ha
      exact List.mem_of_mem_eraseP ha

/-- A write in place keeps the price of the order it writes to. -/
lemma levelsFrom_writeQuantity {s : Side} {m : SideMap P} {p : P} {id : UInt64} {o : Order P}
    (hf : findOrderInDeque s m p id = some o) (n : UInt64) :
    LevelsFrom (writeQuantity s m p id n) m := by
  rw [writeQuantity]
  rw [findOrderInDeque] at hf
  rcases OrderedMap.exists_place s.before p m with
    ⟨-, -, -, -, -, hfind, -⟩ | ⟨pre, key, q, post, hm, -, -, hfind, -, halter⟩
  · simp [hfind] at hf
  · simp only [hfind] at hf
    obtain ⟨q₁, q₂, rfl, -, -, -, -, hrep⟩ := queue_split hf
    rw [halter, hm, hrep]
    refine levelsFrom_middle ⟨rfl, by simp, fun a ha => ?_⟩
    rcases List.mem_append.mp ha with ha | ha
    · exact ⟨a, by simp [ha], rfl⟩
    · rcases List.mem_cons.mp ha with rfl | ha
      · exact ⟨o, by simp, rfl⟩
      · exact ⟨a, by simp [ha], rfl⟩

variable (hirr : ∀ p : P, ¬ p < p) (htrans : ∀ p q r : P, p < q → q < r → p < r)

include hirr htrans in
/-- A new order goes under its own price, or to a level whose price is neither before nor
behind it. -/
lemma filed_pushBack {s : Side} {m : SideMap P} (h : Filed s m) (o : Order P) :
    Filed s (pushBack s o m) := by
  have hself : ¬ s.before o.price o.price := by cases s <;> exact hirr _
  have hbefore : ∀ p q r : P, s.before p q → s.before q r → s.before p r := by
    intro p q r hpq hqr
    cases s with
    | buy => exact htrans _ _ _ hqr hpq
    | sell => exact htrans _ _ _ hpq hqr
  -- what the level of the order becomes, and that the others are levels of before
  have hother : ∀ {pre post : SideMap P} {l x : P × List (Order P)},
      x ∈ pre ++ l :: post → x ∈ pre ++ post ∨ x = l := by
    intro pre post l x hx
    simp only [List.mem_append, List.mem_cons] at hx ⊢
    tauto
  rw [pushBack]
  rcases OrderedMap.exists_place s.before o.price m with
    ⟨pre, post, rfl, hpre, hpost, -, halter⟩ | ⟨pre, key, q, post, rfl, hko, hok, -, -, halter⟩
  · rw [halter]
    refine ⟨h.sorted.insert hbefore hpre hpost, fun l hl => ?_, fun l hl a ha => ?_⟩
    · rcases hother hl with hl | rfl
      · exact h.ne_nil l hl
      · simp
    · rcases hother hl with hl | rfl
      · exact h.home l hl a ha
      · obtain rfl : a = o := by simpa using ha
        exact ⟨hself, hself⟩
  · rw [halter]
    have hold : ∀ l ∈ pre ++ post, l ∈ pre ++ (key, q) :: post := fun l hl =>
      ((List.sublist_cons_self _ _).append_left _).subset hl
    refine ⟨h.sorted.of_keys _ (by simp), fun l hl => ?_, fun l hl a ha => ?_⟩
    · rcases hother hl with hl | rfl
      · exact h.ne_nil l (hold l hl)
      · simp
    · rcases hother hl with hl | rfl
      · exact h.home l (hold l hl) a ha
      · rcases List.mem_append.mp ha with ha | ha
        · exact h.home (key, q) (by simp) a ha
        · obtain rfl := List.mem_singleton.mp ha
          exact ⟨hko, hok⟩

include hirr htrans in
lemma filed_addOrder {b : OrderBook P} (h : BookFiled b) (o : Order P) :
    BookFiled (addOrder b o) := by
  rw [addOrder_eq]
  exact h.set (filed_pushBack hirr htrans (h o.side) o) _

lemma filed_cancelOrder {b : OrderBook P} (h : BookFiled b) (id : UInt64) :
    BookFiled (cancelOrder b id).2 := by
  rw [cancelOrder_eq]
  cases b.orderIndex.lookup id with
  | none => exact h
  | some loc =>
      obtain ⟨s, p⟩ := loc
      cases hers : eraseFromSide s (b.side s) p id with
      | none =>
          simp only [hers]
          exact h
      | some m =>
          simp only [hers]
          exact h.set ((h s).levelsFrom (levelsFrom_eraseFromSide hers)) _

variable [LE P] [DecidableLE P]

include hirr htrans in
lemma filed_submitOrder {b : OrderBook P} (h : BookFiled b) (o : Order P) :
    BookFiled (submitOrder b o).2 := by
  have hmatched : BookFiled ((b.setSide o.side.opposite
      (matchLoop o.side.breaks o.side.record (decide (o.type = .market))
        (Matching.start b o)).levels).setIndex
      (matchLoop o.side.breaks o.side.record (decide (o.type = .market))
        (Matching.start b o)).orderIndex) :=
    h.set ((h o.side.opposite).levelsFrom (levelsFrom_matchLoop _)) _
  rw [submitOrder_by_loop]
  split_ifs
  · exact h
  · exact h
  · dsimp only
    split_ifs
    · exact filed_addOrder hirr htrans hmatched _
    · exact hmatched

include hirr htrans in
lemma filed_modifyOrder [BEq P] {b : OrderBook P} (h : BookFiled b) (counter id : UInt64) (p : P)
    (q : UInt64) : BookFiled (modifyOrder b counter id p q).2.1 := by
  rw [modifyOrder_by_side]
  cases b.orderIndex.lookup id with
  | none => exact h
  | some loc =>
      obtain ⟨s, price⟩ := loc
      by_cases hq : q = 0
      · simp only [if_pos hq]
        exact filed_cancelOrder h id
      · simp only [if_neg hq]
        cases hf : findOrderInDeque s (b.side s) price id with
        | none => exact h
        | some order =>
            dsimp only
            split_ifs with hin
            · exact h.set ((h s).levelsFrom (levelsFrom_writeQuantity hf q)) b.orderIndex
            · exact filed_submitOrder hirr htrans (filed_cancelOrder h id) _

end Comparisons

/-! ### The limit -/

variable [LinearOrder P]

/-- A book that some public calls lead to, at any prices. -/
inductive Reached : OrderBook (WithNaN P) → Prop
  | empty : Reached OrderBook.empty
  | addOrder {b : OrderBook (WithNaN P)} (h : Reached b) (o : Order (WithNaN P)) :
      Reached (addOrder b o)
  | submitOrder {b : OrderBook (WithNaN P)} (h : Reached b) (o : Order (WithNaN P)) :
      Reached (submitOrder b o).2
  | cancelOrder {b : OrderBook (WithNaN P)} (h : Reached b) (id : UInt64) :
      Reached (cancelOrder b id).2
  | modifyOrder {b : OrderBook (WithNaN P)} (h : Reached b) (counter id : UInt64)
      (p : WithNaN P) (q : UInt64) : Reached (modifyOrder b counter id p q).2.1

lemma Reached.filed {b : OrderBook (WithNaN P)} (h : Reached b) : BookFiled b := by
  have hirr := WithNaN.lt_irrefl' (P := P)
  have htrans : ∀ p q r : WithNaN P, p < q → q < r → p < r := fun _ _ _ => WithNaN.lt_trans'
  induction h with
  | empty => exact fun s => by cases s <;> exact Filed.nil _
  | addOrder _ o ih => exact filed_addOrder hirr htrans ih o
  | submitOrder _ o ih => exact filed_submitOrder hirr htrans ih o
  | cancelOrder _ id ih => exact filed_cancelOrder ih id
  | modifyOrder _ counter id p q ih =>
      exact filed_modifyOrder hirr htrans ih counter id p q

/-- A level whose price is not a number is the only one of its side. -/
lemma Reached.side_eq_singleton {b : OrderBook (WithNaN P)} (h : Reached b) {s : Side}
    {l : WithNaN P × List (Order (WithNaN P))} (hl : l ∈ b.side s) (hnan : l.1 = .nan) :
    b.side s = [l] := by
  refine (h.filed s).eq_singleton hl fun p => ?_
  rw [hnan]
  cases s <;> simp [Side.before]

/-- The prices of the resting orders are numbers. -/
def Ordinary (b : OrderBook (WithNaN P)) : Prop := ∀ s, ∀ o ∈ b.resting s, o.price ≠ .nan

/-- In a level whose price is a number, the orders at prices that are have the price of the
level. -/
lemma BookFiled.price_eq {b : OrderBook (WithNaN P)} (h : BookFiled b) (hord : Ordinary b)
    {s : Side} (hkeys : ∀ l ∈ b.side s, l.1 ≠ .nan) : ∀ l ∈ b.side s, ∀ o ∈ l.2, o.price = l.1 := by
  intro l hl o ho
  have hprice : o.price ≠ .nan := hord s o (mem_orders.mpr ⟨l, hl, ho⟩)
  obtain ⟨hlo, hol⟩ := (h s).home l hl o ho
  cases s with
  | buy => exact WithNaN.eq_of_not_lt hprice (hkeys l hl) hlo hol
  | sell => exact WithNaN.eq_of_not_lt hprice (hkeys l hl) hol hlo

/-- The test of the preview is the negation of the test of the loop exactly between numbers; of
anything else the preview stops and the loop does not. -/
lemma crosses_eq_not_breaks_iff (s : Side) (p limit : WithNaN P) :
    s.crosses p limit = (!s.breaks p limit) ↔ p ≠ .nan ∧ limit ≠ .nan := by
  constructor
  · intro h
    have hne : ∀ q r : WithNaN P, q = .nan ∨ r = .nan →
        s.crosses q r = false ∧ s.breaks q r = false := by
      rintro q r (rfl | rfl) <;> cases s <;> simp [Side.crosses, Side.breaks]
    by_contra hcon
    obtain ⟨hc, hb⟩ := hne p limit (by tauto)
    simp [hc, hb] at h
  · rintro ⟨hp, hlimit⟩
    rw [Bool.eq_iff_iff]
    cases s with
    | buy => simp [Side.crosses, Side.breaks, WithNaN.le_iff_not_lt hp hlimit]
    | sell => simp [Side.crosses, Side.breaks, WithNaN.le_iff_not_lt hlimit hp]

/-- What keeping the limit of an order comes to: no trade goes through it, the tests of the
preview and of the loop put every level on the same side of it, and an order whose preview counts
no level in, and so answers no, trades nothing as IOC. -/
structure KeepsLimit (b : OrderBook (WithNaN P)) (o : Order (WithNaN P)) : Prop where
  trades : ∀ t ∈ (submitOrder b o).1, o.side.crosses t.price o.price = true
  tests : ∀ l ∈ b.side o.side.opposite,
    o.side.crosses l.1 o.price = !o.side.breaks l.1 o.price
  preview : (b.side o.side.opposite).takeWhile (fun l => o.side.crosses l.1 o.price) = [] →
    canFullyFill b o.side o.price o.quantity = false
      ∧ (submitOrder b { o with type := .ioc }).1 = []

/-- An order whose loop does not start does not trade. -/
lemma trades_of_matchStep {b : OrderBook (WithNaN P)} {o : Order (WithNaN P)}
    (h : matchStep o.side.breaks o.side.record (decide (o.type = .market)) (Matching.start b o)
      = none) : (submitOrder b o).1 = [] := by
  rcases trades_submitOrder b o with h0 | h0
  · exact h0
  · rw [h0, matchLoop_of_none h]
    rfl

/-- A loop does not start when no level is there to trade with. -/
lemma matchStep_start {b : OrderBook (WithNaN P)} {o : Order (WithNaN P)}
    (ht : o.type ≠ .market)
    (h : ∀ l ∈ (b.side o.side.opposite).head?, o.side.breaks l.1 o.price = true) :
    matchStep o.side.breaks o.side.record (decide (o.type = .market)) (Matching.start b o)
      = none := by
  rw [matchStep, Matching.start]
  split_ifs
  · rfl
  · dsimp only
    cases hlv : b.side o.side.opposite with
    | nil => rfl
    | cons l worse => simp [h l (by simp [hlv]), ht]

/-- **When the limit is kept**: on every book that calls with any prices lead to and whose resting
prices are numbers, for every LIMIT, IOC and FOK order of either side, exactly when the limit is a
number, and the levels of the other side are, or nothing rests there. -/
theorem keepsLimit_iff {b : OrderBook (WithNaN P)} (hb : Reached b) (hord : Ordinary b)
    (o : Order (WithNaN P)) (ht : o.type ≠ .market) :
    KeepsLimit b o ↔ ∀ l ∈ b.side o.side.opposite, l.1 ≠ .nan ∧ o.price ≠ .nan := by
  refine ⟨fun h l hl => (crosses_eq_not_breaks_iff _ _ _).mp (h.tests l hl), fun h => ?_⟩
  have htests : ∀ l ∈ b.side o.side.opposite,
      o.side.crosses l.1 o.price = !o.side.breaks l.1 o.price := fun l hl =>
    (crosses_eq_not_breaks_iff _ _ _).mpr (h l hl)
  refine ⟨fun t htr => ?_, htests, fun hnone => ?_⟩
  · rcases trades_submitOrder b o with h0 | h0
    · simp [h0] at htr
    · rw [h0, decide_eq_false ht] at htr
      have hprice : ∀ i r q, (o.side.record i r q).price = (r : Order (WithNaN P)).price := by
        cases o.side <;> exact fun _ _ _ => rfl
      have hhome := hb.filed.price_eq hord fun l hl => (h l hl).1
      rcases price_of_mem_trades hprice hhome t htr with htr | ⟨l, hl, hp, hl'⟩
      · exact absurd htr List.not_mem_nil
      · rw [hp, htests l hl, show o.side.breaks l.1 o.price = false from hl']
        rfl
  · refine ⟨canFullyFill_of_takeWhile hnone o.quantity,
      trades_of_matchStep (matchStep_start (by simp) fun l hl => ?_)⟩
    have hmem : l ∈ b.side o.side.opposite := List.mem_of_mem_head? hl
    have hout : ¬ o.side.crosses l.1 o.price = true := by
      obtain ⟨worse, hlv⟩ := List.head?_eq_some_iff.mp hl
      intro hc
      simp [show b.side o.side.opposite = l :: worse from hlv, hc] at hnone
    simpa [htests l hmem] using hout

/-- An ask for 5 at 101. -/
def oneAsk : OrderBook (WithNaN ℤ) :=
  addOrder OrderBook.empty ⟨1, .sell, .number 101, 5, 0, .limit⟩

lemma ordinary_oneAsk : Ordinary oneAsk := by
  rintro (_ | _) o ho
  · simp [oneAsk, addOrder, OrderBook.resting, OrderBook.side, OrderBook.empty] at ho
  · obtain rfl : o = ⟨1, .sell, .number 101, 5, 0, .limit⟩ := by
      simpa [oneAsk, addOrder, OrderBook.resting, OrderBook.side, OrderBook.empty, pushBack,
        OrderedMap.alter] using ho
    simp

/-- At a limit of 100 the ask at 101 is not reached. -/
theorem keepsLimit_iff_sample : KeepsLimit oneAsk ⟨9, .buy, .number 100, 5, 1, .fok⟩ :=
  (keepsLimit_iff (Reached.empty.addOrder _) ordinary_oneAsk _ (by decide)).mpr (by decide)

/-- An ask for 5 at 101 in the level of an ask whose price was not a number and that was
cancelled. -/
def staleLevel : OrderBook (WithNaN ℤ) :=
  (cancelOrder (addOrder (addOrder OrderBook.empty ⟨1, .sell, .nan, 5, 0, .limit⟩)
    ⟨2, .sell, .number 101, 5, 1, .limit⟩) 1).2

/-- An IOC bid whose limit is not a number buys at 101, where the same fill-or-kill order finds
nothing; and an IOC bid at 100 buys at 101 where the level is not a number. -/
theorem not_keepsLimit_nan :
    let o : Order (WithNaN ℤ) := ⟨9, .buy, .nan, 5, 2, .ioc⟩
    let o' : Order (WithNaN ℤ) := ⟨9, .buy, .number 100, 5, 2, .ioc⟩
    (Reached oneAsk ∧ Ordinary oneAsk
      ∧ (submitOrder oneAsk o).1 = [⟨9, 1, .number 101, 5, 2⟩]
      ∧ (submitOrder oneAsk { o with type := .fok }).1 = []
      ∧ ¬ KeepsLimit oneAsk o)
    ∧ Reached staleLevel ∧ staleLevel.resting .sell = [⟨2, .sell, .number 101, 5, 1, .limit⟩]
      ∧ (submitOrder staleLevel o').1 = [⟨9, 2, .number 101, 5, 2⟩]
      ∧ ¬ KeepsLimit staleLevel o' := by
  intro o o'
  have htrades : (submitOrder oneAsk o).1 = [⟨9, 1, .number 101, 5, 2⟩] := by decide
  have hstale : (submitOrder staleLevel o').1 = [⟨9, 2, .number 101, 5, 2⟩] := by decide
  refine ⟨⟨Reached.empty.addOrder _, ordinary_oneAsk, htrades, by decide, fun h => ?_⟩,
    ((Reached.empty.addOrder _).addOrder _).cancelOrder _, by decide, hstale, fun h => ?_⟩
  · exact absurd (h.trades _ (htrades ▸ List.mem_singleton.mpr rfl)) (by decide)
  · exact absurd (h.trades _ (hstale ▸ List.mem_singleton.mpr rfl)) (by decide)

end Leviathan
