import Leviathan.Book.Prices

/-!
The book is never crossed.

`Uncrossed b`: every resting buy is priced strictly below every resting sell.  A submitted
order keeps it because its remainder rests only when the matching loop found no level left
to cross (`uncrossed_submitOrder`), a cancellation and a modification in place because they
bring no new price (`PricesFrom`), and `addOrder`, which does not match, as long as the
caller adds no order that crosses the best opposite price (`AddsUncrossed`).
-/

namespace Leviathan

open Allotment

variable {P : Type*} [LinearOrder P]

/-- Every resting buy is priced strictly below every resting sell. -/
def Uncrossed (b : OrderBook P) : Prop :=
  ∀ x ∈ b.resting .buy, ∀ y ∈ b.resting .sell, x.price < y.price

/-- The same, seen from either side. -/
lemma uncrossed_iff {b : OrderBook P} (s : Side) :
    Uncrossed b ↔ ∀ x ∈ b.resting s, ∀ y ∈ b.resting s.opposite,
      s.opposite.before x.price y.price := by
  cases s with
  | buy => exact Iff.rfl
  | sell => exact ⟨fun h x hx y hy => h y hy x hx, fun h x hx y hy => h y hy x hx⟩

lemma not_within_iff {s : Side} {p limit : P} :
    ¬ s.Within p limit ↔ s.opposite.before limit p := by
  cases s with
  | buy => exact not_le
  | sell => exact not_le

lemma Uncrossed.of_pricesFrom {b b' : OrderBook P} (h : Uncrossed b) (hp : PricesFrom b b') :
    Uncrossed b' := by
  intro x hx y hy
  obtain ⟨x', hx', hxp⟩ := hp .buy x hx
  obtain ⟨y', hy', hyp⟩ := hp .sell y hy
  rw [← hxp, ← hyp]
  exact h x' hx' y' hy'

/-- An order that crosses nothing on the other side can join its own. -/
lemma uncrossed_addOrder {b : OrderBook P} (hwf : BookWF b) (h : Uncrossed b) {o : Order P}
    (ho : ∀ y ∈ b.resting o.side.opposite, o.side.opposite.before o.price y.price) :
    Uncrossed (addOrder b o) := by
  rw [uncrossed_iff o.side] at h ⊢
  rw [OrderBook.resting_congr (side_addOrder_of_ne b o.side.opposite_ne), resting_addOrder_self hwf]
  intro x hx y hy
  rcases (List.mem_orderedInsert _).mp hx with rfl | hx
  · exact ho y hy
  · exact h x hx y hy

/-- **A submitted order leaves the book uncrossed**: when a remainder rests, the orders it
crossed are all gone. -/
lemma uncrossed_submitOrder {b : OrderBook P} (hwf : BookWF b) (h : Uncrossed b)
    (o : Order P) : Uncrossed (submitOrder b o).2 := by
  rw [submitOrder_eq hwf]
  split_ifs with hr hrests
  · exact h
  · have hm := h.of_pricesFrom (pricesFrom_matched hwf o)
    refine uncrossed_addOrder (wf_matched hwf o) hm ?_
    intro y hy
    have hy : y ∈ (matched b o).resting o.side.opposite := hy
    rw [resting_matched_opposite hwf o, hrests.keep_eligible, List.nil_append] at hy
    have hnc : ¬ o.Crosses y.price := by simpa using (List.mem_filter.mp hy).2
    have hnw : ¬ o.side.Within y.price o.price := fun hw => hnc (Or.inr hw)
    exact not_within_iff.mp hnw
  · exact h.of_pricesFrom (pricesFrom_matched hwf o)

/-- A run whose `addOrder` calls cross no best opposite price. -/
def AddsUncrossed (b : OrderBook P) : Call P → Prop
  | .addOrder o =>
      match o.side with
      | .buy => ∀ a ∈ bestAsk b, o.price < a
      | .sell => ∀ a ∈ bestBid b, a < o.price
  | _ => True

instance (b : OrderBook P) (c : Call P) : Decidable (AddsUncrossed b c) :=
  match c with
  | .addOrder ⟨_, .buy, price, _, _, _⟩ =>
      inferInstanceAs (Decidable (∀ a ∈ bestAsk b, price < a))
  | .addOrder ⟨_, .sell, price, _, _, _⟩ =>
      inferInstanceAs (Decidable (∀ a ∈ bestBid b, a < price))
  | .submitOrder _ => inferInstanceAs (Decidable True)
  | .cancelOrder _ => inferInstanceAs (Decidable True)
  | .modifyOrder _ _ _ _ => inferInstanceAs (Decidable True)

/-- The guard of a run, from either side: every order of the other side comes behind its best
price, and the new order lies beyond that. -/
lemma AddsUncrossed.before {b : OrderBook P} (hwf : BookWF b) {o : Order P}
    (hg : AddsUncrossed b (.addOrder o)) :
    ∀ y ∈ b.resting o.side.opposite, o.side.opposite.before o.price y.price := by
  intro y hy
  have hbest : ∀ a, (b.side o.side.opposite).head?.map Prod.fst = some a →
      o.side.opposite.before o.price a := by
    intro a ha
    simp only [AddsUncrossed] at hg
    cases hs : o.side <;> rw [hs] at hg ha
    · exact hg a ha
    · exact hg a ha
  cases ha : (b.side o.side.opposite).head?.map Prod.fst with
  | none =>
      rw [OrderBook.resting, (hwf o.side.opposite).head?_eq_none.mp ha] at hy
      simp at hy
  | some a =>
      have hle := ((hwf o.side.opposite).head?_eq_some ha).2 y hy
      have hlt := hbest a ha
      rcases trichotomous_of o.side.opposite.before y.price a with h | h | h
      · exact absurd h hle
      · rwa [h]
      · exact trans_of o.side.opposite.before hlt h

lemma uncrossed_call {b : OrderBook P} (hwf : BookWF b) (h : Uncrossed b) (c : Call P)
    (hg : AddsUncrossed b c) : Uncrossed (call b c).2 := by
  cases c with
  | addOrder o => exact uncrossed_addOrder hwf h (hg.before hwf)
  | submitOrder o => exact uncrossed_submitOrder hwf h o
  | cancelOrder id =>
      rcases cancelOrder_cases hwf id with ⟨heq, -⟩ | ⟨s, o, bef, aft, -, -, hr⟩
      · simp only [call, heq]
        exact h
      · exact h.of_pricesFrom (pricesFrom_removed hr)
  | modifyOrder counter id p q =>
      rcases modifyOrder_cases hwf counter id p q with
        ⟨heq, -⟩ | ⟨s, o, bef, aft, -, -, hr, hcase⟩
      · simp only [call, heq]
        exact h
      · have hrem := h.of_pricesFrom (pricesFrom_removed hr)
        rcases hcase with ⟨-, heq⟩ | ⟨-, -, -, b', heq, hw⟩ | ⟨-, -, heq⟩
        · simp only [call, heq]
          exact hrem
        · simp only [call, heq]
          exact h.of_pricesFrom (pricesFrom_rewritten hr.resting hw)
        · simp only [call, heq]
          exact uncrossed_submitOrder hr.wf hrem _

/-- **The book is never crossed** between two calls: one side is empty or the best bid is
strictly below the best ask. -/
theorem bestBid_lt_bestAsk (cs : List (Call P))
    (h : Machine.Guarded call AddsUncrossed OrderBook.empty cs) :
    (after cs).resting .buy = [] ∨ (after cs).resting .sell = []
      ∨ ∃ p q, bestBid (after cs) = some p ∧ bestAsk (after cs) = some q ∧ p < q := by
  obtain ⟨hwf, hun⟩ : BookWF (after cs) ∧ Uncrossed (after cs) :=
    h.invariant (fun b => BookWF b ∧ Uncrossed b)
      (fun b c hb hg => ⟨wf_call hb.1 c, uncrossed_call hb.1 hb.2 c hg⟩)
      ⟨BookWF.empty, fun x hx => absurd hx (by simp [OrderBook.resting, OrderBook.side,
        OrderBook.empty])⟩
  cases hb : bestBid (after cs) with
  | none => exact Or.inl ((hwf .buy).head?_eq_none.mp hb)
  | some p =>
      cases ha : bestAsk (after cs) with
      | none => exact Or.inr (Or.inl ((hwf .sell).head?_eq_none.mp ha))
      | some q =>
          obtain ⟨⟨x, hx, rfl⟩, -⟩ := (hwf .buy).head?_eq_some hb
          obtain ⟨⟨y, hy, rfl⟩, -⟩ := (hwf .sell).head?_eq_some ha
          exact Or.inr (Or.inr ⟨_, _, rfl, rfl, hun x hx y hy⟩)

/-- After the sample book, a LIMIT BUY of 20 at 102 clears the asks and rests below the new
ask at 103. -/
theorem bestBid_lt_bestAsk_sample :
    let cs := sampleCalls ++ [.submitOrder ⟨6, .buy, 102, 20, 5, .limit⟩,
      .addOrder ⟨7, .sell, 103, 1, 6, .limit⟩]
    (after cs).resting .buy = [] ∨ (after cs).resting .sell = []
      ∨ ∃ p q, bestBid (after cs) = some p ∧ bestAsk (after cs) = some q ∧ p < q :=
  bestBid_lt_bestAsk _ (by decide)

end Leviathan
