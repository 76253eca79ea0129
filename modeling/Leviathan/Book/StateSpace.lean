import Leviathan.Book.Snapshot
import Leviathan.Book.Uncrossed
import Leviathan.Book.UnitFills

/-!
The books that can be reached.

The invariants of the book say what every run keeps.  Here they are shown to say all of it: a book
that has them is left by some run.

* Runs that reuse no resting id reach exactly the books whose index is exact.
* Among these, the runs without `addOrder`, whose orders all go through the matching loop, reach
  exactly those that are also uncrossed and hold only LIMIT orders, each of some quantity
  (`MatchedBook`).
* The run is the book's own orders again (`added_run`): added in the order of their priority, or,
  for a matched book, submitted, when none of them trades.
-/

namespace Leviathan

open Allotment

variable {P : Type*} [LinearOrder P]

/-- The call adds its order without matching it. -/
def Call.isAdd : Call P → Bool
  | .addOrder _ => true
  | _ => false

/-- A run that matches every order, and reuses no resting id. -/
def FreshMatched (b : OrderBook P) (c : Call P) : Prop := FreshIds b c ∧ c.isAdd = false

instance (b : OrderBook P) (c : Call P) : Decidable (FreshMatched b c) :=
  inferInstanceAs (Decidable (_ ∧ _))

/-- Only LIMIT orders rest. -/
def Limited (b : OrderBook P) : Prop := ∀ o ∈ b.restingAll, o.type = .limit

/-- A book that matching leaves. -/
structure MatchedBook (b : OrderBook P) : Prop where
  exact : IndexExact b
  uncrossed : Uncrossed b
  sized : Sized b
  limited : Limited b

/-! ### What every run keeps -/

namespace Limited

variable {b b' b'' : OrderBook P} {s : Side} {o : Order P} {bef aft : List (Order P)}

omit [LinearOrder P] in
lemma perm {l : List (Order P)} (h : b.restingAll.Perm l) :
    Limited b ↔ ∀ o ∈ l, o.type = .limit := by
  simp only [Limited, h.mem_iff]

lemma submitOrder (hwf : BookWF b) (h : Limited b) (o : Order P) :
    Limited (submitOrder b o).2 := by
  have hmatched : Limited (matched b o) := by
    have hall := (perm (restingAll_eligible hwf o)).mp h
    refine (perm (restingAll_matched hwf o)).mpr fun x hx => ?_
    rcases List.mem_append.mp hx with hx | hx
    · -- an order that is cut down keeps its type
      rcases mem_keep _ _ hx with hx | ⟨y, hy, n, rfl⟩
      · exact hall x (List.mem_append_left _ hx)
      · exact hall y (List.mem_append_left _ hy)
    · exact hall x (List.mem_append_right _ hx)
  rw [submitOrder_eq hwf]
  split_ifs with hr hrests
  · exact h
  · refine (perm (restingAll_addOrder (wf_matched hwf o) _)).mpr ?_
    exact List.forall_mem_cons.mpr ⟨hrests.1, hmatched⟩
  · exact hmatched

lemma removed (h : Limited b) (hr : Removed b b' s o bef aft) : Limited b' :=
  (List.forall_mem_cons.mp ((perm hr.restingAll).mp h)).2

lemma rewritten (h : Limited b) (hr : Removed b b' s o bef aft) {q : UInt64}
    (hw : Rewritten b b'' s o q bef aft) : Limited b'' := by
  obtain ⟨ho, hrest⟩ := List.forall_mem_cons.mp ((perm hr.restingAll).mp h)
  exact (perm (hw.restingAll hr)).mpr (List.forall_mem_cons.mpr ⟨ho, hrest⟩)

/-- **One call** other than `addOrder`. -/
lemma call (hwf : BookWF b) (h : Limited b) (c : Call P) (hc : c.isAdd = false) :
    Limited (call b c).2 := by
  cases c with
  | addOrder o => cases hc
  | submitOrder o => exact h.submitOrder hwf o
  | cancelOrder id =>
      rcases cancelOrder_cases hwf id with ⟨heq, -⟩ | ⟨s, o, bef, aft, -, -, hr⟩
      · simp only [Leviathan.call, heq]
        exact h
      · exact h.removed hr
  | modifyOrder counter id p q =>
      rcases modifyOrder_cases hwf counter id p q with
        ⟨heq, -⟩ | ⟨s, o, bef, aft, -, -, hr, hcase⟩
      · simp only [Leviathan.call, heq]
        exact h
      · rcases hcase with ⟨-, heq⟩ | ⟨-, -, -, b', heq, hw⟩ | ⟨-, -, heq⟩
        · simp only [Leviathan.call, heq]
          exact h.removed hr
        · simp only [Leviathan.call, heq]
          exact h.rewritten hr hw
        · simp only [Leviathan.call, heq]
          exact (h.removed hr).submitOrder hr.wf _

end Limited

lemma MatchedBook.empty : MatchedBook (OrderBook.empty : OrderBook P) :=
  { exact := IndexExact.empty
    uncrossed := fun _ hx => by cases hx
    sized := Sized.empty
    limited := fun _ ho => by cases ho }

/-- **One call** that reuses no resting id and is not `addOrder` leaves a matched book matched. -/
lemma MatchedBook.call {b : OrderBook P} (h : MatchedBook b) {c : Call P}
    (hc : FreshMatched b c) : MatchedBook (call b c).2 := by
  obtain ⟨hfresh, hno⟩ := hc
  have hadds : AddsUncrossed b c := by
    cases c with
    | addOrder o => cases hno
    | submitOrder o => trivial
    | cancelOrder id => trivial
    | modifyOrder counter id p q => trivial
  exact
    { exact := h.exact.call c hfresh
      uncrossed := uncrossed_call h.exact.wf h.uncrossed c hadds
      sized := (h.sized.call h.exact.wf c fun o ho => by rw [ho] at hno; cases hno).1
      limited := h.limited.call h.exact.wf c hno }

/-! ### Every such book is left by a run -/

/-- **Adding the orders of a book** one by one, by calls that each add their order and trade
nothing: the guard is met, the orders are added and nothing is traded. -/
lemma added_run {t : OrderBook P} {g : OrderBook P → Call P → Prop} {f : Order P → Call P}
    (hf : ∀ b o, BookWF b → (∀ m ∈ b.restingAll, m ∈ t.restingAll) → o ∈ t.restingAll →
      o.id ∉ b.restingIds →
        g b (f o) ∧ (call b (f o)).2 = addOrder b o ∧ (call b (f o)).1.tradeList = [])
    {os : List (Order P)} (hos : ∀ o ∈ os, o ∈ t.restingAll) {b : OrderBook P} (hwf : BookWF b)
    (hb : ∀ m ∈ b.restingAll, m ∈ t.restingAll) (hids : (b.restingIds ++ os.map Order.id).Nodup) :
    Machine.Guarded call g b (os.map f)
      ∧ Machine.final call b (os.map f) = os.foldl addOrder b
      ∧ ∀ r ∈ Machine.answers call b (os.map f), r.tradeList = [] := by
  induction os generalizing b with
  | nil => exact ⟨trivial, rfl, by simp⟩
  | cons o os ih =>
      obtain ⟨ho, hos⟩ := List.forall_mem_cons.mp hos
      have hperm : (o.id :: (b.restingIds ++ os.map Order.id)).Nodup :=
        List.perm_middle.nodup_iff.mp hids
      have hfresh : o.id ∉ b.restingIds := fun hmem =>
        (List.nodup_cons.mp hperm).1 (List.mem_append_left _ hmem)
      obtain ⟨hg, hadd, htrades⟩ := hf b o hwf hb ho hfresh
      have hresting := restingAll_addOrder hwf o
      have hnext : ∀ m ∈ (addOrder b o).restingAll, m ∈ t.restingAll := fun m hm => by
        rcases List.mem_cons.mp (hresting.mem_iff.mp hm) with rfl | hm
        · exact ho
        · exact hb m hm
      have hids' : ((addOrder b o).restingIds ++ os.map Order.id).Nodup :=
        ((hresting.map Order.id).append_right _).nodup_iff.mpr hperm
      obtain ⟨hguard, hfinal, hall⟩ := ih hos (wf_addOrder hwf o) hnext hids'
      rw [← hadd] at hguard hfinal hall
      refine ⟨⟨hg, hguard⟩, hfinal.trans (by rw [hadd]; rfl), ?_⟩
      exact List.forall_mem_cons.mpr ⟨htrades, hall⟩

/-- A book with an exact index, from its orders. -/
lemma IndexExact.rebuilt {t : OrderBook P} (ht : IndexExact t) {g : OrderBook P → Call P → Prop}
    {f : Order P → Call P}
    (hf : ∀ b o, BookWF b → (∀ m ∈ b.restingAll, m ∈ t.restingAll) → o ∈ t.restingAll →
      o.id ∉ b.restingIds →
        g b (f o) ∧ (Leviathan.call b (f o)).2 = Leviathan.addOrder b o
          ∧ (Leviathan.call b (f o)).1.tradeList = []) :
    Machine.Guarded Leviathan.call g OrderBook.empty (t.restingAll.map f)
      ∧ after (t.restingAll.map f) = t
      ∧ ∀ r ∈ responses (t.restingAll.map f), r.tradeList = [] := by
  obtain ⟨hguard, hfinal, htrades⟩ := added_run hf (fun o ho => ho) BookWF.empty
    (fun m hm => by cases hm) ht.tracks.nodup
  exact ⟨hguard, hfinal.trans (addAll_eq ht (lists_restingAll ht.wf)), htrades⟩

/-- An order of a matched book, submitted to a part of the book, rests whole. -/
lemma MatchedBook.submitOrder_eq {t b : OrderBook P} (ht : MatchedBook t) {o : Order P}
    (hwf : BookWF b) (hb : ∀ m ∈ b.restingAll, m ∈ t.restingAll) (ho : o ∈ t.restingAll) :
    submitOrder b o = ([], addOrder b o) := by
  have hside : ∀ m ∈ t.restingAll, m ∈ t.resting m.side := fun m hm => by
    obtain ⟨s, hs⟩ := OrderBook.mem_restingAll.mp hm
    rwa [(ht.exact.wf s).side_of_mem hs]
  refine submitOrder_of_no_cross hwf (ht.limited o ho)
    (Order.quantity_ne_zero_iff.mpr (ht.sized o ho).ne') fun m hm hcross => ?_
  have hms : m.side = o.side.opposite := (hwf o.side.opposite).side_of_mem hm
  have hmt : m ∈ t.resting o.side.opposite :=
    hms ▸ hside m (hb m (OrderBook.mem_restingAll.mpr ⟨_, hm⟩))
  have hbefore := (uncrossed_iff o.side).mp ht.uncrossed o (hside o ho) m hmt
  rcases hcross with hmarket | hwithin
  · rw [ht.limited o ho] at hmarket
    cases hmarket
  · exact not_within_iff.mpr hbefore hwithin

/-- **The books that can be reached.**  Runs that reuse no resting id leave exactly the books whose
index is exact; those of them that match every order leave exactly the matched books; and the
orders of a matched book, submitted one after the other, leave it again and trade nothing. -/
theorem reachable_iff (b : OrderBook P) :
    ((∃ cs, Machine.Guarded call FreshIds OrderBook.empty cs ∧ after cs = b) ↔ IndexExact b)
      ∧ ((∃ cs, Machine.Guarded call FreshMatched OrderBook.empty cs ∧ after cs = b)
        ↔ MatchedBook b)
      ∧ (MatchedBook b → after (b.restingAll.map Call.submitOrder) = b
        ∧ ∀ r ∈ responses (b.restingAll.map Call.submitOrder), r.tradeList = []) := by
  have hsubmitted : MatchedBook b →
      Machine.Guarded call FreshMatched OrderBook.empty (b.restingAll.map Call.submitOrder)
        ∧ after (b.restingAll.map Call.submitOrder) = b
        ∧ ∀ r ∈ responses (b.restingAll.map Call.submitOrder), r.tradeList = [] := fun hb => by
    refine hb.exact.rebuilt fun b' o hwf hsub ho hfresh => ?_
    have heq := hb.submitOrder_eq hwf hsub ho
    exact ⟨⟨hfresh, rfl⟩, congrArg Prod.snd heq, congrArg Prod.fst heq⟩
  refine ⟨⟨?_, fun hb => ?_⟩, ⟨?_, fun hb => ?_⟩, fun hb => (hsubmitted hb).2⟩
  · rintro ⟨cs, hcs, rfl⟩
    exact indexExact_after hcs
  · have hadded := hb.rebuilt (g := FreshIds) (f := Call.addOrder)
      fun b' o _ _ _ hfresh => ⟨hfresh, rfl, rfl⟩
    exact ⟨_, hadded.1, hadded.2.1⟩
  · rintro ⟨cs, hcs, rfl⟩
    exact hcs.invariant MatchedBook (fun b' c h hc => h.call hc) MatchedBook.empty
  · obtain ⟨hguard, hafter, -⟩ := hsubmitted hb
    exact ⟨_, hguard, hafter⟩

/-- The sample book has an order without quantity, which only `addOrder` lets rest; a book that a
market order has left comes back when its orders are submitted. -/
theorem reachable_iff_sample :
    (∀ cs, Machine.Guarded call FreshMatched OrderBook.empty cs → after cs ≠ after sampleCalls)
      ∧ ∃ cs : List (Call ℤ), cs.length = 2 ∧ after cs = after
        [.submitOrder ⟨1, .sell, 101, 5, 0, .limit⟩, .submitOrder ⟨2, .buy, 99, 4, 1, .limit⟩,
          .submitOrder ⟨3, .buy, 0, 2, 2, .market⟩] := by
  refine ⟨fun cs hcs heq => ?_, ?_⟩
  · have hsized := ((reachable_iff (after sampleCalls)).2.1.mp ⟨cs, hcs, heq⟩).sized
    exact absurd (hsized ⟨2, .sell, 101, 0, 1, .limit⟩ (by decide)) (by decide)
  · obtain ⟨-, hmatched, hback⟩ := reachable_iff (after [.submitOrder ⟨1, .sell, 101, 5, 0, .limit⟩,
      .submitOrder ⟨2, .buy, 99, 4, 1, .limit⟩, .submitOrder ⟨3, .buy, (0 : ℤ), 2, 2, .market⟩])
    have hb := hback (hmatched.mp ⟨_, by decide, rfl⟩)
    exact ⟨_, by decide, hb.1⟩

end Leviathan
