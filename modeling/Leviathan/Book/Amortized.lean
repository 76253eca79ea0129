import Leviathan.Book.Index

/-!
What a run of calls does, against the orders handed in to it.

One call of `submitOrder` may turn its matching loop as often as there are resting orders to meet,
and one of `modifyOrder` too.  Over a run that cannot happen often: a turn that another one follows
takes its resting order off the book, and this order was handed in before.

* `Response.work` is what an answer reports to be done, one for each trade, that is for each turn
  of the loop, and one for an order cancelled.
* The number of resting orders pays for it.  `work_call` is the step: an order handed in adds one,
  for itself if it comes to rest and for the maker it leaves in part if it does not.
* `amortized`: along every run, what is done and what still rests is at most what rested and what
  was handed in.
-/

namespace Leviathan

open Allotment

variable {P : Type*}

/-- What an answer reports: the turns of a matching loop, a trade each, or a cancellation. -/
def Response.work : Response P → ℕ
  | .cancelled true => 1
  | r => r.tradeList.length

/-- The orders that a call hands in. -/
def Call.handsIn : Call P → ℕ
  | .addOrder _ => 1
  | .submitOrder _ => 1
  | _ => 0

variable [LinearOrder P] {b b' : OrderBook P} {o : Order P}

lemma Removed.length_restingAll {s : Side} {before after : List (Order P)}
    (h : Removed b b' s o before after) : b.restingAll.length = b'.restingAll.length + 1 :=
  h.restingAll.length_eq

lemma length_addOrder (h : BookWF b) (o : Order P) :
    (addOrder b o).restingAll.length = b.restingAll.length + 1 :=
  (restingAll_addOrder h o).length_eq

/-- A submitted order comes to rest, and every order it traded with is gone, or it does not, and
they are gone but for the last. -/
lemma length_submitOrder_le (h : BookWF b) (o : Order P) :
    (submitOrder b o).1.length + (submitOrder b o).2.restingAll.length
      ≤ b.restingAll.length + 1 := by
  have hmet : b.restingAll.length = (eligible b o).length + (unmet b o).length := by
    rw [(restingAll_eligible h o).length_eq, List.length_append]
  have hfills : (fills b o).length = (allot Order.qty o.qty (eligible b o)).length :=
    List.length_map _
  rw [submitOrder_eq h]
  split_ifs with hrefused hrests
  · simp only [List.length_nil]
    omega
  · have hleft := (hrests.restingAll_matched h).length_eq
    have honce := length_allot_le Order.qty o.qty (eligible b o)
    have hadd := length_addOrder (wf_matched h o) (remainder b o)
    simp only
    omega
  · have hleft := (restingAll_matched h o).length_eq
    have hlast := length_allot_add_keep_le Order.qty Order.cutTo o.qty (eligible b o)
    rw [List.length_append] at hleft
    simp only
    omega

/-- **One call** does no more than the orders that leave the book and the one handed in pay for. -/
lemma work_call (b : OrderBook P) (c : Call P) (h : BookWF b) :
    (call b c).1.work + (call b c).2.restingAll.length ≤ b.restingAll.length + c.handsIn := by
  cases c with
  | addOrder o => exact (Nat.zero_add _).trans_le (length_addOrder h o).le
  | submitOrder o => exact length_submitOrder_le h o
  | cancelOrder id =>
      rcases cancelOrder_cases h id with ⟨heq, -⟩ | ⟨s, o, before, after, -, hc, hr⟩
      · simp [call, heq, Response.work, Response.tradeList, Call.handsIn]
      · have := hr.length_restingAll
        simp only [call, hc, Response.work, Call.handsIn]
        omega
  | modifyOrder counter id p q =>
      rcases modifyOrder_cases h counter id p q with
        ⟨heq, -⟩ | ⟨s, o, before, after, -, -, hr, hcase⟩
      · simp [call, heq, Response.work, Response.tradeList, Call.handsIn]
      have hlen := hr.length_restingAll
      rcases hcase with ⟨-, heq⟩ | ⟨-, -, -, b', heq, hw⟩ | ⟨-, -, heq⟩
      · simp only [call, heq, Response.work, Response.tradeList, Call.handsIn, List.length_nil]
        omega
      · have := (hw.restingAll hr).length_eq
        rw [List.length_cons] at this
        simp only [call, heq, Response.work, Response.tradeList, Call.handsIn, List.length_nil]
        omega
      · -- the order taken off pays for the one submitted in its place
        have := length_submitOrder_le hr.wf ⟨id, s, p, q, counter, .limit⟩
        simp only [call, heq, Response.work, Response.tradeList, Call.handsIn]
        omega

/-- **The matching loops do amortised constant work.**  Along every run of calls, from every book
that a run leaves, whatever ids are reused and whatever orders have no quantity: the turns of all
matching loops, which are the trades of all answers, the orders cancelled and the orders that rest
in the end are together at most the orders that rested at the start and the calls of `addOrder`
and `submitOrder`. -/
theorem amortized (cs ds : List (Call P)) :
    ((Machine.answers call (after cs) ds).map Response.work).sum
        + (after (cs ++ ds)).restingAll.length
      ≤ (after cs).restingAll.length + (ds.map Call.handsIn).sum := by
  have hrun := Machine.potential BookWF (fun _ c h => wf_call h c) Response.work Call.handsIn
    (fun b => b.restingAll.length) work_call (wf_after cs) ds
  have hafter : after (cs ++ ds) = Machine.final call (after cs) ds :=
    Machine.final_append call _ cs ds
  rwa [hafter]

/-- Two bids that take three asks off, one of them with a part of it left. -/
example : ((responses (sampleCalls ++ [.submitOrder ⟨9, .buy, 102, 8, 10, .limit⟩,
    .submitOrder ⟨10, .buy, 102, 9, 11, .limit⟩])).map Response.work).sum = 4 := by decide

end Leviathan
