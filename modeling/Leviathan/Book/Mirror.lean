import Leviathan.Book.Relabel

/-!
Buy and sell are mirror images.

The source writes every operation twice, with comparators and comparisons turned around.
`mirror f` exchanges the sides and maps the prices by `f`; when `f` reverses their order it keeps
every comparison the book makes (`mirror_before`, `mirror_within`), so that mirrored calls keep
mirrored books mirrored (`mirror_call`).  `mirror_run` is the statement about whole runs.
-/

namespace Leviathan

variable {P P' : Type*}

/-- Exchange the sides, and map the prices. -/
def mirror (f : P → P') : Relabelling P P' :=
  ⟨Side.opposite, f, fun s => by cases s <;> rfl⟩

/-- The aggregate of a level at the mirrored price. -/
def PriceLevel.mirror (f : P → P') (l : PriceLevel P) : PriceLevel P' :=
  ⟨f l.price, l.aggregateQuantity, l.orderCount⟩

lemma aggregate_mirror (f : P → P') (p : P) (q : List (Order P)) :
    aggregate (f p) (q.map (Leviathan.mirror f).order) = (aggregate p q).mirror f := by
  rw [aggregate, aggregate, PriceLevel.mirror, List.foldl_map, List.length_map]
  rfl

lemma getDepth_mirror {f : P → P'} {b : OrderBook P} {b' : OrderBook P'}
    (h : Relabelled (mirror f) b b') (maxSize : ℕ) (s : Side) (maxLevels : UInt64) :
    getDepth maxSize b' s.opposite maxLevels
      = (getDepth maxSize b s maxLevels).map (List.map (PriceLevel.mirror f)) := by
  have hlevels : b'.side s.opposite = (mirror f).levels (b.side s) := h.side s
  rw [getDepth_eq, getDepth_eq, hlevels, depthFromMap, depthFromMap]
  split_ifs
  · rfl
  · rw [Option.map_some, Relabelling.levels, ← List.map_take, List.map_map, List.map_map]
    exact congrArg some (List.map_congr_left fun l _ => aggregate_mirror f l.1 l.2)

/-- The best bid of the one book is the best ask of the other. -/
lemma best_mirror {f : P → P'} {b : OrderBook P} {b' : OrderBook P'}
    (h : Relabelled (mirror f) b b') :
    bestBid b' = (bestAsk b).map f ∧ bestAsk b' = (bestBid b).map f := by
  have hhead : ∀ m : SideMap P,
      ((mirror f).levels m).head?.map Prod.fst = (m.head?.map Prod.fst).map f := by
    intro m
    cases m <;> rfl
  have hbids : b'.bids = (mirror f).levels b.asks := h.side .sell
  have hasks : b'.asks = (mirror f).levels b.bids := h.side .buy
  rw [bestBid, bestAsk, bestAsk, bestBid, hbids, hasks]
  exact ⟨hhead _, hhead _⟩

variable [LinearOrder P] [LinearOrder P'] {f : P → P'}

/-! ### The comparisons -/

lemma mirror_before (hf : StrictAnti f) (s : Side) (a b : P) :
    ((mirror f).side s).before (f a) (f b) ↔ s.before a b := by
  cases s with
  | buy => exact hf.lt_iff_gt
  | sell => exact hf.lt_iff_gt

lemma mirror_within (hf : StrictAnti f) (s : Side) (p limit : P) :
    ((mirror f).side s).Within (f p) (f limit) ↔ s.Within p limit := by
  cases s with
  | buy => exact hf.le_iff_ge
  | sell => exact hf.le_iff_ge

lemma mirror_fits (hf : StrictAnti f) (s : Side) (p : P) (m : SideMap P) :
    (mirror f).Fits s p m := fun l _ => ⟨mirror_before hf s l.1 p, mirror_before hf s p l.1⟩

lemma mirror_crosses (hf : StrictAnti f) (o : Order P) (p : P) :
    ((mirror f).order o).Crosses (f p) ↔ o.Crosses p :=
  or_congr Iff.rfl (mirror_within hf o.side p o.price)

/-! ### The run -/

/-- **One call** keeps the books mirrored and returns the mirrored answer. -/
lemma mirror_call (hf : StrictAnti f) {b : OrderBook P} {b' : OrderBook P'} (hwf : BookWF b)
    (hwf' : BookWF b') (h : Relabelled (mirror f) b b') (c : Call P) :
    (call b' ((mirror f).call c)).1 = (mirror f).response (call b c).1
      ∧ Relabelled (mirror f) (call b c).2 (call b' ((mirror f).call c)).2 := by
  have hid : ∀ (id : UInt64) s p, b.orderIndex.lookup id = some ⟨s, p⟩ →
      (mirror f).Fits s p (b.side s) := fun _ s p _ => mirror_fits hf s p _
  cases c with
  | addOrder o => exact ⟨rfl, h.addOrder (mirror_fits hf _ _ _)⟩
  | submitOrder o =>
      obtain ⟨htr, hbook⟩ := h.submitOrder_of_crosses hwf hwf'
        (fun l _ => mirror_crosses hf o l.1) (mirror_fits hf _ _ _)
      exact ⟨congrArg Response.trades htr, hbook⟩
  | cancelOrder id =>
      obtain ⟨hok, hbook⟩ := h.cancelOrder (hid id)
      exact ⟨congrArg Response.cancelled hok, hbook⟩
  | modifyOrder counter id p q =>
      obtain ⟨hres, hbook⟩ := h.modifyOrder (hid id)
        (fun _ _ _ _ _ _ _ => hf.injective.eq_iff) (fun s _ _ _ _ _ _ =>
          (h.cancelOrder (hid id)).2.submitOrder_of_crosses (o := ⟨id, s, p, q, counter, .limit⟩)
            (wf_cancelOrder hwf id) (wf_cancelOrder hwf' id)
            (fun l _ => mirror_crosses hf _ l.1) (mirror_fits hf _ _ _))
      exact ⟨congrArg Response.modified hres, hbook⟩

/-- **Buy and sell are mirror images.**  Let `f` reverse the order of the prices.  After any calls
and their mirror images: every answer is the mirrored one, the book is the mirrored book, the best
prices are exchanged, and the depth of one side is the mirrored depth of the other. -/
theorem mirror_run (hf : StrictAnti f) (cs : List (Call P)) :
    responses (cs.map (mirror f).call) = (responses cs).map (mirror f).response
      ∧ Relabelled (mirror f) (after cs) (after (cs.map (mirror f).call))
      ∧ bestBid (after (cs.map (mirror f).call)) = (bestAsk (after cs)).map f
      ∧ bestAsk (after (cs.map (mirror f).call)) = (bestBid (after cs)).map f
      ∧ ∀ maxSize s maxLevels,
        getDepth maxSize (after (cs.map (mirror f).call)) s.opposite maxLevels
          = (getDepth maxSize (after cs) s maxLevels).map (List.map (PriceLevel.mirror f)) := by
  have hall : Machine.Guarded call (fun _ _ => True) OrderBook.empty cs :=
    Machine.guarded_true _ cs
  obtain ⟨hans, -, -, hbook⟩ := hall.simulation
    (R := fun b b' => BookWF b ∧ BookWF b' ∧ Relabelled (mirror f) b b')
    (F := (mirror f).call) (G := (mirror f).response)
    (fun b b' c hb _ => by
      obtain ⟨hwf, hwf', h⟩ := hb
      obtain ⟨hans, hbook⟩ := mirror_call hf hwf hwf' h c
      exact ⟨hans, wf_call hwf c, wf_call hwf' _, hbook⟩)
    ⟨BookWF.empty, BookWF.empty, Relabelled.empty _⟩
  obtain ⟨hbid, hask⟩ := best_mirror hbook
  exact ⟨hans, hbook, hbid, hask, fun maxSize s n => getDepth_mirror hbook maxSize s n⟩

/-- The sample book under negation: a bid at -101 answers the asks at 101. -/
theorem mirror_run_sample :
    bestBid (after (sampleCalls.map (mirror (- ·)).call)) = some (-101)
      ∧ bestAsk (after (sampleCalls.map (mirror (- ·)).call)) = some (-99) := by
  obtain ⟨-, -, hbid, hask, -⟩ :=
    mirror_run (f := fun p : ℤ => -p) (fun _ _ h => neg_lt_neg h) sampleCalls
  exact ⟨hbid.trans (by decide), hask.trans (by decide)⟩

end Leviathan
