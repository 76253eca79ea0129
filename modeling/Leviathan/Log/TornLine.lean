import Mathlib.Data.List.TakeWhile
import Leviathan.Book.Soundness
import Leviathan.Log.Recovery

/-!
A log cut inside its last line.

The parser notices a field that is missing and not one that is shortened.

* The extractions of a line cut short: a field with nothing left behind it fails the comma that
  should follow (`field_cut`), so the fields of a fragment are read only where the last of
  them has begun (`orderFields_cut`, `idField_cut`, `modifyFields_cut`, `tradeFields_cut`).  The
  last field of an ADD or a SUBMIT line has one digit, the others can lose some.
* `Misread`: the fragment is the text of another line, one that changes the result.
* `torn_line_iff` says that the fragments that change the result are these.
-/

namespace Leviathan

variable {P : Type*}

/-! ### Fields cut short -/

lemma readWord_cut {n : UInt64} {s : List Char} (h : s <+: printWord n) :
    ∀ r ∈ readWord s, r.2 = [] := by
  intro r hr
  obtain ⟨r', hr', rfl⟩ := Option.map_eq_some_iff.mp hr
  have hdigits : ∀ c ∈ s, c.isDigit = true := fun c hc =>
    Decimal.isDigit_of_mem_natural (h.subset hc)
  exact (Decimal.leavesAsInteger_unsigned 64).rest_eq_nil hdigits r' hr'

lemma readInt_cut {n : ℕ} {s : List Char} (h : s <+: Decimal.natural n) :
    ∀ r ∈ readInt s, r.2 = [] :=
  (Decimal.leavesAsInteger_signed 31).rest_eq_nil fun _ hc =>
    Decimal.isDigit_of_mem_natural (h.subset hc)

lemma readPrice_cut {fmt : PriceFormat P} {p : P} {s : List Char} (h : s <+: fmt.fixed6 p) :
    ∀ r ∈ readPrice fmt s, r.2 = [] := by
  intro r hr
  obtain ⟨r', hr', hp⟩ := Option.bind_eq_some_iff.mp hr
  obtain ⟨p', -, rfl⟩ := Option.map_eq_some_iff.mp hp
  exact Decimal.rest_real_of_prefix h r' hr'

/-- With nothing left behind a field the comma that should follow it is missing. -/
lemma bind_none_of_cut {α β : Type*} {x : Option (α × List Char)} (h : ∀ r ∈ x, r.2 = [])
    {next : α × List Char → Option β} (hnext : ∀ a, next (a, []) = none) : x.bind next = none := by
  cases x with
  | none => rfl
  | some r =>
      obtain ⟨a, rest⟩ := r
      obtain rfl : rest = [] := h _ rfl
      exact hnext a

/-- A field of a chain, in a text cut short: the chain fails at the comma behind the field, or it
goes on behind that comma. -/
lemma field_cut {α β : Type*} {read : List Char → Option (α × List Char)} {a : α}
    {text rest s : List Char} {chain : α × List Char → Option β} {next : α → List Char → Option β}
    {q : Prop} (h : s <+: text ++ ',' :: rest) (hcut : ∀ t, t <+: text → ∀ r ∈ read t, r.2 = [])
    (hread : ∀ t, read (text ++ ',' :: t) = some (a, ',' :: t))
    (hchain : ∀ x t, chain (x, t) = (readComma t).bind (next x))
    (hnext : ∀ t, s = text ++ ',' :: t → t <+: rest → next a t = none ∨ q) :
    (read s).bind chain = none ∨ q := by
  rcases Decimal.prefix_mark h with hin | ⟨t, hs, ht⟩
  · exact Or.inl (bind_none_of_cut (hcut s hin) fun x => by rw [hchain]; rfl)
  · have hstep : (read s).bind chain = next a t := by
      rw [hs, hread, Option.bind_some, hchain, readComma_comma, Option.bind_some]
    rw [hstep]
    exact hnext t hs ht

/-- The numeral of a word, cut short, is nothing or the numeral of a smaller word. -/
lemma printWord_cut {n : UInt64} {s : List Char} (h : s <+: printWord n) :
    s = [] ∨ ∃ m : UInt64, s = printWord m := by
  by_cases hs : s = []
  · exact Or.inl hs
  · obtain ⟨m, hm, rfl⟩ := Decimal.exists_natural_of_prefix h hs
    have hlt : m < 2 ^ 64 := hm.trans_lt n.toNat_lt
    have hword : (UInt64.ofNat m).toNat = m := UInt64.toNat_ofNat_of_lt hlt
    exact Or.inr ⟨UInt64.ofNat m, by rw [printWord, hword]⟩

section Fields

variable {fmt : PriceFormat P} {s : List Char}

/-- An ADD or a SUBMIT line cut short has no type. -/
lemma orderFields_cut (seq : UInt64) {o : Order P} (hp : fmt.ReadsBack o.price)
    (h : s <+: commas [printWord seq, printWord o.id, Decimal.natural o.side.code,
      fmt.fixed6 o.price, printWord o.quantity, Decimal.natural o.type.code])
    (hne : s ≠ commas [printWord seq, printWord o.id, Decimal.natural o.side.code,
      fmt.fixed6 o.price, printWord o.quantity, Decimal.natural o.type.code]) :
    orderFields fmt s = none := by
  obtain ⟨hside, htype⟩ := code_lt o.side o.type
  refine Or.resolve_right (show _ ∨ False from ?_) id
  refine field_cut h (fun _ => readWord_cut) (fun _ => readWord_printWord seq (ends_comma _))
    (fun _ _ => rfl) fun s1 hs1 h1 => ?_
  refine field_cut h1 (fun _ => readWord_cut) (fun _ => readWord_printWord o.id (ends_comma _))
    (fun _ _ => rfl) fun s2 hs2 h2 => ?_
  refine field_cut h2 (fun _ => readInt_cut) (fun _ => readInt_natural hside (ends_comma _))
    (fun _ _ => rfl) fun s3 hs3 h3 => ?_
  refine field_cut h3 (fun _ => readPrice_cut) (fun _ => hp.readPrice_fixed6 (endsReal_comma _))
    (fun _ _ => rfl) fun s4 hs4 h4 => ?_
  refine field_cut h4 (fun _ => readWord_cut) (fun _ => readWord_printWord _ (ends_comma _))
    (fun _ _ => rfl) fun s5 hs5 h5 => ?_
  -- the type has one digit, so nothing of it is there
  have hcode : s5 <+: Decimal.natural o.type.code := h5
  have hlast : s5 = [] := by
    have hs : s5 ≠ Decimal.natural o.type.code := by
      rintro rfl
      exact hne (by rw [hs1, hs2, hs3, hs4, hs5]; rfl)
    have hone : (Decimal.natural o.type.code).length = 1 := by cases o.type <;> rfl
    have hlen : s5.length < 1 := by
      by_contra hge
      exact hs (hcode.eq_of_length_le (by omega))
    exact List.eq_nil_of_length_eq_zero (by omega)
  subst hlast
  exact Or.inl rfl

/-- The fields of a CANCEL line cut short are not read, or are those of some id. -/
lemma idField_cut (seq id : UInt64) (h : s <+: commas [printWord seq, printWord id]) :
    idField s = none ∨ ∃ id', s = commas [printWord seq, printWord id'] := by
  refine field_cut h (fun _ => readWord_cut) (fun _ => readWord_printWord seq (ends_comma _))
    (fun _ _ => rfl) fun s1 hs1 h1 => ?_
  rcases printWord_cut h1 with rfl | ⟨id', rfl⟩
  · exact Or.inl rfl
  · exact Or.inr ⟨id', hs1⟩

/-- The fields of a MODIFY line cut short are not read, or are those of some quantity. -/
lemma modifyFields_cut (seq id : UInt64) {p : P} (hp : fmt.ReadsBack p) (q : UInt64)
    (h : s <+: commas [printWord seq, printWord id, fmt.fixed6 p, printWord q]) :
    modifyFields fmt s = none
      ∨ ∃ q', s = commas [printWord seq, printWord id, fmt.fixed6 p, printWord q'] := by
  refine field_cut h (fun _ => readWord_cut) (fun _ => readWord_printWord seq (ends_comma _))
    (fun _ _ => rfl) fun s1 hs1 h1 => ?_
  refine field_cut h1 (fun _ => readWord_cut) (fun _ => readWord_printWord id (ends_comma _))
    (fun _ _ => rfl) fun s2 hs2 h2 => ?_
  refine field_cut h2 (fun _ => readPrice_cut) (fun _ => hp.readPrice_fixed6 (endsReal_comma _))
    (fun _ _ => rfl) fun s3 hs3 h3 => ?_
  rcases printWord_cut h3 with rfl | ⟨q', rfl⟩
  · exact Or.inl rfl
  · exact Or.inr ⟨q', by rw [hs1, hs2, hs3]; rfl⟩

/-- The fields of a TRADE line cut short are not read, or are those of some quantity. -/
lemma tradeFields_cut (seq : UInt64) {t : Trade P} (ht : fmt.ReadsBack t.price)
    (h : s <+: commas [printWord seq, printWord t.buyOrderId, printWord t.sellOrderId,
      fmt.fixed6 t.price, printWord t.quantity]) :
    tradeFields fmt s = none ∨ ∃ q', s = commas [printWord seq, printWord t.buyOrderId,
      printWord t.sellOrderId, fmt.fixed6 t.price, printWord q'] := by
  refine field_cut h (fun _ => readWord_cut) (fun _ => readWord_printWord seq (ends_comma _))
    (fun _ _ => rfl) fun s1 hs1 h1 => ?_
  refine field_cut h1 (fun _ => readWord_cut)
    (fun _ => readWord_printWord t.buyOrderId (ends_comma _)) (fun _ _ => rfl) fun s2 hs2 h2 => ?_
  refine field_cut h2 (fun _ => readWord_cut)
    (fun _ => readWord_printWord t.sellOrderId (ends_comma _)) (fun _ _ => rfl) fun s3 hs3 h3 => ?_
  refine field_cut h3 (fun _ => readPrice_cut) (fun _ => ht.readPrice_fixed6 (endsReal_comma _))
    (fun _ _ => rfl) fun s4 hs4 h4 => ?_
  rcases printWord_cut h4 with rfl | ⟨q', rfl⟩
  · exact Or.inl rfl
  · exact Or.inr ⟨q', by rw [hs1, hs2, hs3, hs4]; rfl⟩

end Fields

/-! ### Calls without effect -/

variable [LinearOrder P]

/-- The modification finds an order and asks for another price or quantity, or for none. -/
def Modifies (b : OrderBook P) (id : UInt64) (p : P) (q : UInt64) : Prop :=
  ∃ s price o, b.orderIndex.lookup id = some ⟨s, price⟩
    ∧ findOrderInDeque s (b.side s) price id = some o
    ∧ (q = 0 ∨ p ≠ price ∨ q ≠ o.quantity)

section Effect

variable {b b' : OrderBook P} {s : Side} {o : Order P} {bef aft : List (Order P)}

lemma Removed.ne (h : Removed b b' s o bef aft) : b' ≠ b := by
  rintro rfl
  have hlen := h.restingAll.length_eq
  rw [List.length_cons] at hlen
  omega

/-- A write of the quantity that stands there already. -/
lemma Rewritten.eq_self (hwf : BookWF b) (hr : Removed b b' s o bef aft) {b'' : OrderBook P}
    (h : Rewritten b b'' s o o.quantity bef aft) : b'' = b := by
  refine OrderBook.ext_side (forall_side s ?_ (by rw [h.other])) h.index
  exact (h.wf s).ext (hwf s) (h.resting'.trans hr.resting.symm)

lemma Rewritten.ne {b'' : OrderBook P} {q : UInt64} (hr : Removed b b' s o bef aft)
    (h : Rewritten b b'' s o q bef aft) (hq : q ≠ o.quantity) : b'' ≠ b := by
  rintro rfl
  have heq : bef ++ o.setQuantity q :: aft = bef ++ o :: aft := h.resting'.symm.trans hr.resting
  have ho : o.setQuantity q = o := (List.cons.inj (List.append_cancel_left heq)).1
  exact hq (congrArg Order.quantity ho)

/-- A LIMIT order that trades with nothing goes to the bag as it is. -/
lemma restingAll_submitOrder_of_nil (hwf : BookWF b) {n : Order P} (hq : n.quantity ≠ 0)
    (hn : n.type = .limit) (hnil : (submitOrder b n).1 = []) :
    (submitOrder b n).2.restingAll.Perm (n :: b.restingAll) := by
  have hrefused : ¬ Refused b n := by simp [Refused, hq, hn]
  have hqty : n.qty ≠ 0 := Order.quantity_ne_zero_iff.mp hq
  rw [submitOrder_eq hwf, if_neg hrefused] at hnil ⊢
  have helig : eligible b n = [] := by
    cases helig : eligible b n with
    | nil => rfl
    | cons m ms => simp [fills, helig, Allotment.allot, hqty] at hnil
  have hrests : Rests b n := ⟨hn, by simp [helig]; omega⟩
  have hrem : remainder b n = n := by
    simp [remainder, helig, Order.cutTo, Order.qty, Order.setQuantity]
  have hunmet := restingAll_eligible hwf n
  rw [helig, List.nil_append] at hunmet
  simp only [if_pos hrests, hrem]
  exact (restingAll_addOrder (wf_matched hwf n) n).trans
    (((hrests.restingAll_matched hwf).trans hunmet.symm).cons n)

/-- A modification by cancellation and resubmission at another price or quantity changes the
book, or trades. -/
lemma Removed.submitOrder_ne (hr : Removed b b' s o bef aft) {n : Order P} (hq : n.quantity ≠ 0)
    (hn : n.type = .limit) (hne : n ≠ o) :
    ¬ ((submitOrder b' n).2 = b ∧ (submitOrder b' n).1 = []) := by
  rintro ⟨hb, hnil⟩
  have hperm := restingAll_submitOrder_of_nil hr.wf hq hn hnil
  rw [hb] at hperm
  have hcons : (n :: b'.restingAll).Perm (o :: b'.restingAll) := hperm.symm.trans hr.restingAll
  have hbag : n ::ₘ (b'.restingAll : Multiset (Order P)) = o ::ₘ b'.restingAll :=
    Multiset.coe_eq_coe.mpr hcons
  exact hne ((Multiset.cons_inj_left _).mp hbag)

end Effect

lemma cancelOrder_eq_self_iff {b : OrderBook P} (h : IndexSound b) (id : UInt64) :
    (cancelOrder b id).2 = b ↔ b.orderIndex.lookup id = none := by
  rw [← Option.not_isSome_iff_eq_none, ← h.cancelOrder_iff id]
  rcases cancelOrder_cases h.wf id with ⟨heq, -⟩ | ⟨s, o, bef, aft, -, hok, hr⟩
  · simp [heq]
  · simp [hok, hr.ne]

lemma modifyOrder_eq_self_iff {b : OrderBook P} (h : BookWF b) (counter id : UInt64) (p : P)
    (q : UInt64) :
    ((modifyOrder b counter id p q).2.1 = b ∧ (modifyOrder b counter id p q).1.getD [] = [])
      ↔ ¬ Modifies b id p q := by
  rcases modifyOrder_cases h counter id p q with
    ⟨heq, hnone⟩ | ⟨s, o, bef, aft, rfl, -, hr, hcase⟩
  · refine iff_of_true (by simp [heq]) ?_
    rintro ⟨s, price, o, hl, hf, -⟩
    exact absurd hf (by simp [((h s).findOrderInDeque_eq_none price id).1.mpr (hnone s price hl)])
  · have hmod : Modifies b o.id p q ↔ q = 0 ∨ p ≠ o.price ∨ q ≠ o.quantity := by
      simp [Modifies, hr.lookup, hr.found]
    rw [hmod]
    rcases hcase with ⟨rfl, heq⟩ | ⟨hq, rfl, -, b', heq, hw⟩ | ⟨hq, hin, heq⟩
    · simp [heq, hr.ne]
    · by_cases heq' : q = o.quantity
      · subst heq'
        simp [heq, hw.eq_self h hr, hq]
      · simp [heq, hw.ne hr heq', heq']
    · have hne : (⟨o.id, s, p, q, counter, .limit⟩ : Order P) ≠ o := fun ho => hin
        ⟨congrArg Order.price ho, UInt64.le_of_eq (congrArg Order.quantity ho)⟩
      have hdiff : q = 0 ∨ p ≠ o.price ∨ q ≠ o.quantity := by
        by_contra hsame
        push Not at hsame
        exact hin ⟨hsame.2.1, UInt64.le_of_eq hsame.2.2⟩
      have hchanged := hr.submitOrder_ne (n := ⟨o.id, s, p, q, counter, .limit⟩) hq rfl hne
      simpa [heq, hdiff] using hchanged

/-! ### Lines cut short -/

/-- The same book and the same trades; the counter and the warnings may differ. -/
structure SameResult (st st' : Replay P) : Prop where
  book : st'.book = st.book
  replayed : st'.replayedTrades = st.replayedTrades
  logged : st'.loggedTrades = st.loggedTrades

variable {fmt : PriceFormat P} {line frag : List Char}

/-- None of the extractions that the tag calls for succeeds on the rest of the line. -/
structure Unread (fmt : PriceFormat P) (tag rest : List Char) : Prop where
  order : tag = "ADD".toList ∨ tag = "SUBMIT".toList → orderFields fmt rest = none
  id : tag = "CANCEL".toList → idField rest = none
  modify : tag = "MODIFY".toList → modifyFields fmt rest = none
  trade : tag = "TRADE".toList → tradeFields fmt rest = none

/-- A line whose fields are not read changes nothing. -/
lemma Unread.sameResult {tag rest : List Char} (h : Unread fmt tag rest) (st : Replay P)
    (hsplit : splitTag line = (tag, rest)) : SameResult st (parseLine fmt st line) := by
  have hwarn : ∀ tag, SameResult st (st.warn tag line) := fun tag => ⟨rfl, rfl, rfl⟩
  simp only [parseLine, hsplit]
  split_ifs with hnil hadd hcancel hsubmit hmod htr
  · exact ⟨rfl, rfl, rfl⟩
  · rw [h.order (Or.inl hadd)]
    exact hwarn "ADD"
  · rw [h.id hcancel]
    exact hwarn "CANCEL"
  · rw [h.order (Or.inr hsubmit)]
    exact hwarn "SUBMIT"
  · rw [h.modify hmod]
    exact hwarn "MODIFY"
  · rw [h.trade htr]
    exact hwarn "TRADE"
  · exact ⟨rfl, rfl, rfl⟩

omit [LinearOrder P] in
/-- A line cut short has lost its first comma or keeps its tag. -/
lemma cut_tagged {tag : String} (htag : ',' ∉ tag.toList) {f : List Char} {fs : List (List Char)}
    (h : frag <+: commas (tag.toList :: f :: fs)) :
    splitTag frag = (frag, [])
      ∨ ∃ s, frag = tag.toList ++ ',' :: s ∧ s <+: commas (f :: fs) := by
  rcases Decimal.prefix_mark h with hcut | ⟨s, rfl, hs⟩
  · left
    have hall : ∀ c ∈ frag, decide (c ≠ ',') = true := by
      intro c hc
      simp only [decide_eq_true_eq]
      rintro rfl
      exact htag (hcut.subset hc)
    rw [splitTag, List.takeWhile_eq_self_iff.mpr hall, List.dropWhile_eq_nil_iff.mpr hall,
      List.drop_nil]
  · exact Or.inr ⟨s, rfl, hs⟩

/-- A line cut short changes nothing, or what is left of its fields is something else. -/
lemma cut_line (Q : List Char → Prop) (st : Replay P) {tag : String} (htag : ',' ∉ tag.toList)
    {f : List Char} {fs : List (List Char)} (h : frag <+: commas (tag.toList :: f :: fs))
    (hne : frag ≠ commas (tag.toList :: f :: fs))
    (hfields : ∀ s, s <+: commas (f :: fs) → s ≠ commas (f :: fs) →
      Unread fmt tag.toList s ∨ Q s) :
    SameResult st (parseLine fmt st frag) ∨ ∃ s, frag = tag.toList ++ ',' :: s ∧ Q s := by
  rcases cut_tagged htag h with hs | ⟨s, rfl, hs⟩
  · have hunread : Unread fmt frag [] :=
      ⟨fun _ => rfl, fun _ => rfl, fun _ => rfl, fun _ => rfl⟩
    exact Or.inl (hunread.sameResult st hs)
  · refine (hfields s hs fun heq => hne (by rw [heq]; rfl)).imp ?_ fun hq => ⟨s, rfl, hq⟩
    exact fun hunread => hunread.sameResult st (splitTag_comma htag s)

section Cut

variable (st : Replay P) {seq : UInt64}

/-- **An ADD or a SUBMIT line cut short** changes nothing. -/
lemma cut_orderLine {tag : String} (htag : tag = "ADD" ∨ tag = "SUBMIT") {o : Order P}
    (hp : fmt.ReadsBack o.price) (h : frag <+: orderLine fmt tag seq o)
    (hne : frag ≠ orderLine fmt tag seq o) : SameResult st (parseLine fmt st frag) := by
  have hcomma : ',' ∉ tag.toList := by rcases htag with rfl | rfl <;> decide
  refine (cut_line (fun _ => False) st hcomma h hne fun s hs hns => Or.inl ?_).resolve_right
    fun ⟨_, _, hfalse⟩ => hfalse
  have hnone := orderFields_cut seq hp hs hns
  rcases htag with rfl | rfl
  · exact ⟨fun _ => hnone, fun heq => absurd heq (by decide), fun heq => absurd heq (by decide),
      fun heq => absurd heq (by decide)⟩
  · exact ⟨fun _ => hnone, fun heq => absurd heq (by decide), fun heq => absurd heq (by decide),
      fun heq => absurd heq (by decide)⟩

/-- **A CANCEL line cut short** changes nothing or is that of another id. -/
lemma cut_cancelLine {id : UInt64} (h : frag <+: cancelLine seq id)
    (hne : frag ≠ cancelLine seq id) :
    SameResult st (parseLine fmt st frag) ∨ ∃ id', frag = cancelLine seq id' := by
  refine (cut_line (fun s => ∃ id', s = commas [printWord seq, printWord id']) st (by decide) h hne
    fun s hs _ => ?_).imp_right ?_
  · refine (idField_cut seq id hs).imp_left fun hnone => ?_
    exact ⟨fun heq => absurd heq (by decide), fun _ => hnone, fun heq => absurd heq (by decide),
      fun heq => absurd heq (by decide)⟩
  · rintro ⟨s, rfl, id', rfl⟩
    exact ⟨id', rfl⟩

/-- **A MODIFY line cut short** changes nothing or is that of another quantity. -/
lemma cut_modifyLine {id : UInt64} {p : P} (hp : fmt.ReadsBack p) {q : UInt64}
    (h : frag <+: modifyLine fmt seq id p q) (hne : frag ≠ modifyLine fmt seq id p q) :
    SameResult st (parseLine fmt st frag) ∨ ∃ q', frag = modifyLine fmt seq id p q' := by
  refine (cut_line
    (fun s => ∃ q', s = commas [printWord seq, printWord id, fmt.fixed6 p, printWord q']) st
    (by decide) h hne fun s hs _ => ?_).imp_right ?_
  · refine (modifyFields_cut seq id hp q hs).imp_left fun hnone => ?_
    exact ⟨fun heq => absurd heq (by decide), fun heq => absurd heq (by decide), fun _ => hnone,
      fun heq => absurd heq (by decide)⟩
  · rintro ⟨s, rfl, q', rfl⟩
    exact ⟨q', rfl⟩

/-- **A TRADE line cut short** changes nothing or is that of another quantity. -/
lemma cut_tradeLine {t : Trade P} (ht : fmt.ReadsBack t.price) (h : frag <+: tradeLine fmt seq t)
    (hne : frag ≠ tradeLine fmt seq t) :
    SameResult st (parseLine fmt st frag)
      ∨ ∃ q', frag = tradeLine fmt seq { t with quantity := q' } := by
  refine (cut_line (fun s => ∃ q', s = commas [printWord seq, printWord t.buyOrderId,
    printWord t.sellOrderId, fmt.fixed6 t.price, printWord q']) st (by decide) h hne
    fun s hs _ => ?_).imp_right ?_
  · refine (tradeFields_cut seq ht hs).imp_left fun hnone => ?_
    exact ⟨fun heq => absurd heq (by decide), fun heq => absurd heq (by decide),
      fun heq => absurd heq (by decide), fun _ => hnone⟩
  · rintro ⟨s, rfl, q', rfl⟩
    exact ⟨q', rfl⟩

end Cut

/-! ### Lines misread -/

/-- The text is that of a line that changes the result of a replay that has come to the book
`b`: it cancels an order, changes one, or records a trade. -/
inductive Misread (fmt : PriceFormat P) (b : OrderBook P) : List Char → Prop
  | cancel (seq id : UInt64) (h : (b.orderIndex.lookup id).isSome) :
      Misread fmt b (cancelLine seq id)
  | modify (seq id : UInt64) (p : P) (q : UInt64) (hp : fmt.ReadsBack p) (h : Modifies b id p q) :
      Misread fmt b (modifyLine fmt seq id p q)
  | trade (seq : UInt64) (t : Trade P) (ht : fmt.ReadsBack t.price) :
      Misread fmt b (tradeLine fmt seq t)

section Misread

variable {st : Replay P} {b b' : OrderBook P}

lemma sameResult_cancelLine (h : IndexSound st.book) (seq id : UInt64) :
    SameResult st (parseLine fmt st (cancelLine seq id)) ↔ st.book.orderIndex.lookup id = none := by
  have hnone : ∀ p ∈ (Call.cancelOrder id : Call P).price?, fmt.ReadsBack p := by
    simp [Call.price?]
  obtain ⟨c', hc', hbook, hrep, hlog⟩ := parseLine_request st seq hnone
  have hc : c' = .cancelOrder id := by cases c' <;> simp_all [Call.untimed]
  subst hc
  rw [← cancelOrder_eq_self_iff h id]
  refine ⟨fun hsame => hbook.symm.trans hsame.book, fun heq => ⟨hbook.trans heq, ?_, hlog⟩⟩
  exact hrep.trans (List.append_nil _)

lemma sameResult_modifyLine (h : BookWF st.book) (seq id : UInt64) {p : P}
    (hp : fmt.ReadsBack p) (q : UInt64) :
    SameResult st (parseLine fmt st (modifyLine fmt seq id p q)) ↔ ¬ Modifies st.book id p q := by
  have hprice : ∀ p' ∈ (Call.modifyOrder 0 id p q).price?, fmt.ReadsBack p' := by
    simp [Call.price?, hp]
  obtain ⟨c', hc', hbook, hrep, hlog⟩ := parseLine_request st seq hprice
  obtain ⟨counter, rfl⟩ : ∃ counter, c' = .modifyOrder counter id p q := by
    cases c' <;> simp_all [Call.untimed]
  have htrades : (call st.book (.modifyOrder counter id p q)).1.tradeList
      = (modifyOrder st.book counter id p q).1.getD [] := by
    simp only [call]
    cases (modifyOrder st.book counter id p q).1 <;> rfl
  rw [htrades] at hrep
  rw [← modifyOrder_eq_self_iff h counter id p q]
  constructor
  · intro hsame
    have htr := hrep.symm.trans hsame.replayed
    exact ⟨hbook.symm.trans hsame.book, List.append_right_eq_self.mp htr⟩
  · rintro ⟨heq, hnil⟩
    exact ⟨hbook.trans heq, by rw [hnil, List.append_nil] at hrep; exact hrep, hlog⟩

/-- A misread line shows in the result. -/
lemma Misread.not_sameResult (h : IndexSound st.book) (hm : Misread fmt st.book frag) :
    ¬ SameResult st (parseLine fmt st frag) := by
  cases hm with
  | cancel seq id hid =>
      rw [sameResult_cancelLine h]
      exact Option.isSome_iff_ne_none.mp hid
  | modify seq id p q hp hmod =>
      rw [sameResult_modifyLine h.wf _ _ hp]
      exact not_not.mpr hmod
  | trade seq t ht =>
      intro hsame
      have hlog := hsame.logged
      rw [parseLine_trade st seq ht] at hlog
      simp at hlog

/-- **A request line cut short** that is not misread. -/
lemma sameResult_cut_request (h : IndexSound st.book) {seq : UInt64} {c : Call P}
    (hc : ∀ p ∈ c.price?, fmt.ReadsBack p) (hfrag : frag <+: requestLine fmt seq c)
    (hne : frag ≠ requestLine fmt seq c) (hm : ¬ Misread fmt st.book frag) :
    SameResult st (parseLine fmt st frag) := by
  cases c with
  | addOrder o => exact cut_orderLine st (Or.inl rfl) (hc _ rfl) hfrag hne
  | submitOrder o => exact cut_orderLine st (Or.inr rfl) (hc _ rfl) hfrag hne
  | cancelOrder id =>
      rcases cut_cancelLine st hfrag hne with hsame | ⟨id', rfl⟩
      · exact hsame
      · rw [sameResult_cancelLine h, ← Option.not_isSome_iff_eq_none]
        exact fun hid => hm (.cancel seq id' hid)
  | modifyOrder counter id p q =>
      rcases cut_modifyLine st (hc p rfl) hfrag hne with hsame | ⟨q', rfl⟩
      · exact hsame
      · rw [sameResult_modifyLine h.wf _ _ (hc p rfl)]
        exact fun hmod => hm (.modify seq id p q' (hc p rfl) hmod)

/-- **A TRADE line cut short** that is not misread. -/
lemma sameResult_cut_trade (st : Replay P) {seq : UInt64} {t : Trade P}
    (ht : fmt.ReadsBack t.price) (hfrag : frag <+: tradeLine fmt seq t)
    (hne : frag ≠ tradeLine fmt seq t) (hm : ¬ Misread fmt b frag) :
    SameResult st (parseLine fmt st frag) := by
  rcases cut_tradeLine st ht hfrag hne with hsame | ⟨q', rfl⟩
  · exact hsame
  · exact absurd (Misread.trade seq { t with quantity := q' } ht) hm

/-- Timestamps do not matter to what a misread line does. -/
lemma Misread.untimed (hm : Misread fmt b frag) (hb : b.untimed = b'.untimed) :
    Misread fmt b' frag := by
  have hix : b.untimed.orderIndex = b'.untimed.orderIndex := congrArg OrderBook.orderIndex hb
  rw [OrderBook.untimed_orderIndex, OrderBook.untimed_orderIndex] at hix
  cases hm with
  | cancel seq id h => exact .cancel seq id (hix ▸ h)
  | modify seq id p q hp h =>
      obtain ⟨s, price, o, hl, hf, hdiff⟩ := h
      have hfind : (findOrderInDeque s (b'.side s) price id).map Order.untimed
          = some o.untimed := by
        rw [← findOrderInDeque_untimed, ← OrderBook.untimed_side, ← hb, OrderBook.untimed_side,
          findOrderInDeque_untimed, hf, Option.map_some]
      obtain ⟨o', hf', ho'⟩ := Option.map_eq_some_iff.mp hfind
      have hq : o'.untimed.quantity = o.untimed.quantity := congrArg Order.quantity ho'
      rw [Order.untimed_quantity, Order.untimed_quantity] at hq
      exact .modify seq id p q hp ⟨s, price, o', hix ▸ hl, hf', by rwa [hq]⟩
  | trade seq t ht => exact .trade seq t ht

/-- A misread line begins as one of a cancellation, a modification or a trade. -/
lemma Misread.head (hm : Misread fmt b frag) :
    frag.head? = some 'C' ∨ frag.head? = some 'M' ∨ frag.head? = some 'T' := by
  cases hm with
  | cancel seq id h => exact Or.inl rfl
  | modify seq id p q hp h => exact Or.inr (Or.inl rfl)
  | trade seq t ht => exact Or.inr (Or.inr rfl)

/-- What a TRADE line is cut to records a trade or is not misread, whatever the book is. -/
lemma Misread.of_tradeLine {seq : UInt64} {t : Trade P} (hfrag : frag <+: tradeLine fmt seq t)
    (hm : Misread fmt b frag) : Misread fmt b' frag := by
  obtain ⟨rest, hrest⟩ := hfrag
  have hhead := congrArg List.head? hrest
  cases hm with
  | cancel seq id h =>
      have hc : 'C' = 'T' := Option.some.inj hhead
      exact absurd hc (by decide)
  | modify seq id p q hp h =>
      have hc : 'M' = 'T' := Option.some.inj hhead
      exact absurd hc (by decide)
  | trade seq t ht => exact .trade seq t ht

end Misread

/-! ### The log cut inside its last line -/

/-- A parsed line keeps the index sound. -/
lemma indexSound_parseLine {st : Replay P} (h : IndexSound st.book) (line : List Char) :
    IndexSound (parseLine fmt st line).book := by
  rcases hsplit : splitTag line with ⟨tag, iss⟩
  simp only [parseLine, hsplit]
  split_ifs
  · exact h
  · cases orderFields fmt iss with
    | none => exact h
    | some f => exact h.addOrder _
  · cases idField iss with
    | none => exact h
    | some id => exact h.cancelOrder id
  · cases orderFields fmt iss with
    | none => exact h
    | some f => exact h.submitOrder _
  · cases modifyFields fmt iss with
    | none => exact h
    | some f => exact h.modifyOrder _ _ _ _
  · cases tradeFields fmt iss with
    | none => exact h
    | some t => exact h
  · exact h

lemma indexSound_replayLines (fmt : PriceFormat P) {st : Replay P} (h : IndexSound st.book)
    (ls : List (List Char)) : IndexSound (replayLines fmt st ls).book := by
  induction ls generalizing st with
  | nil => exact h
  | cons l ls ih => exact ih (indexSound_parseLine h _)

lemma runLines_append (r : RecordingOrderBook P) (cs cs' : List (Call P)) :
    runLines fmt r (cs ++ cs') = runLines fmt r cs
      ++ runLines fmt (Machine.final (RecordingOrderBook.call fmt) r cs) cs' := by
  induction cs generalizing r with
  | nil => rfl
  | cons c cs ih => rw [List.cons_append, runLines, ih, runLines, List.append_assoc]; rfl

omit [LinearOrder P] in
lemma exists_last_tradeLines (fmt : PriceFormat P) (seq : UInt64) {ts : List (Trade P)}
    (hts : ts ≠ []) :
    ∃ ls seq', ∃ t ∈ ts, tradeLines fmt seq ts = ls ++ [tradeLine fmt seq' t] := by
  induction ts generalizing seq with
  | nil => exact absurd rfl hts
  | cons t ts ih =>
      by_cases hnil : ts = []
      · subst hnil
        exact ⟨[], seq, t, List.mem_cons_self, rfl⟩
      · obtain ⟨ls, seq', u, hu, heq⟩ := ih (seq + 1) hnil
        refine ⟨tradeLine fmt seq t :: ls, seq', u, List.mem_cons_of_mem t hu, ?_⟩
        rw [tradeLines, heq, List.cons_append]

/-- The last line of a call is its request line or that of one of its trades. -/
lemma exists_last_callLines (fmt : PriceFormat P) (r : RecordingOrderBook P) (c : Call P) :
    callLines fmt r c = [requestLine fmt r.seq c]
      ∨ ∃ ls seq, ∃ t ∈ (call r.book c).1.tradeList,
        callLines fmt r c = ls ++ [tradeLine fmt seq t] := by
  by_cases hnil : (call r.book c).1.tradeList = []
  · left
    rw [callLines, hnil, tradeLines]
  · right
    obtain ⟨ls, seq, t, ht, heq⟩ := exists_last_tradeLines fmt (r.seq + 1) hnil
    exact ⟨requestLine fmt r.seq c :: ls, seq, t, ht, by rw [callLines, heq, List.cons_append]⟩

omit [LinearOrder P] in
/-- A text whose last line is cut short. -/
lemma getlines_torn {ls : List (List Char)} (hls : ∀ l ∈ ls, Plain l) {frag : List Char}
    (hfrag : Plain frag) (hne : frag ≠ []) : getlines (unlines ls ++ frag) = ls ++ [frag] := by
  induction ls with
  | nil =>
      show getlines frag = [frag]
      clear hls
      induction frag with
      | nil => exact absurd rfl hne
      | cons c frag ih =>
          have hc := (hfrag c List.mem_cons_self).1
          rw [getlines, if_neg hc]
          by_cases hnil : frag = []
          · subst hnil
            rfl
          · rw [ih (fun d hd => hfrag d (List.mem_cons_of_mem c hd)) hnil]
  | cons l ls ih =>
      have hl := hls l List.mem_cons_self
      have htext : unlines (l :: ls) ++ frag = l ++ '\n' :: (unlines ls ++ frag) := by
        simp [unlines]
      rw [htext, getlines_line hl, ih fun l' hl' => hls l' (List.mem_cons_of_mem l hl'),
        List.cons_append]

/-- Replaying a text whose last line is cut short parses what is left of it last. -/
lemma replay_torn (st : Replay P) {ls : List (List Char)} (hls : ∀ l ∈ ls, Plain l)
    {frag : List Char} (hfrag : Plain frag) :
    replayLines fmt st (getlines (unlines ls ++ frag))
      = parseLine fmt (replayLines fmt st ls) frag := by
  by_cases hne : frag = []
  · subst hne
    rw [List.append_nil, getlines_unlines hls, parseLine, if_pos rfl]
  · rw [getlines_torn hls hfrag hne, replayLines_append, replayLines_cons fmt _ hfrag]
    rfl

omit [LinearOrder P] in
/-- A text ends with a line in only one way. -/
lemma unlines_append_singleton {ls : List (List Char)} {l : List Char} (hl : Plain l)
    {text line : List Char} (h : unlines (ls ++ [l]) = text ++ line ++ ['\n'])
    (hline : '\n' ∉ line) (htext : ∀ c ∈ text.getLast?, c = '\n') :
    text = unlines ls ∧ line = l := by
  have heq : unlines ls ++ l = text ++ line := by
    have hone : unlines [l] = l ++ ['\n'] := by simp [unlines]
    rw [unlines_append, hone, ← List.append_assoc] at h
    exact List.append_cancel_right h
  -- what one text has more than the other would be of a line and end it
  have hlast : ∀ c ∈ (unlines ls).getLast?, c = '\n' := by
    intro c hc
    rcases ls.eq_nil_or_concat with rfl | ⟨ls', l', rfl⟩
    · simp [unlines] at hc
    · rw [List.concat_eq_append, unlines_append] at hc
      simpa [unlines, eq_comm] using hc
  rcases List.append_eq_append_iff.mp heq with ⟨a, ha, hla⟩ | ⟨a, ha, hla⟩
  · rcases a.eq_nil_or_concat with rfl | ⟨a', c, rfl⟩
    · exact ⟨by simpa using ha, by simpa using hla.symm⟩
    · have hc : c = '\n' := htext c (by simp [ha])
      refine absurd rfl (hl '\n' ?_).1
      simp [hla, hc]
  · rcases a.eq_nil_or_concat with rfl | ⟨a', c, rfl⟩
    · exact ⟨by simpa using ha.symm, by simpa using hla⟩
    · have hc : c = '\n' := hlast c (by simp [ha])
      exact absurd (by simp [hla, hc]) hline

/-- The replay of the complete lines of a log, and what is left of the last one: a part of a
request line, with the book as it was before the last call, or a part of a TRADE line. -/
lemma sameResult_torn {st : Replay P} {r : RecordingOrderBook P} (hsound : IndexSound st.book)
    {c : Call P} (hc : ∀ p ∈ c.price?, fmt.ReadsBack p)
    (hts : ∀ t ∈ (call r.book c).1.tradeList, fmt.ReadsBack t.price)
    {ls : List (List Char)} {l : List Char} (hlast : callLines fmt r c = ls ++ [l])
    (hb : st.book.untimed = r.book.untimed) (hfrag : frag <+: l) (hne : frag ≠ l) :
    SameResult (replayLines fmt st ls) (parseLine fmt (replayLines fmt st ls) frag)
      ↔ ¬ Misread fmt r.book frag := by
  have hafter := indexSound_replayLines fmt hsound ls
  rcases exists_last_callLines fmt r c with hone | ⟨ls', seq, t, ht, hmany⟩
  · obtain ⟨rfl, rfl⟩ : ls = [] ∧ l = requestLine fmt r.seq c := by
      have heq : ls ++ [l] = [] ++ [requestLine fmt r.seq c] := hlast.symm.trans hone
      obtain ⟨hls, hl⟩ := List.append_inj' heq rfl
      exact ⟨hls, (List.cons.inj hl).1⟩
    refine ⟨fun hsame hm => (hm.untimed hb.symm).not_sameResult hsound hsame, fun hm => ?_⟩
    exact sameResult_cut_request hsound hc hfrag hne fun hm' => hm (hm'.untimed hb)
  · obtain ⟨rfl, rfl⟩ : ls = ls' ∧ l = tradeLine fmt seq t := by
      obtain ⟨hls, hl⟩ := List.append_inj' (hlast.symm.trans hmany) rfl
      exact ⟨hls, (List.cons.inj hl).1⟩
    refine ⟨fun hsame hm => (hm.of_tradeLine hfrag).not_sameResult hafter hsame, fun hm => ?_⟩
    exact sameResult_cut_trade _ (hts t ht) hfrag hne hm

/-- The last line of a log is the last line of the last call. -/
lemma exists_last_line {cs : List (Call P)} {text line : List Char}
    (hlog : (RecordingOrderBook.record fmt cs).log = text ++ line ++ ['\n'])
    (hline : '\n' ∉ line) (htext : ∀ c ∈ text.getLast?, c = '\n') :
    ∃ cs' c ls, cs = cs' ++ [c] ∧ callLines fmt (RecordingOrderBook.record fmt cs') c = ls ++ [line]
      ∧ text = unlines (runLines fmt RecordingOrderBook.empty cs' ++ ls)
      ∧ (∀ l ∈ runLines fmt RecordingOrderBook.empty cs' ++ ls, Plain l) ∧ Plain line := by
  have hrun := record_run fmt RecordingOrderBook.empty cs
  rcases cs.eq_nil_or_concat with rfl | ⟨cs', c, rfl⟩
  · simp [RecordingOrderBook.record, RecordingOrderBook.empty] at hlog
  rw [List.concat_eq_append] at hlog hrun ⊢
  set r := RecordingOrderBook.record fmt cs' with hr
  obtain ⟨ls, l, hlast⟩ : ∃ ls l, callLines fmt r c = ls ++ [l] := by
    rcases exists_last_callLines fmt r c with hone | ⟨ls, seq, t, -, hmany⟩
    · exact ⟨[], _, hone⟩
    · exact ⟨ls, _, hmany⟩
  have hlines : runLines fmt RecordingOrderBook.empty (cs' ++ [c])
      = runLines fmt RecordingOrderBook.empty cs' ++ ls ++ [l] := by
    rw [runLines_append, List.append_assoc, ← hlast, runLines, runLines, List.append_nil]
    rfl
  have hplain : ∀ x ∈ runLines fmt RecordingOrderBook.empty cs' ++ ls ++ [l], Plain x := by
    rw [← hlines]
    exact plain_runLines fmt RecordingOrderBook.empty _
  have hl : Plain l := hplain l (by simp)
  have hwhole : unlines (runLines fmt RecordingOrderBook.empty cs' ++ ls ++ [l])
      = text ++ line ++ ['\n'] := by
    rw [← hlog, ← hlines]
    exact hrun.2.symm
  obtain ⟨htxt, rfl⟩ := unlines_append_singleton hl hwhole hline htext
  exact ⟨cs', c, ls, rfl, hlast, htxt, fun x hx => hplain x (List.mem_append_left _ hx), hl⟩

/-- Replaying all lines of a run leaves the book of the run, up to timestamps. -/
lemma untimed_replay_runLines {cs : List (Call P)} (hcs : ∀ c ∈ cs, ∀ p ∈ c.price?, fmt.ReadsBack p)
    (counter : UInt64) :
    (replayLines fmt (Replay.init counter) (runLines fmt RecordingOrderBook.empty cs)).book.untimed
      = (after cs).untimed := by
  obtain ⟨n, m, hcut⟩ := exists_cutAt cs hcs RecordingOrderBook.empty BookWF.empty
    (fun s o ho => by cases s <;> cases ho) (runLines fmt RecordingOrderBook.empty cs).length
  have hcut := hcut (Replay.init counter) rfl
  have hbook := hcut.book
  rw [List.take_length, (hcut.whole le_rfl).1, List.take_length] at hbook
  exact hbook

/-- **A log cut inside its last line.**  Let the log of a run at prices that read back end with
`line`, and let `frag` be what a cut inside of it leaves, from nothing to all but the newline
and a character.  Replaying the cut log gives the book, the replayed and the recorded trades
that replaying the lines in front of the cut gives, unless what is left reads as a line of its
own: the CANCEL line of an id in the index, a MODIFY line that asks an order for another price
or quantity, or a TRADE line.  Of an ADD or a SUBMIT line no part does. -/
theorem torn_line_iff (fmt : PriceFormat P) (cs : List (Call P))
    (hcs : ∀ c ∈ cs, ∀ p ∈ c.price?, fmt.ReadsBack p) (counter : UInt64)
    {text line frag : List Char}
    (hlog : (RecordingOrderBook.record fmt cs).log = text ++ line ++ ['\n'])
    (hline : '\n' ∉ line) (htext : ∀ c ∈ text.getLast?, c = '\n')
    (hfrag : frag <+: line) (hne : frag ≠ line) :
    let whole := replayFromStream fmt counter text
    let torn := replayFromStream fmt counter (text ++ frag)
    (torn.book = whole.book ∧ torn.replayedTrades = whole.replayedTrades
        ∧ torn.loggedTrades = whole.loggedTrades)
      ↔ ¬ Misread fmt (RecordingOrderBook.record fmt cs.dropLast).book frag := by
  intro whole torn
  obtain ⟨cs', c, ls, rfl, hlast, rfl, hplain, hl⟩ := exists_last_line hlog hline htext
  have hcs' : ∀ c ∈ cs', ∀ p ∈ c.price?, fmt.ReadsBack p := fun c hc =>
    hcs c (List.mem_append_left _ hc)
  have hc := hcs c (by simp)
  have hrbook : (RecordingOrderBook.record fmt cs').book = after cs' :=
    (record_run fmt RecordingOrderBook.empty cs').1
  have hprices : ∀ s, ∀ o ∈ (after cs').resting s, fmt.ReadsBack o.price :=
    prices_run BookWF.empty (fun s o ho => by cases s <;> cases ho) hcs'
  -- the replay stands at the live book, up to timestamps, when the last call begins
  set st := replayLines fmt (Replay.init counter) (runLines fmt RecordingOrderBook.empty cs')
    with hst
  have hsound : IndexSound st.book := indexSound_replayLines fmt IndexSound.empty _
  have hb : st.book.untimed = (RecordingOrderBook.record fmt cs').book.untimed := by
    rw [hrbook, hst, untimed_replay_runLines hcs']
  have hts := (prices_call (wf_after cs') hprices c hc).2
  rw [← hrbook] at hts
  have hwhole : replayLines fmt (Replay.init counter)
      (getlines (unlines (runLines fmt RecordingOrderBook.empty cs' ++ ls)))
        = replayLines fmt st ls := by
    rw [getlines_unlines hplain, replayLines_append]
  have htorn : replayLines fmt (Replay.init counter)
      (getlines (unlines (runLines fmt RecordingOrderBook.empty cs' ++ ls) ++ frag))
        = parseLine fmt (replayLines fmt st ls) frag := by
    rw [replay_torn _ hplain fun x hx => hl x (hfrag.subset hx), replayLines_append]
  rw [List.dropLast_concat, ← sameResult_torn hsound hc hts hlast hb hfrag hne, ← htorn, ← hwhole]
  exact ⟨fun ⟨hbook, hrep, hlogged⟩ => ⟨hbook, hrep, hlogged⟩,
    fun ⟨hbook, hrep, hlogged⟩ => ⟨hbook, hrep, hlogged⟩⟩

/-- An ADD line cut in front of its type is skipped. -/
theorem torn_line_sample :
    let cs : List (Call ℤ) := [.addOrder ⟨1, .buy, 99, 5, 0, .limit⟩,
      .addOrder ⟨12, .buy, 98, 6, 1, .limit⟩]
    let text := (RecordingOrderBook.record wholeFormat (cs.take 1)).log
    let whole := replayFromStream wholeFormat 0 text
    let torn := replayFromStream wholeFormat 0 (text ++ "ADD,1,12,0,98.000000,6,".toList)
    torn.book = whole.book ∧ torn.replayedTrades = whole.replayedTrades
      ∧ torn.loggedTrades = whole.loggedTrades := by
  intro cs text whole torn
  have hlog : (RecordingOrderBook.record wholeFormat cs).log
      = text ++ "ADD,1,12,0,98.000000,6,0".toList ++ ['\n'] := by decide +kernel
  have hlast : text.getLast? = some '\n' := by decide +kernel
  refine (torn_line_iff wholeFormat cs (by decide +kernel) 0 hlog (by decide)
    (fun c hc => by simpa [hlast, eq_comm] using hc) (by decide) (by decide)).mpr fun hm => ?_
  exact absurd hm.head (by decide)

/-- A CANCEL line of id 12, cut behind the 1, cancels order 1. -/
theorem torn_cancel_executed :
    let cs : List (Call ℤ) := [.addOrder ⟨1, .buy, 99, 5, 0, .limit⟩,
      .addOrder ⟨12, .buy, 98, 6, 1, .limit⟩, .cancelOrder 12]
    let text := (RecordingOrderBook.record wholeFormat (cs.take 2)).log
    let whole := replayFromStream wholeFormat 0 text
    let torn := replayFromStream wholeFormat 0 (text ++ "CANCEL,2,1".toList)
    (∀ c ∈ cs, ∀ p ∈ c.price?, wholeFormat.ReadsBack p)
      ∧ (RecordingOrderBook.record wholeFormat cs).log = text ++ "CANCEL,2,12".toList ++ ['\n']
      ∧ whole.book.restingIds = [1, 12] ∧ torn.book.restingIds = [12]
      ∧ torn.book ≠ whole.book := by
  intro cs text whole torn
  have hwhole : whole.book.restingIds = [1, 12] := by decide +kernel
  have htorn : torn.book.restingIds = [12] := by decide +kernel
  refine ⟨by decide +kernel, by decide +kernel, hwhole, htorn, fun heq => ?_⟩
  rw [heq, hwhole] at htorn
  exact absurd htorn (by decide)

end Leviathan
