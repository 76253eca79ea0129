import Mathlib.Data.List.TakeWhile
import Leviathan.Foundations.Decimal

/-!
The texts that the extractions read.

`Decimal.integer` and `Decimal.real` scan a stream; here they are given as grammars.

* `IntegerText` and `RealText` say of a text which number it spells, and that the text behind it
  does not carry it on: an extraction takes as much as it can.
* `integer_eq_some_iff`, `real_eq_some_iff` and `character_eq_some_iff`: what is extracted is what
  is spelled behind some white space, with the rest of the stream left.
* `split_unique`: the white space, the field and the rest are determined by the stream, as soon as
  the rest is.
-/

namespace Decimal

/-- White space only. -/
def Blank (s : List Char) : Prop := ∀ c ∈ s, isSpace c = true

/-- The text is an optional sign: whether it is a minus. -/
inductive SignText : List Char → Bool → Prop
  | none : SignText [] false
  | plus : SignText ['+'] false
  | minus : SignText ['-'] true

/-- The text is an optional decimal point with the digits behind it. -/
inductive PointText : List Char → List Char → Prop
  | none : PointText [] []
  | point {ds : List Char} (h : ∀ c ∈ ds, c.isDigit = true) : PointText ('.' :: ds) ds

/-- The text is an optional exponent: whether it is negative, and its size. -/
inductive ExponentText : List Char → Bool → ℕ → Prop
  | none : ExponentText [] false 0
  | mark {c : Char} {sg ds : List Char} {down : Bool} (hc : c = 'e' ∨ c = 'E')
      (hsg : SignText sg down) (hne : ds ≠ []) (hds : ∀ c ∈ ds, c.isDigit = true) :
      ExponentText (c :: (sg ++ ds)) down (value ds)

/-- The text spells an integer, the sign and the size of it, and `rest` does not carry it on. -/
structure IntegerText (text : List Char) (negative : Bool) (n : ℕ) (rest : List Char) : Prop where
  spelled : ∃ sg ds, text = sg ++ ds ∧ SignText sg negative ∧ ds ≠ []
    ∧ (∀ c ∈ ds, c.isDigit = true) ∧ value ds = n
  ends : Ends rest

/-- The parts of a number in decimal notation, each with what it stands for. -/
structure Parts where
  sign : List Char
  negative : Bool
  whole : List Char
  point : List Char
  part : List Char
  mark : List Char
  down : Bool
  power : ℕ

/-- The parts put together. -/
def Parts.text (r : Parts) : List Char := r.sign ++ (r.whole ++ (r.point ++ r.mark))

/-- The number they stand for. -/
def Parts.number (r : Parts) : ℚ :=
  let magnitude : ℚ := value (r.whole ++ r.part) / 10 ^ r.part.length
  let scaled := if r.down then magnitude / 10 ^ r.power else magnitude * 10 ^ r.power
  if r.negative then -scaled else scaled

/-- The parts are what they should be, and `rest` does not carry them on. -/
structure Parts.Valid (r : Parts) (rest : List Char) : Prop where
  sign : SignText r.sign r.negative
  whole : ∀ c ∈ r.whole, c.isDigit = true
  point : PointText r.point r.part
  ne_nil : r.whole ++ r.part ≠ []
  mark : ExponentText r.mark r.down r.power
  ends : Ends rest
  stops : r.mark = [] → ∀ c ∈ rest.head?, c ≠ 'e' ∧ c ≠ 'E' ∧ (r.point = [] → c ≠ '.')

/-- The text spells the number in decimal notation, and `rest` does not carry it on. -/
def RealText (text : List Char) (q : ℚ) (rest : List Char) : Prop :=
  ∃ r : Parts, r.Valid rest ∧ text = r.text ∧ q = r.number

/-! ### White space, signs and digits -/

/-- The text begins with no white space. -/
def Starts (s : List Char) : Prop := ∀ c ∈ s.head?, isSpace c = false

lemma blank_takeWhile (s : List Char) : Blank (s.takeWhile isSpace) := fun _ h =>
  List.mem_takeWhile_imp h

/-- What is dropped is dropped up to a character that is not. -/
lemma head?_dropWhile (p : Char → Bool) (s : List Char) :
    ∀ c ∈ (s.dropWhile p).head?, p c = false := by
  intro c hc
  have h := List.head?_dropWhile_not p s
  rwa [show (s.dropWhile p).head? = some c from hc] at h

lemma starts_dropWhile (s : List Char) : Starts (s.dropWhile isSpace) := head?_dropWhile isSpace s

lemma dropWhile_blank {blanks s : List Char} (hb : Blank blanks) (hs : Starts s) :
    (blanks ++ s).dropWhile isSpace = s := by
  rw [List.dropWhile_append_of_pos hb]
  cases s with
  | nil => rfl
  | cons c s => exact List.dropWhile_cons_of_neg (by simp [hs c rfl])

/-- White space and what follows it are told apart by the text. -/
lemma blank_unique {blanks blanks' s s' : List Char} (hb : Blank blanks) (hb' : Blank blanks')
    (hs : Starts s) (hs' : Starts s') (h : blanks ++ s = blanks' ++ s') :
    blanks = blanks' ∧ s = s' := by
  have heq : s = s' := by
    rw [← dropWhile_blank hb hs, h, dropWhile_blank hb' hs']
  subst heq
  exact ⟨List.append_cancel_right h, rfl⟩

/-- A text cut at white space, a field and a rest is cut so in one way, as soon as the rest is
known. -/
lemma split_unique {blanks blanks' text text' rest : List Char} (hb : Blank blanks)
    (hb' : Blank blanks') (ht : Starts text) (ht' : Starts text')
    (h : blanks ++ text ++ rest = blanks' ++ text' ++ rest) : blanks = blanks' ∧ text = text' :=
  blank_unique hb hb' ht ht' (List.append_cancel_right h)

lemma sign_append {sg s : List Char} {negative : Bool} (h : SignText sg negative)
    (hs : ∀ c ∈ s.head?, c ≠ '-' ∧ c ≠ '+') : sign (sg ++ s) = (negative, s) := by
  cases h with
  | plus => rfl
  | minus => rfl
  | none =>
      rw [List.nil_append, sign]
      · rintro t rfl
        exact (hs '-' rfl).1 rfl
      · rintro t rfl
        exact (hs '+' rfl).2 rfl

lemma exists_signText (s : List Char) :
    ∃ sg, SignText sg (sign s).1 ∧ s = sg ++ (sign s).2 := by
  unfold sign
  split
  · exact ⟨_, .minus, rfl⟩
  · exact ⟨_, .plus, rfl⟩
  · exact ⟨_, .none, rfl⟩

lemma digits_spec (s : List Char) :
    s = (digits s).1 ++ (digits s).2 ∧ (∀ c ∈ (digits s).1, c.isDigit = true)
      ∧ Ends (digits s).2 := by
  exact ⟨List.takeWhile_append_dropWhile.symm, fun c hc => List.mem_takeWhile_imp hc,
    head?_dropWhile Char.isDigit s⟩

/-- A digit is no sign and no white space. -/
lemma ne_sign_of_isDigit {c : Char} (h : c.isDigit = true) : c ≠ '-' ∧ c ≠ '+' := by
  constructor
  · rintro rfl
    exact absurd h (by decide)
  · rintro rfl
    exact absurd h (by decide)

/-- The first character of some digits and what follows them. -/
lemma isDigit_head {ds s : List Char} (hne : ds ≠ []) (hds : ∀ c ∈ ds, c.isDigit = true) :
    ∀ c ∈ (ds ++ s).head?, c.isDigit = true := by
  obtain ⟨d, ds, rfl⟩ := List.exists_cons_of_ne_nil hne
  intro c hc
  obtain rfl : d = c := by simpa using hc
  exact hds d List.mem_cons_self

lemma SignText.starts {sg s : List Char} {negative : Bool} (h : SignText sg negative)
    (hs : Starts s) : Starts (sg ++ s) := by
  cases h with
  | none => exact hs
  | plus => exact fun c hc => by obtain rfl : '+' = c := by simpa using hc
                                 decide
  | minus => exact fun c hc => by obtain rfl : '-' = c := by simpa using hc
                                  decide

/-! ### Integers -/

lemma IntegerText.starts {text rest : List Char} {negative : Bool} {n : ℕ}
    (h : IntegerText text negative n rest) (t : List Char) : Starts (text ++ t) := by
  obtain ⟨sg, ds, rfl, hsg, hne, hds, -⟩ := h.spelled
  rw [List.append_assoc]
  exact hsg.starts fun c hc => not_isSpace_of_isDigit (isDigit_head hne hds c hc)

/-- **What is read for an integer** is an integer behind some white space. -/
theorem integer_eq_some_iff {s rest : List Char} {negative : Bool} {n : ℕ} :
    integer s = some ((negative, n), rest)
      ↔ ∃ blanks text, Blank blanks ∧ IntegerText text negative n rest
        ∧ s = blanks ++ text ++ rest := by
  constructor
  · intro h
    obtain ⟨sg, hsg, hs⟩ := exists_signText (s.dropWhile isSpace)
    obtain ⟨hds, hall, hends⟩ := digits_spec (sign (s.dropWhile isSpace)).2
    simp only [integer] at h
    split_ifs at h with hne
    simp only [Option.some.injEq, Prod.mk.injEq] at h
    obtain ⟨⟨rfl, rfl⟩, rfl⟩ := h
    refine ⟨s.takeWhile isSpace, sg ++ (digits (sign (s.dropWhile isSpace)).2).1,
      blank_takeWhile s, ⟨⟨sg, _, rfl, hsg, hne, hall, rfl⟩, hends⟩, ?_⟩
    rw [List.append_assoc, List.append_assoc, ← hds, ← hs, List.takeWhile_append_dropWhile]
  · rintro ⟨blanks, text, hb, ht, rfl⟩
    have hstart := ht.starts rest
    obtain ⟨⟨sg, ds, rfl, hsg, hne, hds, rfl⟩, hends⟩ := ht
    have hsign : sign ((blanks ++ (sg ++ ds) ++ rest).dropWhile isSpace)
        = (negative, ds ++ rest) := by
      rw [List.append_assoc, dropWhile_blank hb hstart, List.append_assoc]
      exact sign_append hsg fun c hc => ne_sign_of_isDigit (isDigit_head hne hds c hc)
    simp only [integer, hsign, digits_append hds hends, if_neg hne]

/-- Digits spell their value. -/
lemma integerText_of_isDigit {ds rest : List Char} (hne : ds ≠ [])
    (hds : ∀ c ∈ ds, c.isDigit = true) (hrest : Ends rest) :
    IntegerText ds false (value ds) rest :=
  ⟨⟨[], ds, rfl, .none, hne, hds, rfl⟩, hrest⟩

/-- An integer without a sign is the value of its digits. -/
lemma IntegerText.of_isDigit {text rest : List Char} {negative : Bool} {n : ℕ}
    (h : IntegerText text negative n rest) (hds : ∀ c ∈ text, c.isDigit = true) :
    negative = false ∧ text ≠ [] ∧ value text = n := by
  obtain ⟨sg, ds, rfl, hsg, hne, -, hn⟩ := h.spelled
  cases hsg with
  | none => exact ⟨rfl, hne, hn⟩
  | plus => exact absurd (hds '+' (by simp)) (by decide)
  | minus => exact absurd (hds '-' (by simp)) (by decide)

lemma unsigned_eq_some_iff {bits m : ℕ} {s rest : List Char} :
    unsigned bits s = some (m, rest)
      ↔ ∃ negative n, integer s = some ((negative, n), rest) ∧ n < 2 ^ bits
        ∧ m = if negative then (2 ^ bits - n) % 2 ^ bits else n := by
  rw [unsigned]
  cases integer s with
  | none => simp
  | some i =>
      obtain ⟨⟨negative, n⟩, rest'⟩ := i
      by_cases hn : n < 2 ^ bits
      · simp [hn, and_comm, and_assoc, eq_comm]
      · simp [hn]

lemma signed_eq_some_iff {bits : ℕ} {z : ℤ} {s rest : List Char} :
    signed bits s = some (z, rest)
      ↔ ∃ negative n, integer s = some ((negative, n), rest)
        ∧ (if negative then n ≤ 2 ^ bits else n < 2 ^ bits)
        ∧ z = if negative then -(n : ℤ) else n := by
  rw [signed]
  cases integer s with
  | none => simp
  | some i =>
      obtain ⟨⟨negative, n⟩, rest'⟩ := i
      cases negative with
      | true =>
          by_cases hn : n ≤ 2 ^ bits
          · simp [hn, and_comm, eq_comm]
          · simp [hn]
      | false =>
          by_cases hn : n < 2 ^ bits
          · simp [hn, and_comm, eq_comm]
          · simp [hn]

/-! ### Numbers in decimal notation -/

lemma exponent_eq_some_iff {s rest : List Char} {down : Bool} {e : ℕ} :
    exponent s = some ((down, e), rest)
      ↔ ∃ mark, ExponentText mark down e ∧ s = mark ++ rest ∧ (mark ≠ [] → Ends rest)
        ∧ (mark = [] → ∀ c ∈ rest.head?, c ≠ 'e' ∧ c ≠ 'E') := by
  cases s with
  | nil =>
      constructor
      · intro h
        obtain ⟨⟨rfl, rfl⟩, rfl⟩ : (false = down ∧ 0 = e) ∧ [] = rest := by simpa [exponent] using h
        exact ⟨[], .none, rfl, fun hne => absurd rfl hne, fun _ c hc => by simp at hc⟩
      · rintro ⟨mark, hm, heq, -, -⟩
        obtain ⟨rfl, rfl⟩ := List.append_eq_nil_iff.mp heq.symm
        cases hm
        rfl
  | cons c s =>
      by_cases hc : c = 'e' ∨ c = 'E'
      · rw [exponent, if_pos hc]
        constructor
        · intro h
          obtain ⟨sg, hsg, hs⟩ := exists_signText s
          obtain ⟨hds, hall, hends⟩ := digits_spec (sign s).2
          simp only at h
          split_ifs at h with hne
          simp only [Option.some.injEq, Prod.mk.injEq] at h
          obtain ⟨⟨rfl, rfl⟩, rfl⟩ := h
          refine ⟨_, .mark hc hsg hne hall, ?_, fun _ => hends, fun hnil => by simp at hnil⟩
          rw [List.cons_append, List.append_assoc, ← hds, ← hs]
        · rintro ⟨mark, hm, heq, hends, hstops⟩
          cases hm with
          | none =>
              obtain rfl : c :: s = rest := heq
              exact absurd hc (not_or.mpr (hstops rfl c rfl))
          | @mark c' sg ds down hc' hsg hne hds =>
              obtain ⟨rfl, rfl⟩ := List.cons.inj heq
              have hsign : sign (sg ++ ds ++ rest) = (down, ds ++ rest) := by
                rw [List.append_assoc]
                exact sign_append hsg fun d hd => ne_sign_of_isDigit (isDigit_head hne hds d hd)
              simp only [List.append_eq, hsign,
                digits_append hds (hends (List.cons_ne_nil _ _)), if_neg hne]
      · rw [exponent, if_neg hc]
        constructor
        · intro h
          obtain ⟨⟨rfl, rfl⟩, rfl⟩ : (false = down ∧ 0 = e) ∧ c :: s = rest := by simpa using h
          refine ⟨[], .none, rfl, fun hne => absurd rfl hne, fun _ d hd => ?_⟩
          obtain rfl : c = d := by simpa using hd
          exact not_or.mp hc
        · rintro ⟨mark, hm, heq, -, -⟩
          cases hm with
          | none =>
              rw [List.nil_append] at heq
              rw [heq]
          | mark hc' hsg hne hds => exact absurd ((List.cons.inj heq).1 ▸ hc') hc

/-- The digits behind a decimal point, as `real` takes them. -/
def pointDigits (s : List Char) : List Char × List Char :=
  match s with
  | '.' :: s => digits s
  | s => ([], s)

lemma pointDigits_eq_iff {s part rest : List Char} (hs : Ends s) :
    pointDigits s = (part, rest)
      ↔ ∃ point, PointText point part ∧ s = point ++ rest ∧ Ends rest
        ∧ (point = [] → ∀ c ∈ rest.head?, c ≠ '.') := by
  by_cases hpt : ∃ t, s = '.' :: t
  · obtain ⟨t, rfl⟩ := hpt
    rw [pointDigits]
    constructor
    · intro h
      obtain ⟨hds, hall, hends⟩ := digits_spec t
      rw [h] at hds hall hends
      exact ⟨_, .point hall, by rw [hds]; rfl, hends, fun hnil => by simp at hnil⟩
    · rintro ⟨point, hp, heq, hends, hstops⟩
      cases hp with
      | none =>
          obtain rfl : '.' :: t = rest := heq
          exact absurd rfl (hstops rfl '.' rfl)
      | point hds =>
          obtain rfl : t = part ++ rest := (List.cons.inj heq).2
          exact digits_append hds hends
  · have hnone : pointDigits s = ([], s) := by
      rw [pointDigits]
      rintro t rfl
      exact hpt ⟨t, rfl⟩
    rw [hnone]
    constructor
    · intro h
      obtain ⟨rfl, rfl⟩ := Prod.mk.inj h
      refine ⟨[], .none, rfl, hs, fun _ c hc => ?_⟩
      rintro rfl
      exact hpt (List.head?_eq_some_iff.mp hc)
    · rintro ⟨point, hp, heq, -, -⟩
      cases hp with
      | none =>
          rw [List.nil_append] at heq
          rw [heq]
      | point hds => exact absurd ⟨_, heq⟩ hpt

lemma PointText.ends {point part rest : List Char} (h : PointText point part)
    (hrest : Ends rest) : Ends (point ++ rest) := by
  cases h with
  | none => exact hrest
  | point _ => exact ends_cons (by decide)

lemma ExponentText.ends {mark rest : List Char} {down : Bool} {e : ℕ}
    (h : ExponentText mark down e) (hrest : Ends rest) : Ends (mark ++ rest) := by
  cases h with
  | none => exact hrest
  | mark hc => exact ends_cons (by rcases hc with rfl | rfl <;> decide)

lemma ExponentText.ne_point {mark rest : List Char} {down : Bool} {e : ℕ}
    (h : ExponentText mark down e) (hrest : mark = [] → ∀ c ∈ rest.head?, c ≠ '.') :
    ∀ c ∈ (mark ++ rest).head?, c ≠ '.' := by
  cases h with
  | none => exact hrest rfl
  | mark hm =>
      intro c hc
      obtain rfl : _ = c := by simpa using hc
      rcases hm with rfl | rfl <;> decide

/-- With no digit in front of it the decimal point is there. -/
lemma PointText.head {point part rest : List Char} (h : PointText point part)
    (hne : part ≠ []) : ∀ c ∈ (point ++ rest).head?, c = '.' := by
  cases h with
  | none => exact absurd rfl hne
  | point _ => exact fun c hc => by simpa [eq_comm] using hc

/-- The first character of a number behind its sign is a digit or the point. -/
lemma Parts.Valid.head {r : Parts} {rest : List Char} (h : r.Valid rest) (t : List Char) :
    ∀ c ∈ (r.whole ++ (r.point ++ t)).head?, c.isDigit = true ∨ c = '.' := by
  intro c hc
  by_cases hw : r.whole = []
  · have hne := h.ne_nil
    rw [hw, List.nil_append] at hne hc
    exact Or.inr (h.point.head hne c hc)
  · exact Or.inl (isDigit_head hw h.whole c hc)

lemma Parts.Valid.starts {r : Parts} {rest : List Char} (h : r.Valid rest) (t : List Char) :
    Starts (r.text ++ t) := by
  rw [Parts.text, List.append_assoc, List.append_assoc, List.append_assoc]
  refine h.sign.starts fun c hc => ?_
  rcases h.head _ c hc with hd | rfl
  · exact not_isSpace_of_isDigit hd
  · decide

/-- `real` by its steps. -/
lemma real_eq (s : List Char) :
    real s =
      let r := sign (s.dropWhile isSpace)
      let w := digits r.2
      let p := pointDigits w.2
      if w.1 ++ p.1 = [] then none
      else (exponent p.2).map fun x =>
        (Parts.number ⟨[], r.1, w.1, [], p.1, [], x.1.1, x.1.2⟩, x.2) := by
  rcases hsign : sign (s.dropWhile isSpace) with ⟨negative, t⟩
  rcases hwhole : digits t with ⟨whole, u⟩
  simp only [real, hsign, hwhole]
  -- whether a point follows the digits
  split
  · rename_i v
    simp only [pointDigits]
    cases exponent (digits v).2 <;> rfl
  · rename_i hnot
    have hnone : pointDigits u = ([], u) := by
      rw [pointDigits]
      exact hnot
    rw [hnone]
    cases exponent u <;> rfl

/-- **What is read for a number** is a number in decimal notation behind some white space. -/
theorem real_eq_some_iff {s rest : List Char} {q : ℚ} :
    real s = some (q, rest)
      ↔ ∃ blanks text, Blank blanks ∧ RealText text q rest ∧ s = blanks ++ text ++ rest := by
  constructor
  · intro h
    obtain ⟨sg, hsg, hs⟩ := exists_signText (s.dropWhile isSpace)
    obtain ⟨hds, hall, hends⟩ := digits_spec (sign (s.dropWhile isSpace)).2
    generalize hsign : sign (s.dropWhile isSpace) = sn at hsg hs hds hall hends
    generalize hwhole : digits sn.2 = w at hds hall hends
    generalize hpart : pointDigits w.2 = pt
    obtain ⟨point, hpoint, hw, hends', hstop⟩ := (pointDigits_eq_iff hends).mp hpart
    simp only [real_eq, hsign, hwhole, hpart] at h
    split_ifs at h with hne
    obtain ⟨⟨⟨down, e⟩, rest'⟩, hexp, heq⟩ := Option.map_eq_some_iff.mp h
    obtain ⟨rfl, rfl⟩ := Prod.mk.inj heq
    obtain ⟨mark, hm, hpt, hends'', hmark⟩ := exponent_eq_some_iff.mp hexp
    have hends3 : Ends rest' := by
      by_cases hnil : mark = []
      · rw [hpt, hnil, List.nil_append] at hends'
        exact hends'
      · exact hends'' hnil
    refine ⟨s.takeWhile isSpace, sg ++ (w.1 ++ (point ++ mark)), blank_takeWhile s,
      ⟨⟨sg, sn.1, w.1, point, pt.1, mark, down, e⟩,
        ⟨hsg, hall, hpoint, hne, hm, hends3, fun hnil c hc => ?_⟩, rfl, rfl⟩, ?_⟩
    · refine ⟨(hmark hnil c hc).1, (hmark hnil c hc).2, fun hp => ?_⟩
      refine hstop hp c ?_
      rw [hpt, show mark = [] from hnil]
      exact hc
    · rw [List.append_assoc, List.append_assoc, List.append_assoc, List.append_assoc, ← hpt,
        ← hw, ← hds, ← hs, List.takeWhile_append_dropWhile]
  · rintro ⟨blanks, text, hb, ⟨r, hr, rfl, rfl⟩, rfl⟩
    have hstart := hr.starts rest
    -- what follows each part does not carry it on
    have hmark : Ends (r.mark ++ rest) := hr.mark.ends hr.ends
    have hpoint : Ends (r.point ++ (r.mark ++ rest)) := hr.point.ends hmark
    have hnopoint : r.point = [] → ∀ c ∈ (r.mark ++ rest).head?, c ≠ '.' := fun hp =>
      hr.mark.ne_point fun hnil c hc => (hr.stops hnil c hc).2.2 hp
    have hsign : sign ((blanks ++ r.text ++ rest).dropWhile isSpace)
        = (r.negative, r.whole ++ (r.point ++ (r.mark ++ rest))) := by
      rw [List.append_assoc, dropWhile_blank hb hstart, Parts.text, List.append_assoc,
        List.append_assoc, List.append_assoc]
      refine sign_append hr.sign fun c hc => ?_
      rcases hr.head _ c hc with hd | rfl
      · exact ne_sign_of_isDigit hd
      · decide
    have hpart := (pointDigits_eq_iff hpoint).mpr ⟨r.point, hr.point, rfl, hmark, hnopoint⟩
    have hexp : exponent (r.mark ++ rest) = some ((r.down, r.power), rest) :=
      exponent_eq_some_iff.mpr ⟨r.mark, hr.mark, rfl, fun _ => hr.ends, fun hnil c hc =>
        ⟨(hr.stops hnil c hc).1, (hr.stops hnil c hc).2.1⟩⟩
    simp only [real_eq, hsign, digits_append hr.whole hpoint, hpart, if_neg hr.ne_nil, hexp]
    rfl

/-- A number is spelled in front of any text that carries no number on. -/
lemma RealText.in_front_of {text rest rest' : List Char} {q : ℚ} (h : RealText text q rest)
    (hrest : ∀ c ∈ rest'.head?, c.isDigit = false ∧ c ≠ 'e' ∧ c ≠ 'E' ∧ c ≠ '.') :
    RealText text q rest' := by
  obtain ⟨r, hr, rfl, rfl⟩ := h
  refine ⟨r, ?_, rfl, rfl⟩
  exact
    { sign := hr.sign
      whole := hr.whole
      point := hr.point
      ne_nil := hr.ne_nil
      mark := hr.mark
      ends := fun c hc => (hrest c hc).1
      stops := fun _ c hc => ⟨(hrest c hc).2.1, (hrest c hc).2.2.1, fun _ => (hrest c hc).2.2.2⟩ }

/-! ### Characters -/

/-- **What is read for a character** stands behind some white space. -/
theorem character_eq_some_iff {s rest : List Char} {c : Char} :
    character s = some (c, rest)
      ↔ ∃ blanks, Blank blanks ∧ isSpace c = false ∧ s = blanks ++ c :: rest := by
  constructor
  · intro h
    rw [character] at h
    split at h
    · simp at h
    · rename_i d t hd
      obtain ⟨rfl, rfl⟩ := Prod.mk.inj (Option.some.inj h)
      refine ⟨s.takeWhile isSpace, blank_takeWhile s, ?_, ?_⟩
      · exact starts_dropWhile s _ (by rw [hd]; rfl)
      · rw [← hd, List.takeWhile_append_dropWhile]
  · rintro ⟨blanks, hb, hc, rfl⟩
    have hstart : Starts (c :: rest) := fun d hd => by
      obtain rfl : c = d := by simpa using hd
      exact hc
    rw [character, dropWhile_blank hb hstart]

/-! ### White space at the end -/

section TrailingSpace

variable {c : Char} (hc : isSpace c = true)

include hc in
/-- White space is no character of a number. -/
lemma ne_of_isSpace : c.isDigit = false ∧ c ≠ '-' ∧ c ≠ '+' ∧ c ≠ '.' ∧ c ≠ 'e' ∧ c ≠ 'E' := by
  have hdigit : c.isDigit = false := by
    cases hd : c.isDigit with
    | false => rfl
    | true => rw [not_isSpace_of_isDigit hd] at hc; exact hc.symm
  refine ⟨hdigit, ?_, ?_, ?_, ?_, ?_⟩ <;>
    · rintro rfl
      exact absurd hc (by decide)

include hc in
lemma dropWhile_append_space (s : List Char) :
    (s ++ [c]).dropWhile isSpace
      = if s.dropWhile isSpace = [] then [] else s.dropWhile isSpace ++ [c] := by
  rw [List.dropWhile_append]
  by_cases hs : s.dropWhile isSpace = [] <;> simp [hs, hc]

include hc in
lemma sign_append_space (s : List Char) :
    sign (s ++ [c]) = ((sign s).1, (sign s).2 ++ [c]) := by
  obtain ⟨-, hminus, hplus, -⟩ := ne_of_isSpace hc
  have hnone : ∀ t : List Char, (∀ d ∈ t.head?, d ≠ '-' ∧ d ≠ '+') → sign t = (false, t) :=
    fun t ht => sign_append .none ht
  cases s with
  | nil => exact hnone [c] (by simpa using ⟨hminus, hplus⟩)
  | cons d s =>
      by_cases hdm : d = '-'
      · subst hdm
        rfl
      by_cases hdp : d = '+'
      · subst hdp
        rfl
      rw [hnone (d :: s) (by simpa using ⟨hdm, hdp⟩), List.cons_append,
        hnone (d :: (s ++ [c])) (by simpa using ⟨hdm, hdp⟩)]

include hc in
lemma digits_append_space (s : List Char) :
    digits (s ++ [c]) = ((digits s).1, (digits s).2 ++ [c]) := by
  obtain ⟨hs, hall, hends⟩ := digits_spec s
  have hends' : Ends ((digits s).2 ++ [c]) := by
    cases hr : (digits s).2 with
    | nil => exact ends_cons (ne_of_isSpace hc).1
    | cons d r => exact ends_cons (hends d (by rw [hr]; rfl))
  conv_lhs => rw [hs, List.append_assoc]
  exact digits_append hall hends'

include hc in
lemma pointDigits_append_space (s : List Char) :
    pointDigits (s ++ [c]) = ((pointDigits s).1, (pointDigits s).2 ++ [c]) := by
  obtain ⟨-, -, -, hpoint, -⟩ := ne_of_isSpace hc
  have hnone : ∀ t : List Char, (∀ d ∈ t.head?, d ≠ '.') → pointDigits t = ([], t) := by
    intro t ht
    rw [pointDigits]
    rintro u rfl
    exact ht '.' rfl rfl
  cases s with
  | nil => exact hnone [c] (by simpa using hpoint)
  | cons d s =>
      by_cases hd : d = '.'
      · subst hd
        exact digits_append_space hc s
      · rw [hnone (d :: s) (by simpa using hd), List.cons_append,
          hnone (d :: (s ++ [c])) (by simpa using hd)]

include hc in
lemma exponent_append_space (s : List Char) :
    exponent (s ++ [c]) = (exponent s).map fun r => (r.1, r.2 ++ [c]) := by
  obtain ⟨-, -, -, -, he, hE⟩ := ne_of_isSpace hc
  cases s with
  | nil => simp [exponent, he, hE]
  | cons d s =>
      by_cases hd : d = 'e' ∨ d = 'E'
      · rw [List.cons_append, exponent, exponent, if_pos hd, if_pos hd, sign_append_space hc]
        simp only [digits_append_space hc]
        split_ifs <;> rfl
      · rw [List.cons_append, exponent, exponent, if_neg hd, if_neg hd]
        rfl

include hc in
/-- **White space behind a field** stays behind it. -/
lemma integer_append_space (s : List Char) :
    integer (s ++ [c]) = (integer s).map fun r => (r.1, r.2 ++ [c]) := by
  simp only [integer, dropWhile_append_space hc]
  by_cases hs : s.dropWhile isSpace = []
  · simp [hs, sign, digits]
  · simp only [if_neg hs, sign_append_space hc, digits_append_space hc]
    split_ifs <;> rfl

include hc in
lemma real_append_space (s : List Char) :
    real (s ++ [c]) = (real s).map fun r => (r.1, r.2 ++ [c]) := by
  simp only [real_eq, dropWhile_append_space hc]
  by_cases hs : s.dropWhile isSpace = []
  · simp [hs, sign, digits, pointDigits]
  · simp only [if_neg hs, sign_append_space hc, digits_append_space hc,
      pointDigits_append_space hc, exponent_append_space hc]
    split_ifs
    · rfl
    · rw [Option.map_map, Option.map_map]
      rfl

include hc in
lemma character_append_space (s : List Char) :
    character (s ++ [c]) = (character s).map fun r => (r.1, r.2 ++ [c]) := by
  simp only [character, dropWhile_append_space hc]
  cases hs : s.dropWhile isSpace with
  | nil => rfl
  | cons d t => simp

end TrailingSpace

end Decimal
