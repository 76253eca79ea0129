import Mathlib.Tactic

/-!
Decimal text: numbers printed to a character stream and extracted from one.

* **Printing.** `natural n` is the plain numeral of `n`, and `fixed k m` the number
  `m / 10 ^ k` in fixed notation with `k` decimals.
* **Extraction** follows the formatted input of character streams in the classic locale: each
  extraction skips white space, takes the longest run of characters that can continue its
  field, and fails (`none`) on an empty field or one it cannot represent.  What it takes is
  returned with the rest of the stream.  A `Char` stands for one byte of the stream.
* The round trips `unsigned_natural`, `signed_natural` and `real_fixed` read back what was
  printed, in front of any text that does not continue the numeral (`Ends`).
-/

namespace Decimal

/-! ### Printing -/

/-- The numeral of a natural number. -/
def natural (n : ℕ) : List Char := Nat.toDigits 10 n

/-- The last `k` digits of a number, leading zeros kept. -/
def padded : ℕ → ℕ → List Char
  | 0, _ => []
  | k + 1, n => padded k (n / 10) ++ [Nat.digitChar (n % 10)]

/-- The number `m / 10 ^ k` in fixed notation. -/
def fixed (k : ℕ) (negative : Bool) (m : ℕ) : List Char :=
  (if negative then ['-'] else []) ++ natural (m / 10 ^ k) ++ '.' :: padded k m

/-! ### Extraction -/

/-- White space of the classic locale. -/
def isSpace (c : Char) : Bool := c = ' ' || (9 ≤ c.toNat && c.toNat ≤ 13)

/-- A character after white space: a `Char` stands for one byte, the `char` of the stream. -/
def character (s : List Char) : Option (Char × List Char) :=
  match s.dropWhile isSpace with
  | [] => none
  | c :: rest => some (c, rest)

/-- An optional sign: whether it is a minus, and the rest. -/
def sign : List Char → Bool × List Char
  | '-' :: s => (true, s)
  | '+' :: s => (false, s)
  | s => (false, s)

/-- The digits in front and the rest. -/
def digits (s : List Char) : List Char × List Char :=
  (s.takeWhile Char.isDigit, s.dropWhile Char.isDigit)

/-- The number a list of digits stands for. -/
def value (ds : List Char) : ℕ := Nat.ofDigitChars 10 ds 0

/-- A signed run of digits after white space. -/
def integer (s : List Char) : Option ((Bool × ℕ) × List Char) :=
  let (negative, s) := sign (s.dropWhile isSpace)
  let (ds, rest) := digits s
  if ds = [] then none else some ((negative, value ds), rest)

/-- An unsigned word of `bits` bits: a minus negates in the word. -/
def unsigned (bits : ℕ) (s : List Char) : Option (ℕ × List Char) :=
  match integer s with
  | none => none
  | some ((negative, n), rest) =>
      if n < 2 ^ bits then some (if negative then (2 ^ bits - n) % 2 ^ bits else n, rest)
      else none

/-- A signed word of `bits + 1` bits. -/
def signed (bits : ℕ) (s : List Char) : Option (ℤ × List Char) :=
  match integer s with
  | none => none
  | some ((negative, n), rest) =>
      if negative then if n ≤ 2 ^ bits then some (-n, rest) else none
      else if n < 2 ^ bits then some (n, rest) else none

/-- The exponent of a number in scientific notation, zero when there is none; `none` when its
marker is followed by no digit. -/
def exponent : List Char → Option ((Bool × ℕ) × List Char)
  | [] => some ((false, 0), [])
  | c :: s =>
      if c = 'e' ∨ c = 'E' then
        let (negative, s) := sign s
        let (ds, rest) := digits s
        if ds = [] then none else some ((negative, value ds), rest)
      else some ((false, 0), c :: s)

/-- A number in decimal notation after white space, read exactly. -/
def real (s : List Char) : Option (ℚ × List Char) :=
  let (negative, s) := sign (s.dropWhile isSpace)
  let (whole, s) := digits s
  let (part, s) :=
    match s with
    | '.' :: s => digits s
    | s => ([], s)
  if whole ++ part = [] then none
  else
    match exponent s with
    | none => none
    | some ((down, e), rest) =>
        let magnitude : ℚ := value (whole ++ part) / 10 ^ part.length
        let scaled := if down then magnitude / 10 ^ e else magnitude * 10 ^ e
        some (if negative then -scaled else scaled, rest)

/-! ### The printed digits -/

lemma isDigit_digitChar (d : ℕ) : (Nat.digitChar (d % 10)).isDigit = true := by
  have hd : d % 10 < 10 := Nat.mod_lt _ (by decide)
  rw [Char.isDigit_iff_toNat, Nat.toNat_digitChar_of_lt_ten hd]
  constructor
  · show 48 ≤ 48 + d % 10
    omega
  · show 48 + d % 10 ≤ 57
    omega

lemma isDigit_of_mem_natural {n : ℕ} {c : Char} (h : c ∈ natural n) : c.isDigit = true :=
  Nat.isDigit_of_mem_toDigits (by decide) (by decide) h

lemma natural_ne_nil (n : ℕ) : natural n ≠ [] := Nat.toDigits_ne_nil

lemma value_natural (n : ℕ) : value (natural n) = n := Nat.ofDigitChars_ten_toDigits

lemma isDigit_of_mem_padded {k n : ℕ} {c : Char} (h : c ∈ padded k n) : c.isDigit = true := by
  induction k generalizing n with
  | zero => simp [padded] at h
  | succ k ih =>
      rw [padded, List.mem_append, List.mem_singleton] at h
      rcases h with h | rfl
      · exact ih h
      · exact isDigit_digitChar n

lemma length_padded (k n : ℕ) : (padded k n).length = k := by
  induction k generalizing n with
  | zero => rfl
  | succ k ih => rw [padded, List.length_append, ih, List.length_singleton]

lemma ofDigitChars_padded (k n i : ℕ) :
    Nat.ofDigitChars 10 (padded k n) i = 10 ^ k * i + n % 10 ^ k := by
  induction k generalizing n with
  | zero => simp [padded, Nat.ofDigitChars_nil, Nat.mod_one]
  | succ k ih =>
      have hd : n % 10 < 10 := Nat.mod_lt _ (by decide)
      rw [padded, Nat.ofDigitChars_append, ih, Nat.ofDigitChars_cons_digitChar_of_lt_ten hd,
        Nat.ofDigitChars_nil, Nat.pow_succ, Nat.mul_comm (10 ^ k) 10, Nat.mod_mul]
      ring

/-- The digits of a number cut at its last `k`. -/
lemma value_natural_padded (k m : ℕ) : value (natural (m / 10 ^ k) ++ padded k m) = m := by
  have hwhole : Nat.ofDigitChars 10 (natural (m / 10 ^ k)) 0 = m / 10 ^ k := value_natural _
  rw [value, Nat.ofDigitChars_append, hwhole, ofDigitChars_padded]
  exact Nat.div_add_mod m (10 ^ k)

/-! ### Round trips -/

/-- The text does not continue a run of digits. -/
def Ends (rest : List Char) : Prop := ∀ c ∈ rest.head?, c.isDigit = false

lemma ends_nil : Ends [] := fun c h => by simp at h

lemma ends_cons {c : Char} {rest : List Char} (h : c.isDigit = false) : Ends (c :: rest) :=
  fun d hd => by
    obtain rfl : c = d := by simpa using hd
    exact h

lemma not_isSpace_of_isDigit {c : Char} (h : c.isDigit = true) : isSpace c = false := by
  rw [Char.isDigit_iff_toNat] at h
  have h48 : 48 ≤ c.toNat := h.1
  have hne : c ≠ ' ' := by
    rintro rfl
    exact absurd h48 (by decide)
  simp [isSpace, hne]
  omega

/-- Digits stand as they are in front of the white space and the sign of a field. -/
lemma sign_dropWhile_of_isDigit {ds rest : List Char} (hne : ds ≠ [])
    (hds : ∀ c ∈ ds, c.isDigit = true) :
    sign ((ds ++ rest).dropWhile isSpace) = (false, ds ++ rest) := by
  obtain ⟨c, ds, rfl⟩ := List.exists_cons_of_ne_nil hne
  have hc := hds c List.mem_cons_self
  rw [List.cons_append, List.dropWhile_cons_of_neg (by simp [not_isSpace_of_isDigit hc]), sign]
  · rintro s heq
    obtain ⟨rfl, -⟩ := List.cons.inj heq
    exact absurd hc (by decide)
  · rintro s heq
    obtain ⟨rfl, -⟩ := List.cons.inj heq
    exact absurd hc (by decide)

lemma digits_append {ds rest : List Char} (hds : ∀ c ∈ ds, c.isDigit = true)
    (hrest : Ends rest) : digits (ds ++ rest) = (ds, rest) := by
  have htake : rest.takeWhile Char.isDigit = [] := by
    cases rest with
    | nil => rfl
    | cons c rest => exact List.takeWhile_cons_of_neg (by simp [hrest c rfl])
  have hdrop : rest.dropWhile Char.isDigit = rest := by
    cases rest with
    | nil => rfl
    | cons c rest => exact List.dropWhile_cons_of_neg (by simp [hrest c rfl])
  rw [digits, List.takeWhile_append_of_pos hds, List.dropWhile_append_of_pos hds, htake, hdrop,
    List.append_nil]

lemma integer_natural (n : ℕ) {rest : List Char} (hrest : Ends rest) :
    integer (natural n ++ rest) = some ((false, n), rest) := by
  have hds : ∀ c ∈ natural n, c.isDigit = true := fun c hc => isDigit_of_mem_natural hc
  simp only [integer, sign_dropWhile_of_isDigit (natural_ne_nil n) hds, digits_append hds hrest,
    if_neg (natural_ne_nil n), value_natural]

/-- **An unsigned word** reads back. -/
theorem unsigned_natural {bits n : ℕ} (hn : n < 2 ^ bits) {rest : List Char}
    (hrest : Ends rest) : unsigned bits (natural n ++ rest) = some (n, rest) := by
  simp [unsigned, integer_natural n hrest, hn]

/-- **A natural number in a signed word** reads back. -/
theorem signed_natural {bits n : ℕ} (hn : n < 2 ^ bits) {rest : List Char}
    (hrest : Ends rest) : signed bits (natural n ++ rest) = some ((n : ℤ), rest) := by
  simp [signed, integer_natural n hrest, hn]

/-- The text continues no number: neither a digit nor the marker of an exponent. -/
def EndsReal (rest : List Char) : Prop :=
  ∀ c ∈ rest.head?, c.isDigit = false ∧ c ≠ 'e' ∧ c ≠ 'E'

/-- **A number in fixed notation** reads back as the number printed. -/
theorem real_fixed (k : ℕ) (negative : Bool) (m : ℕ) {rest : List Char} (hrest : EndsReal rest) :
    real (fixed k negative m ++ rest)
      = some ((if negative then -((m : ℚ) / 10 ^ k) else (m : ℚ) / 10 ^ k), rest) := by
  have hwhole : ∀ c ∈ natural (m / 10 ^ k), c.isDigit = true :=
    fun c hc => isDigit_of_mem_natural hc
  have hpart : ∀ c ∈ padded k m, c.isDigit = true := fun c hc => isDigit_of_mem_padded hc
  have hsign : sign ((fixed k negative m ++ rest).dropWhile isSpace)
      = (negative, natural (m / 10 ^ k) ++ '.' :: (padded k m ++ rest)) := by
    cases negative with
    | false =>
        have h := @sign_dropWhile_of_isDigit _ ('.' :: (padded k m ++ rest))
          (natural_ne_nil _) hwhole
        simpa [fixed] using h
    | true => simp [fixed, isSpace, sign]
  have hends : Ends rest := fun c hc => (hrest c hc).1
  have hexp : exponent rest = some ((false, 0), rest) := by
    cases rest with
    | nil => rfl
    | cons c rest =>
        obtain ⟨-, he, hE⟩ := hrest c rfl
        simp [exponent, he, hE]
  have hne : natural (m / 10 ^ k) ++ padded k m ≠ [] := by
    simp [natural_ne_nil]
  simp only [real, hsign, digits_append hwhole (ends_cons (c := '.') (by decide)),
    digits_append hpart hends, if_neg hne, hexp, value_natural_padded, length_padded]
  simp

/-! ### Numerals cut short -/

/-- A beginning of a text with a mark in it ends in front of the mark or behind it. -/
lemma prefix_mark {α : Type*} {s f g : List α} {c : α} (h : s <+: f ++ c :: g) :
    s <+: f ∨ ∃ g', s = f ++ c :: g' ∧ g' <+: g := by
  rcases List.prefix_or_prefix_of_prefix h (List.prefix_append f (c :: g)) with hf | hf
  · exact Or.inl hf
  · obtain ⟨t, rfl⟩ := hf
    have ht : t <+: c :: g := (List.prefix_append_right_inj f).mp h
    cases t with
    | nil => exact Or.inl (by simp)
    | cons d t =>
        obtain ⟨rfl, htg⟩ := List.cons_prefix_cons.mp ht
        exact Or.inr ⟨t, rfl, htg⟩

/-- **A numeral cut short** is a numeral, of a number that is not larger. -/
lemma exists_natural_of_prefix {n : ℕ} {s : List Char} (h : s <+: natural n) (hs : s ≠ []) :
    ∃ m ≤ n, s = natural m := by
  induction n using Nat.strong_induction_on generalizing s with
  | _ n ih =>
      rcases lt_or_ge n 10 with hn | hn
      · have hone : natural n = [Nat.digitChar n] := Nat.toDigits_of_lt_base hn
        rw [hone] at h
        refine ⟨n, le_rfl, ?_⟩
        rw [hone]
        exact h.eq_of_length_le (List.length_pos_iff.mpr hs)
      · have hlast : natural n = natural (n / 10) ++ [Nat.digitChar (n % 10)] := by
          have hsplit := Nat.toDigits_append_toDigits (b := 10) (n := n / 10) (d := n % 10)
            (by decide) (by omega) (Nat.mod_lt _ (by decide))
          rw [Nat.div_add_mod, Nat.toDigits_of_lt_base (Nat.mod_lt _ (by decide))] at hsplit
          exact hsplit.symm
        rw [hlast] at h
        rcases prefix_mark h with h | ⟨t, rfl, ht⟩
        · obtain ⟨m, hm, rfl⟩ := ih (n / 10) (by omega) h hs
          exact ⟨m, by omega, rfl⟩
        · rw [List.prefix_nil.mp ht, ← hlast]
          exact ⟨n, le_rfl, rfl⟩

lemma digits_self {ds : List Char} (h : ∀ c ∈ ds, c.isDigit = true) : digits ds = (ds, []) := by
  have hend := digits_append h ends_nil
  rwa [List.append_nil] at hend

/-- Nothing is left behind a run of digits. -/
lemma rest_integer {ds : List Char} (h : ∀ c ∈ ds, c.isDigit = true) :
    ∀ r ∈ integer ds, r.2 = [] := by
  intro r hr
  by_cases hne : ds = []
  · subst hne
    simp [integer, sign, digits] at hr
  · have hsign := @sign_dropWhile_of_isDigit ds [] hne h
    rw [List.append_nil] at hsign
    simp only [integer, hsign, digits_self h, if_neg hne, Option.mem_some_iff] at hr
    rw [← hr]

/-- A reader built on `integer`: what it leaves of a text is what `integer` leaves of it. -/
def LeavesAsInteger {α : Type*} (read : List Char → Option (α × List Char)) : Prop :=
  ∀ s a rest, read s = some (a, rest) → ∃ i, integer s = some (i, rest)

lemma leavesAsInteger_unsigned (bits : ℕ) : LeavesAsInteger (unsigned bits) := by
  grind [LeavesAsInteger, unsigned]

lemma leavesAsInteger_signed (bits : ℕ) : LeavesAsInteger (signed bits) := by
  grind [LeavesAsInteger, signed]

lemma LeavesAsInteger.rest_eq_nil {α : Type*} {read : List Char → Option (α × List Char)}
    (hread : LeavesAsInteger read) {ds : List Char} (h : ∀ c ∈ ds, c.isDigit = true) :
    ∀ r ∈ read ds, r.2 = [] := by
  rintro ⟨a, rest⟩ hr
  obtain ⟨i, hi⟩ := hread ds a rest hr
  exact rest_integer h (i, rest) hi

/-- Nothing is left behind digits with at most one point in them. -/
lemma rest_real (negative : Bool) {ds tail : List Char} (hds : ∀ c ∈ ds, c.isDigit = true)
    (htail : tail = [] ∨ ∃ es, tail = '.' :: es ∧ ∀ c ∈ es, c.isDigit = true) :
    ∀ r ∈ real ((if negative then ['-'] else []) ++ ds ++ tail), r.2 = [] := by
  have hends : Ends tail := by
    rcases htail with rfl | ⟨es, rfl, -⟩
    · exact ends_nil
    · exact ends_cons (by decide)
  have hsign : sign (((if negative then ['-'] else []) ++ ds ++ tail).dropWhile isSpace)
      = (negative, ds ++ tail) := by
    cases negative with
    | true => simp [isSpace, sign]
    | false =>
        by_cases hne : ds = []
        · rcases htail with rfl | ⟨es, rfl, -⟩
          · simp [hne, sign]
          · simp [hne, isSpace, sign]
        · simpa using @sign_dropWhile_of_isDigit ds tail hne hds
  intro r hr
  rcases htail with rfl | ⟨es, rfl, hes⟩
  · simp only [real, hsign, digits_append hds hends, exponent] at hr
    split_ifs at hr <;> cases hr <;> rfl
  · simp only [real, hsign, digits_append hds hends, digits_self hes, exponent] at hr
    split_ifs at hr <;> cases hr <;> rfl

/-- **A number in fixed notation cut short**: whatever is read of it, nothing is left behind. -/
lemma rest_real_of_prefix {k m : ℕ} {negative : Bool} {s : List Char}
    (h : s <+: fixed k negative m) : ∀ r ∈ real s, r.2 = [] := by
  have hwhole : ∀ {t}, t <+: natural (m / 10 ^ k) → ∀ c ∈ t, c.isDigit = true := fun ht c hc =>
    isDigit_of_mem_natural (ht.subset hc)
  have hbody : ∀ {t}, t <+: natural (m / 10 ^ k) ++ '.' :: padded k m →
      ∀ r ∈ real ((if negative then ['-'] else []) ++ t), r.2 = [] := by
    intro t ht
    rcases prefix_mark ht with ht | ⟨es, rfl, hes⟩
    · have hrest := rest_real negative (hwhole ht) (Or.inl rfl)
      rwa [List.append_nil] at hrest
    · rw [← List.append_assoc]
      exact rest_real negative (hwhole (List.prefix_refl _))
        (Or.inr ⟨es, rfl, fun c hc => isDigit_of_mem_padded (hes.subset hc)⟩)
  rw [fixed, List.append_assoc] at h
  cases negative with
  | false => exact hbody h
  | true =>
      cases s with
      | nil => exact @rest_real false [] [] (by simp) (Or.inl rfl)
      | cons c s =>
          obtain ⟨rfl, hs⟩ := List.cons_prefix_cons.mp h
          exact hbody hs

end Decimal
