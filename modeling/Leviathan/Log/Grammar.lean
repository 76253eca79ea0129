import Leviathan.Foundations.Spelling
import Leviathan.Log.Entries
import Leviathan.Log.Recovery

/-!
The lines that the parser acts on, against the documented format.

* `Documented` is the format of the log: an exact tag, and fields with single commas between them,
  each what its `Kind` asks for.
* The parser extracts field after field and compares no separator.  `Reads` is the grammar of what
  the extractions take: a field behind some white space, a sign, any character for a comma, any
  number for an enumerator, any text behind the last field.  Each of these goes into a list of
  deviations; `entryOf_eq_some_iff` says that the lines acted on are those that have a `Reading`,
  and `documented_iff` that the documented ones are those with a reading without deviation.
* A line has one reading (`Reading.unique`), so `exact_iff` can say that the parser keeps to the
  format except on the lines whose reading deviates.
-/

namespace Leviathan

open Decimal

variable {P : Type*}

/-! ### The format -/

/-- The kinds of fields. -/
inductive Kind where
  | word | side | type | price
  deriving DecidableEq

/-- What a field stands for; prices are exact. -/
inductive Value where
  | word (n : UInt64)
  | int (z : ℤ)
  | number (q : ℚ)
  deriving DecidableEq

/-- The tags of the lines. -/
inductive Tag where
  | add | cancel | submit | modify | trade
  deriving DecidableEq

/-- A tag as it is written. -/
def Tag.text : Tag → List Char
  | .add => "ADD".toList
  | .cancel => "CANCEL".toList
  | .submit => "SUBMIT".toList
  | .modify => "MODIFY".toList
  | .trade => "TRADE".toList

/-- The fields behind a tag, the sequence number first. -/
def Tag.layout : Tag → List Kind
  | .add => [.word, .word, .side, .price, .word, .type]
  | .cancel => [.word, .word]
  | .submit => [.word, .word, .side, .price, .word, .type]
  | .modify => [.word, .word, .price, .word]
  | .trade => [.word, .word, .word, .price, .word]

/-- The values of the fields of an ADD or a SUBMIT line. -/
def orderValues : List Value → Option (UInt64 × Side × ℚ × UInt64 × OrderType)
  | [.word _, .word orderId, .int side, .number price, .word quantity, .int type] =>
      some (orderId, castSide side, price, quantity, castType type)
  | _ => none

/-- The entry that the values of the fields make. -/
def Tag.entry : Tag → List Value → Option (Entry ℚ)
  | .add, vs =>
      (orderValues vs).map fun (orderId, side, price, quantity, type) =>
        .add orderId side price quantity type
  | .cancel, [.word _, .word orderId] => some (.cancel orderId)
  | .submit, vs =>
      (orderValues vs).map fun (orderId, side, price, quantity, type) =>
        .submit orderId side price quantity type
  | .modify, [.word _, .word orderId, .number newPrice, .word newQuantity] =>
      some (.modify orderId newPrice newQuantity)
  | .trade, [.word _, .word buyId, .word sellId, .number price, .word quantity] =>
      some (.trade ⟨buyId, sellId, price, quantity, 0⟩)
  | _, _ => none

/-- The entry at the price nearest to its exact one, `none` when that is out of range. -/
def Entry.round (fmt : PriceFormat P) : Entry ℚ → Option (Entry P)
  | .add id side price quantity type =>
      (fmt.nearest price).map fun p => .add id side p quantity type
  | .cancel id => some (.cancel id)
  | .submit id side price quantity type =>
      (fmt.nearest price).map fun p => .submit id side p quantity type
  | .modify id newPrice newQuantity => (fmt.nearest newPrice).map fun p => .modify id p newQuantity
  | .trade t =>
      (fmt.nearest t.price).map fun p =>
        .trade ⟨t.buyOrderId, t.sellOrderId, p, t.quantity, t.timestamp⟩

/-- A field as the format has it: an unsigned decimal in its range, or a decimal number. -/
def Kind.Documented : Kind → List Char → Value → Prop
  | .word, text, v => text ≠ [] ∧ (∀ c ∈ text, c.isDigit = true) ∧ value text < 2 ^ 64
      ∧ v = .word (UInt64.ofNat (value text))
  | .side, text, v => text ≠ [] ∧ (∀ c ∈ text, c.isDigit = true) ∧ value text < 2
      ∧ v = .int (value text)
  | .type, text, v => text ≠ [] ∧ (∀ c ∈ text, c.isDigit = true) ∧ value text < 4
      ∧ v = .int (value text)
  | .price, text, v => ∃ q, RealText text q [] ∧ v = .number q

/-- Fields as the format has them, one for each kind. -/
inductive Fields : List Kind → List (List Char) → List Value → Prop
  | nil : Fields [] [] []
  | cons {k : Kind} {text : List Char} {v : Value} {ks : List Kind} {texts : List (List Char)}
      {vs : List Value} (h : k.Documented text v) (hs : Fields ks texts vs) :
      Fields (k :: ks) (text :: texts) (v :: vs)

/-- **The documented format**: the line is a tag and its fields, with single commas between them
and nothing behind them, and stands for the entry. -/
def Documented (line : List Char) (e : Entry ℚ) : Prop :=
  ∃ t texts vs, line = commas (Tag.text t :: texts) ∧ Fields t.layout texts vs
    ∧ t.entry vs = some e

/-! ### What the extractions take -/

/-- Extract a field. -/
def readValue : Kind → List Char → Option (Value × List Char)
  | .word, s => (readWord s).map fun r => (.word r.1, r.2)
  | .side, s => (readInt s).map fun r => (.int r.1, r.2)
  | .type, s => (readInt s).map fun r => (.int r.1, r.2)
  | .price, s => (real s).map fun r => (.number r.1, r.2)

/-- Extract fields with a character between them. -/
def readValues : List Kind → List Char → Option (List Value)
  | [], _ => some []
  | [k], s => (readValue k s).map fun r => [r.1]
  | k :: ks, s =>
      (readValue k s).bind fun r => (readComma r.2).bind fun s => (readValues ks s).map (r.1 :: ·)

/-- The text is one that the extraction of a field takes for a value, in front of `rest`. -/
def Kind.Spells : Kind → List Char → Value → List Char → Prop
  | .word, text, v, rest => ∃ negative n, IntegerText text negative n rest ∧ n < 2 ^ 64
      ∧ v = .word (UInt64.ofNat (if negative then (2 ^ 64 - n) % 2 ^ 64 else n))
  | .side, text, v, rest => ∃ negative n, IntegerText text negative n rest
      ∧ (if negative then n ≤ 2 ^ 31 else n < 2 ^ 31)
      ∧ v = .int (if negative then -(n : ℤ) else n)
  | .type, text, v, rest => ∃ negative n, IntegerText text negative n rest
      ∧ (if negative then n ≤ 2 ^ 31 else n < 2 ^ 31)
      ∧ v = .int (if negative then -(n : ℤ) else n)
  | .price, text, v, rest => ∃ q, RealText text q rest ∧ v = .number q

/-- What a line can have that the format does not: white space in front of a field or a separator,
a sign on an integer, a separator that is no comma, a side or a type that is no enumerator, text
behind the last field. -/
inductive Deviation where
  | whiteSpace | sign | separator | enumerator | tail
  deriving DecidableEq

/-- The number is an enumerator. -/
def Kind.Enumerates : Kind → Value → Prop
  | .side, v => v ∈ [Value.int 0, .int 1]
  | .type, v => v ∈ [Value.int 0, .int 1, .int 2, .int 3]
  | _, _ => True

instance (k : Kind) (v : Value) : Decidable (k.Enumerates v) :=
  match k with
  | .word => inferInstanceAs (Decidable True)
  | .side => inferInstanceAs (Decidable (v ∈ [Value.int 0, .int 1]))
  | .type => inferInstanceAs (Decidable (v ∈ [Value.int 0, .int 1, .int 2, .int 3]))
  | .price => inferInstanceAs (Decidable True)

/-- The deviations of a field. -/
def Kind.deviations (k : Kind) (blanks text : List Char) (v : Value) : List Deviation :=
  (if blanks = [] then [] else [.whiteSpace])
    ++ (if k = .price ∨ text.all Char.isDigit = true then [] else [.sign])
    ++ (if k.Enumerates v then [] else [.enumerator])

/-- The deviations of a separator. -/
def separatorDeviations (gap : List Char) (c : Char) : List Deviation :=
  (if gap = [] then [] else [.whiteSpace]) ++ (if c = ',' then [] else [.separator])

/-- **What is read**: the text is taken for fields with these values and these deviations. -/
inductive Reads : List Kind → List Char → List Value → List Deviation → Prop
  | last {k : Kind} {blanks text tail : List Char} {v : Value} (hb : Blank blanks)
      (ht : k.Spells text v tail) :
      Reads [k] (blanks ++ text ++ tail) [v]
        (k.deviations blanks text v ++ if tail = [] then [] else [.tail])
  | more {k : Kind} {blanks text gap rest : List Char} {v : Value} {c : Char} {ks : List Kind}
      {vs : List Value} {ds : List Deviation} (hb : Blank blanks)
      (ht : k.Spells text v (gap ++ c :: rest)) (hgap : Blank gap) (hc : isSpace c = false)
      (h : Reads ks rest vs ds) :
      Reads (k :: ks) (blanks ++ text ++ (gap ++ c :: rest)) (v :: vs)
        (k.deviations blanks text v ++ separatorDeviations gap c ++ ds)

/-- The line is a tag, a comma and what is read for its fields. -/
def Reading (line : List Char) (t : Tag) (vs : List Value) (ds : List Deviation) : Prop :=
  ∃ rest, line = t.text ++ ',' :: rest ∧ Reads t.layout rest vs ds

/-! ### The extractions read that -/

/-- A field in front of a text begins with no white space. -/
lemma Kind.Spells.starts {k : Kind} {text rest : List Char} {v : Value}
    (h : k.Spells text v rest) : Starts text := by
  have hint : ∀ {negative n}, IntegerText text negative n rest → Starts text := fun ht => by
    have hstart := ht.starts []
    rwa [List.append_nil] at hstart
  cases k with
  | word =>
      obtain ⟨negative, n, ht, -⟩ := h
      exact hint ht
  | side =>
      obtain ⟨negative, n, ht, -⟩ := h
      exact hint ht
  | type =>
      obtain ⟨negative, n, ht, -⟩ := h
      exact hint ht
  | price =>
      obtain ⟨q, ⟨r, hr, rfl, -⟩, -⟩ := h
      have hstart := hr.starts []
      rwa [List.append_nil] at hstart

/-- **A field** is extracted where one is spelled behind some white space. -/
lemma readValue_eq_some_iff {k : Kind} {s rest : List Char} {v : Value} :
    readValue k s = some (v, rest)
      ↔ ∃ blanks text, Blank blanks ∧ k.Spells text v rest ∧ s = blanks ++ text ++ rest := by
  have hint : readInt s = signed 31 s := rfl
  cases k with
  | word =>
      simp only [readValue, readWord, Option.map_map, Option.map_eq_some_iff, Function.comp,
        Prod.mk.injEq, Prod.exists, unsigned_eq_some_iff, integer_eq_some_iff, Kind.Spells]
      constructor
      · rintro ⟨m, _, ⟨negative, n, ⟨blanks, text, hb, ht, hs⟩, hn, rfl⟩, rfl, rfl⟩
        exact ⟨blanks, text, hb, ⟨negative, n, ht, hn, rfl⟩, hs⟩
      · rintro ⟨blanks, text, hb, ⟨negative, n, ht, hn, rfl⟩, hs⟩
        exact ⟨_, _, ⟨negative, n, ⟨blanks, text, hb, ht, hs⟩, hn, rfl⟩, rfl, rfl⟩
  | side | type =>
      simp only [readValue, hint, Option.map_eq_some_iff, Prod.mk.injEq, Prod.exists,
        signed_eq_some_iff, integer_eq_some_iff, Kind.Spells]
      constructor
      · rintro ⟨z, _, ⟨negative, n, ⟨blanks, text, hb, ht, hs⟩, hn, rfl⟩, rfl, rfl⟩
        exact ⟨blanks, text, hb, ⟨negative, n, ht, hn, rfl⟩, hs⟩
      · rintro ⟨blanks, text, hb, ⟨negative, n, ht, hn, rfl⟩, hs⟩
        exact ⟨_, _, ⟨negative, n, ⟨blanks, text, hb, ht, hs⟩, hn, rfl⟩, rfl, rfl⟩
  | price =>
      simp only [readValue, Option.map_eq_some_iff, Prod.mk.injEq, Prod.exists, real_eq_some_iff,
        Kind.Spells]
      constructor
      · rintro ⟨q, _, ⟨blanks, text, hb, ht, hs⟩, rfl, rfl⟩
        exact ⟨blanks, text, hb, ⟨q, ht, rfl⟩, hs⟩
      · rintro ⟨blanks, text, hb, ⟨q, ht, rfl⟩, hs⟩
        exact ⟨q, _, ⟨blanks, text, hb, ht, hs⟩, rfl, rfl⟩

lemma readComma_eq_some_iff {s rest : List Char} :
    readComma s = some rest
      ↔ ∃ gap c, Blank gap ∧ isSpace c = false ∧ s = gap ++ c :: rest := by
  rw [readComma, Option.map_eq_some_iff]
  constructor
  · rintro ⟨⟨c, _⟩, h, rfl⟩
    obtain ⟨gap, hgap, hc, hs⟩ := character_eq_some_iff.mp h
    exact ⟨gap, c, hgap, hc, hs⟩
  · rintro ⟨gap, c, hgap, hc, hs⟩
    exact ⟨(c, rest), character_eq_some_iff.mpr ⟨gap, hgap, hc, hs⟩, rfl⟩

/-- **The fields** of a line are extracted where there is something that reads as them. -/
lemma readValues_eq_some_iff {ks : List Kind} (hks : ks ≠ []) {s : List Char} {vs : List Value} :
    readValues ks s = some vs ↔ ∃ ds, Reads ks s vs ds := by
  induction ks generalizing s vs with
  | nil => exact absurd rfl hks
  | cons k ks ih =>
      cases ks with
      | nil =>
          rw [readValues, Option.map_eq_some_iff]
          constructor
          · rintro ⟨⟨v, tail⟩, h, rfl⟩
            obtain ⟨blanks, text, hb, ht, rfl⟩ := readValue_eq_some_iff.mp h
            exact ⟨_, .last hb ht⟩
          · rintro ⟨ds, h⟩
            cases h with
            | last hb ht => exact ⟨_, readValue_eq_some_iff.mpr ⟨_, _, hb, ht, rfl⟩, rfl⟩
            | more _ _ _ _ h => cases h
      | cons k' ks =>
          simp only [readValues, Option.bind_eq_some_iff, Option.map_eq_some_iff]
          constructor
          · rintro ⟨⟨v, s'⟩, h, rest, hcomma, vs, hvs, rfl⟩
            obtain ⟨blanks, text, hb, ht, rfl⟩ := readValue_eq_some_iff.mp h
            obtain ⟨gap, c, hgap, hc, rfl⟩ := readComma_eq_some_iff.mp hcomma
            obtain ⟨ds, hds⟩ := (ih (List.cons_ne_nil _ _)).mp hvs
            exact ⟨_, .more hb ht hgap hc hds⟩
          · rintro ⟨ds, h⟩
            cases h with
            | more hb ht hgap hc h =>
                exact ⟨_, readValue_eq_some_iff.mpr ⟨_, _, hb, ht, rfl⟩, _,
                  readComma_eq_some_iff.mpr ⟨_, _, hgap, hc, rfl⟩, _,
                  (ih (List.cons_ne_nil _ _)).mpr ⟨_, h⟩, rfl⟩

/-- **A text is read in one way.** -/
lemma Reads.unique {ks : List Kind} {s : List Char} {vs vs' : List Value}
    {ds ds' : List Deviation} (h : Reads ks s vs ds) (h' : Reads ks s vs' ds') :
    vs = vs' ∧ ds = ds' := by
  -- a field leaves one rest, and is cut off in front of it in one way
  have hfield : ∀ {k : Kind} {blanks blanks' text text' rest rest' : List Char} {v v' : Value},
      Blank blanks → Blank blanks' → k.Spells text v rest → k.Spells text' v' rest' →
      blanks ++ text ++ rest = blanks' ++ text' ++ rest' →
      blanks = blanks' ∧ text = text' ∧ v = v' ∧ rest = rest' := by
    intro k blanks blanks' text text' rest rest' v v' hb hb' ht ht' heq
    have hread := readValue_eq_some_iff.mpr ⟨blanks, text, hb, ht, rfl⟩
    rw [heq, readValue_eq_some_iff.mpr ⟨blanks', text', hb', ht', rfl⟩] at hread
    obtain ⟨rfl, rfl⟩ := Prod.mk.inj (Option.some.inj hread)
    obtain ⟨rfl, rfl⟩ := split_unique hb hb' ht.starts ht'.starts heq
    exact ⟨rfl, rfl, rfl, rfl⟩
  induction h generalizing vs' ds' with
  | @last k blanks text tail v hb ht =>
      generalize hs : blanks ++ text ++ tail = s at h'
      cases h' with
      | last hb' ht' =>
          obtain ⟨rfl, rfl, rfl, rfl⟩ := hfield hb hb' ht ht' hs
          exact ⟨rfl, rfl⟩
      | more _ _ _ _ h => cases h
  | @more k blanks text gap rest v c ks vs ds hb ht hgap hc h ih =>
      generalize hs : blanks ++ text ++ (gap ++ c :: rest) = s at h'
      cases h' with
      | last _ _ => cases h
      | @more _ blanks' text' gap' rest' v' c' _ vs' ds' hb' ht' hgap' hc' h' =>
          obtain ⟨rfl, rfl, rfl, hrest⟩ := hfield hb hb' ht ht' hs
          have hstart : ∀ {c : Char} {t : List Char}, isSpace c = false → Starts (c :: t) :=
            fun hc d hd => by
              obtain rfl : _ = d := by simpa using hd
              exact hc
          obtain ⟨rfl, hcons⟩ := blank_unique hgap hgap' (hstart hc) (hstart hc') hrest
          obtain ⟨rfl, rfl⟩ := List.cons.inj hcons
          obtain ⟨rfl, rfl⟩ := ih h'
          exact ⟨rfl, rfl⟩

/-! ### The lines acted on -/

section Chains

variable {β : Type*} (s : List Char)

/-! The extractions of a line, written as the chains of the source write them. -/

lemma bind_readValues_cons (k k' : Kind) (ks : List Kind) (g : List Value → Option β) :
    (readValues (k :: k' :: ks) s).bind g =
      (readValue k s).bind fun r => (readComma r.2).bind fun s =>
        (readValues (k' :: ks) s).bind fun vs => g (r.1 :: vs) := by
  simp only [readValues, Option.bind_assoc, Option.bind_map, Function.comp]

lemma bind_readValues_last (k : Kind) (g : List Value → Option β) :
    (readValues [k] s).bind g = (readValue k s).bind fun r => g [r.1] := Option.bind_map

variable (f : Value × List Char → Option β)

lemma bind_word : (readValue .word s).bind f = (readWord s).bind fun r => f (.word r.1, r.2) :=
  Option.bind_map

lemma bind_type : (readValue .type s).bind f = (readInt s).bind fun r => f (.int r.1, r.2) :=
  Option.bind_map

lemma bind_price : (readValue .price s).bind f = (real s).bind fun r => f (.number r.1, r.2) :=
  Option.bind_map

lemma bind_readPrice (fmt : PriceFormat P) (f : P × List Char → Option β) :
    (readPrice fmt s).bind f =
      (real s).bind fun r => (fmt.nearest r.1).bind fun p => f (p, r.2) := by
  simp only [readPrice, Option.bind_assoc, Option.bind_map, Function.comp]

variable {s} {γ : Type*} {m : γ → β} {k : Kind} {ks : List Kind} {g : List Value → Option β}

/-- One step of a chain: the field at the front. -/
lemma field_step {δ : Type*} {read : List Char → Option (δ × List Char)} {value : δ → Value}
    {k₀ : Kind} (hread : ∀ s, readValue k₀ s = (read s).map fun r => (value r.1, r.2))
    {F : δ × List Char → Option γ}
    (h : ∀ x s, (F (x, s)).map m = (readComma s).bind fun s =>
      (readValues (k :: ks) s).bind fun vs => g (value x :: vs)) :
    ((read s).bind F).map m = (readValues (k₀ :: k :: ks) s).bind g := by
  rw [bind_readValues_cons, hread, Option.bind_map, Option.map_bind]
  exact Option.bind_congr fun r _ => h r.1 r.2

/-- One step of a chain: a comma. -/
lemma comma_step {F : List Char → Option γ} {G : List Char → Option β}
    (h : ∀ s, (F s).map m = G s) : ((readComma s).bind F).map m = (readComma s).bind G := by
  rw [Option.map_bind]
  exact Option.bind_congr fun s _ => h s

end Chains

/-- The decision of the parser, for fields that are read one after the other. -/
lemma entryOf_tagged (fmt : PriceFormat P) (t : Tag) (iss : List Char) :
    entryOf fmt (t.text ++ ',' :: iss)
      = (readValues t.layout iss).bind fun vs => (t.entry vs).bind (Entry.round fmt) := by
  have hcomma : ',' ∉ t.text := by cases t <;> decide
  have hword : ∀ s, readValue .word s = (readWord s).map fun r => (.word r.1, r.2) := fun _ => rfl
  have hside : ∀ s, readValue .side s = (readInt s).map fun r => (.int r.1, r.2) := fun _ => rfl
  have horder : ∀ g : UInt64 × Side × P × UInt64 × OrderType → Entry P,
      (orderFields fmt iss).map g = (readValues (Tag.layout .add) iss).bind fun vs =>
        (orderValues vs).bind fun (orderId, side, price, quantity, type) =>
          (fmt.nearest price).map fun p => g (orderId, side, p, quantity, type) := by
    intro g
    refine field_step hword fun _ s => comma_step fun s => field_step hword fun orderId s =>
      comma_step fun s => field_step hside fun z s => comma_step fun s => ?_
    simp only [bind_readValues_cons, bind_readValues_last, bind_word, bind_price, bind_type,
      bind_readPrice, Option.map_bind, Function.comp, Option.map_map]
    refine Option.bind_congr fun r _ => ?_
    -- a price out of range fails the chain here, and the line at its end
    cases hprice : fmt.nearest r.1 <;> simp [orderValues, hprice, Option.map_eq_bind]
  simp only [entryOf, splitTag_comma hcomma]
  cases t with
  | add =>
      rw [if_pos (by decide), horder]
      refine Option.bind_congr fun vs _ => ?_
      rw [Tag.entry, Option.bind_map]
      rfl
  | cancel =>
      rw [if_neg (by decide), if_pos (by decide)]
      refine field_step hword fun _ s => comma_step fun s => ?_
      rw [bind_readValues_last, bind_word]
      cases readWord s <;> rfl
  | submit =>
      rw [if_neg (by decide), if_neg (by decide), if_pos (by decide), horder]
      refine Option.bind_congr fun vs _ => ?_
      rw [Tag.entry, Option.bind_map]
      rfl
  | modify =>
      rw [if_neg (by decide), if_neg (by decide), if_neg (by decide), if_pos (by decide)]
      refine field_step hword fun _ s => comma_step fun s => field_step hword fun orderId s =>
        comma_step fun s => ?_
      simp only [bind_readValues_cons, bind_readValues_last, bind_word, bind_price,
        bind_readPrice, Option.map_bind, Function.comp, Option.map_map]
      refine Option.bind_congr fun r _ => ?_
      cases hprice : fmt.nearest r.1 <;>
        simp [Tag.entry, Entry.round, hprice, Option.map_eq_bind, Function.comp]
  | trade =>
      rw [if_neg (by decide), if_neg (by decide), if_neg (by decide), if_neg (by decide),
        if_pos (by decide)]
      refine field_step hword fun _ s => comma_step fun s => field_step hword fun buyId s =>
        comma_step fun s => field_step hword fun sellId s => comma_step fun s => ?_
      simp only [bind_readValues_cons, bind_readValues_last, bind_word, bind_price,
        bind_readPrice, Option.map_bind, Function.comp, Option.map_map]
      refine Option.bind_congr fun r _ => ?_
      cases hprice : fmt.nearest r.1 <;>
        simp [Tag.entry, Entry.round, hprice, Option.map_eq_bind, Function.comp]

/-- A line without one of the tags is skipped. -/
lemma entryOf_untagged {fmt : PriceFormat P} {line : List Char}
    (h : ∀ t, (splitTag line).1 ≠ Tag.text t) : entryOf fmt line = none := by
  rcases hsplit : splitTag line with ⟨tag, iss⟩
  rw [hsplit] at h
  have hadd : tag ≠ "ADD".toList := h .add
  have hcancel : tag ≠ "CANCEL".toList := h .cancel
  have hsubmit : tag ≠ "SUBMIT".toList := h .submit
  have hmodify : tag ≠ "MODIFY".toList := h .modify
  have htrade : tag ≠ "TRADE".toList := h .trade
  simp only [entryOf, hsplit, if_neg hadd, if_neg hcancel, if_neg hsubmit, if_neg hmodify,
    if_neg htrade]

/-- A line is its tag, or its tag, a comma and the rest. -/
lemma splitTag_cases (line : List Char) :
    splitTag line = (line, []) ∨ ∃ rest, line = (splitTag line).1 ++ ',' :: rest := by
  have hsplit := List.takeWhile_append_dropWhile (p := fun c => decide (c ≠ ',')) (l := line)
  cases hd : line.dropWhile fun c => decide (c ≠ ',') with
  | nil =>
      rw [hd, List.append_nil] at hsplit
      exact Or.inl (by rw [splitTag, hd, hsplit]; rfl)
  | cons c rest =>
      have hc := head?_dropWhile (fun c => decide (c ≠ ',')) line
      rw [hd] at hc
      obtain rfl : c = ',' := by simpa using hc c rfl
      exact Or.inr ⟨rest, by rw [splitTag, ← hd, hsplit]⟩

lemma layout_ne_nil (t : Tag) : t.layout ≠ [] := by cases t <;> decide

/-- **The lines acted on** are those with a reading whose price is in range. -/
theorem entryOf_eq_some_iff {fmt : PriceFormat P} {line : List Char} {e : Entry P} :
    entryOf fmt line = some e
      ↔ ∃ t vs ds e₀, Reading line t vs ds ∧ t.entry vs = some e₀ ∧ e₀.round fmt = some e := by
  constructor
  · intro h
    have htag : ∃ t, (splitTag line).1 = Tag.text t := by
      by_contra hnone
      rw [entryOf_untagged fun t ht => hnone ⟨t, ht⟩] at h
      simp at h
    obtain ⟨t, ht⟩ := htag
    rcases splitTag_cases line with hline | ⟨rest, hline⟩
    · -- a tag with nothing behind it has no fields
      rw [hline] at ht
      obtain rfl : line = t.text := ht
      have hnone : entryOf fmt t.text = none := by cases t <;> rfl
      simp [hnone] at h
    · rw [hline, ht, entryOf_tagged] at h
      obtain ⟨vs, hvs, h⟩ := Option.bind_eq_some_iff.mp h
      obtain ⟨e₀, he₀, he⟩ := Option.bind_eq_some_iff.mp h
      obtain ⟨ds, hds⟩ := (readValues_eq_some_iff (layout_ne_nil t)).mp hvs
      exact ⟨t, vs, ds, e₀, ⟨rest, ht ▸ hline, hds⟩, he₀, he⟩
  · rintro ⟨t, vs, ds, e₀, ⟨rest, rfl, hds⟩, he₀, he⟩
    rw [entryOf_tagged, (readValues_eq_some_iff (layout_ne_nil t)).mpr ⟨ds, hds⟩, Option.bind_some,
      he₀]
    exact he

/-- **A line has one reading.** -/
lemma Reading.unique {line : List Char} {t t' : Tag} {vs vs' : List Value}
    {ds ds' : List Deviation} (h : Reading line t vs ds) (h' : Reading line t' vs' ds') :
    t = t' ∧ vs = vs' ∧ ds = ds' := by
  obtain ⟨rest, rfl, h⟩ := h
  obtain ⟨rest', heq, h'⟩ := h'
  have hcomma : ∀ t : Tag, ',' ∉ t.text := fun t => by cases t <;> decide
  have hsplit := splitTag_comma (hcomma t) rest
  rw [heq, splitTag_comma (hcomma t') rest'] at hsplit
  obtain ⟨htext, rfl⟩ := Prod.mk.inj hsplit
  obtain rfl : t' = t := by
    revert htext
    cases t <;> cases t' <;> decide
  exact ⟨rfl, h.unique h'⟩

/-! ### The documented lines -/

lemma ite_nil_iff {p : Prop} [Decidable p] {d : Deviation} :
    (if p then [] else [d]) = [] ↔ p := by
  by_cases hp : p <;> simp [hp]

lemma Kind.deviations_eq_nil_iff {k : Kind} {blanks text : List Char} {v : Value} :
    k.deviations blanks text v = []
      ↔ blanks = [] ∧ (k = .price ∨ ∀ c ∈ text, c.isDigit = true) ∧ k.Enumerates v := by
  simp only [Kind.deviations, List.append_eq_nil_iff, ite_nil_iff, and_assoc, List.all_eq_true]

lemma separatorDeviations_eq_nil_iff {gap : List Char} {c : Char} :
    separatorDeviations gap c = [] ↔ gap = [] ∧ c = ',' := by
  simp only [separatorDeviations, List.append_eq_nil_iff, ite_nil_iff]

/-- Of the integers that are read for an enumerator, the documented ones are those below the
number of enumerators that have no sign. -/
lemma documented_enumerator_iff {k : Kind} (hk : k ≠ .price) {text rest : List Char} {v : Value}
    {bound : ℕ} (hends : Ends rest) (hbound : bound ≤ 2 ^ 31)
    (henum : ∀ n : ℕ, k.Enumerates (.int n) ↔ n < bound) :
    (text ≠ [] ∧ (∀ c ∈ text, c.isDigit = true) ∧ value text < bound ∧ v = .int (value text))
      ↔ (∃ negative n, IntegerText text negative n rest
          ∧ (if negative then n ≤ 2 ^ 31 else n < 2 ^ 31)
          ∧ v = .int (if negative then -(n : ℤ) else n))
        ∧ ([] : List Char) = [] ∧ (k = .price ∨ ∀ c ∈ text, c.isDigit = true)
          ∧ k.Enumerates v := by
  constructor
  · rintro ⟨hne, hds, hlt, rfl⟩
    exact ⟨⟨false, _, integerText_of_isDigit hne hds hends, hlt.trans_le hbound, rfl⟩, rfl,
      Or.inr hds, (henum _).mpr hlt⟩
  · rintro ⟨⟨negative, n, ht, -, rfl⟩, -, hds, hen⟩
    have hds := hds.resolve_left hk
    obtain ⟨rfl, hne, rfl⟩ := ht.of_isDigit hds
    exact ⟨hne, hds, (henum _).mp hen, rfl⟩

/-- **A documented field** is one that is read without deviation. -/
lemma Kind.documented_iff {k : Kind} {text rest : List Char} {v : Value}
    (hrest : ∀ c ∈ rest.head?, c = ',') :
    k.Documented text v ↔ k.Spells text v rest ∧ k.deviations [] text v = [] := by
  have hends : Ends rest := fun c hc => by
    rw [hrest c hc]
    decide
  rw [Kind.deviations_eq_nil_iff]
  cases k with
  | word =>
      constructor
      · rintro ⟨hne, hds, hlt, rfl⟩
        exact ⟨⟨false, _, integerText_of_isDigit hne hds hends, hlt, rfl⟩, rfl, Or.inr hds, trivial⟩
      · rintro ⟨⟨negative, n, ht, hn, rfl⟩, -, hds, -⟩
        have hds := hds.resolve_left (by simp)
        obtain ⟨rfl, hne, rfl⟩ := ht.of_isDigit hds
        exact ⟨hne, hds, hn, rfl⟩
  | side =>
      refine documented_enumerator_iff (by simp) hends (show 2 ≤ 2 ^ 31 by decide) fun n => ?_
      simp only [Kind.Enumerates, List.mem_cons, List.not_mem_nil, Value.int.injEq, or_false]
      omega
  | type =>
      refine documented_enumerator_iff (by simp) hends (show 4 ≤ 2 ^ 31 by decide) fun n => ?_
      simp only [Kind.Enumerates, List.mem_cons, List.not_mem_nil, Value.int.injEq, or_false]
      omega
  | price =>
      constructor
      · rintro ⟨q, hq, rfl⟩
        refine ⟨⟨q, hq.in_front_of fun c hc => ?_, rfl⟩, rfl, Or.inl rfl, trivial⟩
        rw [hrest c hc]
        decide
      · rintro ⟨⟨q, hq, rfl⟩, -⟩
        exact ⟨q, hq.in_front_of (by simp), rfl⟩

lemma head?_comma (s : List Char) : ∀ c ∈ ([] ++ ',' :: s).head?, c = ',' := fun c hc => by
  simpa [eq_comm] using hc

lemma commas_cons {text : List Char} {texts : List (List Char)} (h : texts ≠ []) :
    commas (text :: texts) = text ++ ',' :: commas texts := by
  cases texts with
  | nil => exact absurd rfl h
  | cons t ts => rfl

lemma Fields.ne_nil {ks : List Kind} {texts : List (List Char)} {vs : List Value}
    (h : Fields ks texts vs) (hks : ks ≠ []) : texts ≠ [] := by
  cases h with
  | nil => exact absurd rfl hks
  | cons h hs => exact List.cons_ne_nil _ _

lemma Reads.ne_nil {ks : List Kind} {s : List Char} {vs : List Value} {ds : List Deviation}
    (h : Reads ks s vs ds) : ks ≠ [] := by
  cases h <;> exact List.cons_ne_nil _ _

/-- **Documented fields** with single commas between them are what is read without deviation. -/
lemma reads_nil_iff {ks : List Kind} (hks : ks ≠ []) {s : List Char} {vs : List Value} :
    Reads ks s vs [] ↔ ∃ texts, s = commas texts ∧ Fields ks texts vs := by
  constructor
  · intro h
    generalize hds : ([] : List Deviation) = ds at h
    induction h with
    | @last k blanks text tail v hb ht =>
        obtain ⟨hfield, htail⟩ := List.append_eq_nil_iff.mp hds.symm
        obtain ⟨rfl, hrest⟩ := Kind.deviations_eq_nil_iff.mp hfield
        obtain rfl := ite_nil_iff.mp htail
        have hdoc := (Kind.documented_iff fun _ hc => by simp at hc).mpr ⟨ht, hfield⟩
        exact ⟨[text], by simp [commas], .cons hdoc .nil⟩
    | @more k blanks text gap rest v c ks vs ds hb ht hgap hc h ih =>
        obtain ⟨hfs, rfl⟩ := List.append_eq_nil_iff.mp hds.symm
        obtain ⟨hfield, hsep⟩ := List.append_eq_nil_iff.mp hfs
        obtain ⟨rfl, hrest⟩ := Kind.deviations_eq_nil_iff.mp hfield
        obtain ⟨rfl, rfl⟩ := separatorDeviations_eq_nil_iff.mp hsep
        obtain ⟨texts, rfl, hfields⟩ := ih h.ne_nil rfl
        have hdoc := (Kind.documented_iff (head?_comma _)).mpr ⟨ht, hfield⟩
        refine ⟨text :: texts, ?_, .cons hdoc hfields⟩
        rw [commas_cons (hfields.ne_nil h.ne_nil)]
        rfl
  · rintro ⟨texts, rfl, h⟩
    have hblank : Blank [] := fun _ hc => by simp at hc
    induction h with
    | nil => exact absurd rfl hks
    | @cons k text v ks texts vs h hs ih =>
        by_cases hnil : ks = []
        · subst hnil
          cases hs
          obtain ⟨ht, hdev⟩ := (@Kind.documented_iff k text [] v (by simp)).mp h
          have hread := Reads.last hblank ht
          rw [hdev] at hread
          simpa [commas] using hread
        · obtain ⟨ht, hdev⟩ := (Kind.documented_iff (head?_comma (commas texts))).mp h
          have hread := Reads.more hblank ht hblank (by decide) (ih hnil)
          rw [hdev, separatorDeviations_eq_nil_iff.mpr ⟨rfl, rfl⟩] at hread
          rw [commas_cons (hs.ne_nil hnil)]
          exact hread

/-- **The documented lines** are those with a reading without deviation. -/
theorem documented_iff {line : List Char} {e : Entry ℚ} :
    Documented line e ↔ ∃ t vs, Reading line t vs [] ∧ t.entry vs = some e := by
  constructor
  · rintro ⟨t, texts, vs, rfl, hfields, he⟩
    refine ⟨t, vs, ⟨commas texts, commas_cons (hfields.ne_nil (layout_ne_nil t)), ?_⟩, he⟩
    exact (reads_nil_iff (layout_ne_nil t)).mpr ⟨texts, rfl, hfields⟩
  · rintro ⟨t, vs, ⟨rest, rfl, h⟩, he⟩
    obtain ⟨texts, rfl, hfields⟩ := (reads_nil_iff (layout_ne_nil t)).mp h
    exact ⟨t, texts, vs, (commas_cons (hfields.ne_nil (layout_ne_nil t))).symm, hfields, he⟩

/-! ### The parser against the format -/

variable [LinearOrder P]

/-- On this line the parser keeps to the format: it acts if and only if the line is documented,
then with exactly the values of its fields, and leaves the replay as it is otherwise. -/
structure Exact (fmt : PriceFormat P) (line : List Char) : Prop where
  acts : (∃ e, entryOf fmt line = some e) ↔ ∃ e, Documented line e
  values : ∀ e, Documented line e →
    ∃ e', e.round fmt = some e' ∧ ∀ st, parseLine fmt st line = st.execute e'
  others : (¬ ∃ e, Documented line e) →
    ∀ st, ∃ ws, parseLine fmt st line = { st with warnings := ws }

/-- **When the parser keeps to the format**, for every line: exactly when a reading of it, if there
is one, has no deviation and a price in range, or has a deviation and a price out of range. -/
theorem exact_iff (fmt : PriceFormat P) (line : List Char) :
    Exact fmt line ↔ ∀ t vs ds e, Reading line t vs ds → t.entry vs = some e →
      (ds = [] ↔ (e.round fmt).isSome) := by
  constructor
  · intro h t vs ds e hread he
    constructor
    · rintro rfl
      obtain ⟨e', he', -⟩ := h.values e (documented_iff.mpr ⟨t, vs, hread, he⟩)
      rw [he']
      rfl
    · intro hsome
      obtain ⟨e', he'⟩ := Option.isSome_iff_exists.mp hsome
      obtain ⟨e₂, hdoc⟩ := h.acts.mp ⟨e', entryOf_eq_some_iff.mpr ⟨t, vs, ds, e, hread, he, he'⟩⟩
      obtain ⟨t₂, vs₂, hread₂, -⟩ := documented_iff.mp hdoc
      exact (hread.unique hread₂).2.2
  · intro h
    have hacts : (∃ e, entryOf fmt line = some e) → ∃ e, Documented line e := by
      rintro ⟨e, he⟩
      obtain ⟨t, vs, ds, e₀, hread, he₀, hround⟩ := entryOf_eq_some_iff.mp he
      obtain rfl := (h t vs ds e₀ hread he₀).mpr (by rw [hround]; rfl)
      exact ⟨e₀, documented_iff.mpr ⟨t, vs, hread, he₀⟩⟩
    have hvalues : ∀ e, Documented line e → ∃ e', e.round fmt = some e'
        ∧ entryOf fmt line = some e' := by
      intro e hdoc
      obtain ⟨t, vs, hread, he⟩ := documented_iff.mp hdoc
      obtain ⟨e', he'⟩ := Option.isSome_iff_exists.mp ((h t vs [] e hread he).mp rfl)
      exact ⟨e', he', entryOf_eq_some_iff.mpr ⟨t, vs, [], e, hread, he, he'⟩⟩
    refine ⟨⟨hacts, ?_⟩, ?_, ?_⟩
    · rintro ⟨e, hdoc⟩
      obtain ⟨e', -, he'⟩ := hvalues e hdoc
      exact ⟨e', he'⟩
    · intro e hdoc
      obtain ⟨e', he', hentry⟩ := hvalues e hdoc
      exact ⟨e', he', parseLine_of_entry hentry⟩
    · intro hnone
      refine parseLine_of_none (Option.eq_none_iff_forall_ne_some.mpr fun e he => ?_)
      exact hnone (hacts ⟨e, he⟩)

/-- A CANCEL line with a semicolon for its comma, a signed id and text behind it is executed. -/
theorem not_exact_cancel :
    let line := "CANCEL,0;-1 junk".toList
    entryOf wholeFormat line = some (.cancel 0xFFFFFFFFFFFFFFFF)
      ∧ (¬ ∃ e, Documented line e) ∧ ¬ Exact wholeFormat line := by
  intro line
  have hacts : entryOf wholeFormat line = some (.cancel 0xFFFFFFFFFFFFFFFF) := by decide +kernel
  have hblank : Blank [] := fun _ hc => by simp at hc
  have hseq : Kind.Spells .word ['0'] (.word 0) ([] ++ ';' :: "-1 junk".toList) :=
    ⟨false, 0, integerText_of_isDigit (by decide) (by simp) (ends_cons (by decide)), by decide,
      rfl⟩
  have hid : Kind.Spells .word ['-', '1'] (.word 0xFFFFFFFFFFFFFFFF) " junk".toList :=
    ⟨true, 1, ⟨⟨['-'], ['1'], rfl, .minus, by decide, by simp, by decide⟩,
      ends_cons (by decide)⟩, by decide, rfl⟩
  have hread : Reading line .cancel _ _ :=
    ⟨_, rfl, .more hblank hseq hblank (by decide) (.last hblank hid)⟩
  have hnone : ¬ ∃ e, Documented line e := by
    rintro ⟨e, hdoc⟩
    obtain ⟨t, vs, hread', -⟩ := documented_iff.mp hdoc
    exact absurd (hread'.unique hread).2.2 (by decide)
  exact ⟨hacts, hnone, fun h => hnone (h.acts.mp ⟨_, hacts⟩)⟩

end Leviathan
