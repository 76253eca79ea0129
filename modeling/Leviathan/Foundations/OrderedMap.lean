import Mathlib.Tactic
import Mathlib.Order.RelClasses

/-!
Finite maps kept as association lists in the order of a comparator.

The comparator `r` is any decidable relation for the operations, and a strict total order
for what is proved about them; two keys are taken for the same when neither comes before
the other, as an ordered container of a programming language does.

* `find?`, `alter` and `erase` walk the list to the place of a key.  `alter k d f` is the
  access that inserts the default `d` under a new key and then writes `f` of what is there.
* `exists_place` is what they do for any relation, an order or not.
* A sorted list has exactly one place for a key: `exists_split` cuts it there, and the five
  lemmas `find?_split`, `alter_split`, `erase_split` (the key is present) and
  `find?_gap`, `alter_gap` (it is absent) compute the operations at the cut.
  Everything after them is read off the cut.
-/

namespace OrderedMap

variable {K V : Type*} (r : K → K → Prop) [DecidableRel r]

/-- The value under the key `k`. -/
def find? (k : K) : List (K × V) → Option V
  | [] => none
  | (a, v) :: m => if r a k then find? k m else if r k a then none else some v

/-- Write `f` of the value under `k`, first inserting `d` when `k` is new. -/
def alter (k : K) (d : V) (f : V → V) : List (K × V) → List (K × V)
  | [] => [(k, f d)]
  | (a, v) :: m =>
      if r a k then (a, v) :: alter k d f m
      else if r k a then (k, f d) :: (a, v) :: m
      else (a, f v) :: m

/-- Remove the key `k`. -/
def erase (k : K) : List (K × V) → List (K × V)
  | [] => []
  | (a, v) :: m => if r a k then (a, v) :: erase k m else if r k a then (a, v) :: m else m

section MapEntries

variable {K' W : Type*} (r' : K' → K' → Prop) [DecidableRel r'] (f : K → K') (g : V → W)

/-- The key `k` lies among the keys of the list as its image lies among theirs. -/
def Alike (k : K) (m : List (K × V)) : Prop :=
  ∀ a ∈ m, (r' (f a.1) (f k) ↔ r a.1 k) ∧ (r' (f k) (f a.1) ↔ r k a.1)

variable {r r' f} {k : K} {m : List (K × V)}

/-- The operations see of a list how its keys lie to `k`, so they commute with a change of keys
that keeps this and with any change of values. -/
lemma find?_mapEntries (h : Alike r r' f k m) :
    find? r' (f k) (m.map (Prod.map f g)) = (find? r k m).map g := by
  induction m with
  | nil => rfl
  | cons a m ih =>
      obtain ⟨ha, hm⟩ := List.forall_mem_cons.mp h
      simp only [List.map_cons, Prod.map, find?, ha.1, ha.2]
      split_ifs
      · exact ih hm
      · rfl
      · rfl

lemma alter_mapEntries {u : V → V} {u' : W → W} (hu : ∀ v, g (u v) = u' (g v)) (d : V)
    (h : Alike r r' f k m) :
    alter r' (f k) (g d) u' (m.map (Prod.map f g)) = (alter r k d u m).map (Prod.map f g) := by
  induction m with
  | nil => simp [alter, hu]
  | cons a m ih =>
      obtain ⟨ha, hm⟩ := List.forall_mem_cons.mp h
      have ih := ih hm
      simp only [List.map_cons, Prod.map, alter, ha.1, ha.2] at ih ⊢
      split_ifs
      · rw [List.map_cons, ih]
        rfl
      · simp [hu, Prod.map]
      · simp [hu]

lemma erase_mapEntries (h : Alike r r' f k m) :
    erase r' (f k) (m.map (Prod.map f g)) = (erase r k m).map (Prod.map f g) := by
  induction m with
  | nil => rfl
  | cons a m ih =>
      obtain ⟨ha, hm⟩ := List.forall_mem_cons.mp h
      have ih := ih hm
      simp only [List.map_cons, Prod.map, erase, ha.1, ha.2] at ih ⊢
      split_ifs
      · rw [List.map_cons, ih]
        rfl
      · rfl
      · rfl

omit [DecidableRel r] in
lemma alike_id (k : K) (m : List (K × V)) : Alike r r id k m := fun _ _ => ⟨Iff.rfl, Iff.rfl⟩

variable (r)

lemma find?_map (k : K) (m : List (K × V)) :
    find? r k (m.map (Prod.map id g)) = (find? r k m).map g := find?_mapEntries g (alike_id k m)

lemma alter_map {u : V → V} {u' : W → W} (hu : ∀ v, g (u v) = u' (g v)) (k : K) (d : V)
    (m : List (K × V)) :
    alter r k (g d) u' (m.map (Prod.map id g)) = (alter r k d u m).map (Prod.map id g) :=
  alter_mapEntries g hu d (alike_id k m)

lemma erase_map (k : K) (m : List (K × V)) :
    erase r k (m.map (Prod.map id g)) = (erase r k m).map (Prod.map id g) :=
  erase_mapEntries g (alike_id k m)

end MapEntries

/-- **The place a key leads to**, whatever the comparator: a gap, where the default goes in as a
new entry, or one entry, the only one that the operations touch. -/
lemma exists_place (k : K) (m : List (K × V)) :
    (∃ pre post, m = pre ++ post ∧ (∀ x ∈ pre, r x.1 k) ∧ (∀ x ∈ post.head?, r k x.1)
        ∧ find? r k m = none ∧ ∀ d f, alter r k d f m = pre ++ (k, f d) :: post)
      ∨ ∃ pre a v post, m = pre ++ (a, v) :: post ∧ ¬ r a k ∧ ¬ r k a
        ∧ find? r k m = some v ∧ erase r k m = pre ++ post
        ∧ ∀ d f, alter r k d f m = pre ++ (a, f v) :: post := by
  induction m with
  | nil => exact Or.inl ⟨[], [], rfl, by simp, by simp, rfl, fun d f => rfl⟩
  | cons x m ih =>
      obtain ⟨a, v⟩ := x
      by_cases hak : r a k
      · simp only [find?, alter, erase, if_pos hak]
        rcases ih with ⟨pre, post, rfl, hpre, hpost, hfind, halter⟩
          | ⟨pre, b, w, post, rfl, hbk, hkb, hfind, herase, halter⟩
        · refine Or.inl ⟨(a, v) :: pre, post, rfl, ?_, hpost, hfind, fun d f => ?_⟩
          · exact List.forall_mem_cons.mpr ⟨hak, hpre⟩
          · rw [halter, List.cons_append]
        · refine Or.inr ⟨(a, v) :: pre, b, w, post, rfl, hbk, hkb, hfind, ?_, fun d f => ?_⟩
          · rw [herase, List.cons_append]
          · rw [halter, List.cons_append]
      · by_cases hka : r k a
        · exact Or.inl ⟨[], (a, v) :: m, rfl, by simp, by simpa using hka,
            by simp [find?, hak, hka], fun d f => by simp [alter, hak, hka]⟩
        · exact Or.inr ⟨[], a, v, m, rfl, hak, hka, by simp [find?, hak, hka],
            by simp [erase, hak, hka], fun d f => by simp [alter, hak, hka]⟩

/-- The keys of the list come strictly one before the other. -/
def Sorted (m : List (K × V)) : Prop := m.Pairwise fun a b => r a.1 b.1

omit [DecidableRel r] in
@[simp] lemma sorted_nil : Sorted r ([] : List (K × V)) := List.Pairwise.nil

omit [DecidableRel r] in
lemma sorted_cons {a : K × V} {m : List (K × V)} :
    Sorted r (a :: m) ↔ (∀ b ∈ m, r a.1 b.1) ∧ Sorted r m := List.pairwise_cons

omit [DecidableRel r] in
lemma Sorted.of_keys {W : Type*} {m : List (K × V)} {m' : List (K × W)} (h : Sorted r m)
    (hkeys : (m'.map Prod.fst).Sublist (m.map Prod.fst)) : Sorted r m' := by
  have h1 : (m.map Prod.fst).Pairwise r := List.pairwise_map.mpr h
  exact List.pairwise_map.mp (h1.sublist hkeys)

/-- An entry put into a gap keeps the order of the list, when the comparator is transitive. -/
lemma Sorted.insert {r : K → K → Prop} (htrans : ∀ a b c, r a b → r b c → r a c) {k : K}
    {v : V} {pre post : List (K × V)} (h : Sorted r (pre ++ post)) (hpre : ∀ x ∈ pre, r x.1 k)
    (hpost : ∀ x ∈ post.head?, r k x.1) : Sorted r (pre ++ (k, v) :: post) := by
  obtain ⟨h₁, h₂, h₁₂⟩ := List.pairwise_append.mp h
  have hall : ∀ x ∈ post, r k x.1 := by
    cases post with
    | nil => simp
    | cons y post =>
        have hy : r k y.1 := hpost y rfl
        intro x hx
        rcases List.mem_cons.mp hx with rfl | hx
        · exact hy
        · exact htrans _ _ _ hy (List.rel_of_pairwise_cons h₂ hx)
  refine List.pairwise_append.mpr ⟨h₁, List.pairwise_cons.mpr ⟨hall, h₂⟩, fun x hx y hy => ?_⟩
  rcases List.mem_cons.mp hy with rfl | hy
  · exact hpre x hx
  · exact h₁₂ x hx y hy

/-- A test that holds of everything in front of what it holds of cuts a sorted list in two:
the first run of it is all of it. -/
lemma takeWhile_eq_filter {α : Type*} {c : α → Bool} {l : List α}
    (hl : l.Pairwise fun a b => c b = true → c a = true) :
    l.takeWhile c = l.filter c ∧ l.dropWhile c = l.filter fun a => !c a := by
  induction l with
  | nil => exact ⟨rfl, rfl⟩
  | cons a l ih =>
      obtain ⟨ha, hl⟩ := List.pairwise_cons.mp hl
      obtain ⟨ih1, ih2⟩ := ih hl
      cases hca : c a with
      | true => simp [hca, ih1, ih2]
      | false =>
          have hall : ∀ b ∈ l, c b = false := fun b hb => by
            cases hcb : c b with
            | false => rfl
            | true => exact absurd (ha b hb hcb) (by simp [hca])
          have h1 : l.filter c = [] := List.filter_eq_nil_iff.mpr (by simpa using hall)
          have h2 : l.filter (fun a => !c a) = l := List.filter_eq_self.mpr (by simpa using hall)
          simp [hca, h1, h2]

/-! ### The place of a key -/

/-- `pre` and `post` are what stands before and behind the place of `k`. -/
def Around (k : K) (pre post : List (K × V)) : Prop :=
  (∀ a ∈ pre, r a.1 k) ∧ ∀ a ∈ post, r k a.1

section Strict

variable [IsStrictTotalOrder K r] {r} {k : K} {pre post : List (K × V)}

lemma find?_split (h : Around r k pre post) (v : V) :
    find? r k (pre ++ (k, v) :: post) = some v := by
  obtain ⟨hpre, -⟩ := h
  induction pre with
  | nil => simp [find?, irrefl_of r k]
  | cons a pre ih =>
      rw [List.cons_append, find?, if_pos (hpre a List.mem_cons_self)]
      exact ih fun b hb => hpre b (List.mem_cons_of_mem a hb)

lemma find?_gap (h : Around r k pre post) : find? r k (pre ++ post) = none := by
  obtain ⟨hpre, hpost⟩ := h
  induction pre with
  | nil =>
      cases post with
      | nil => rfl
      | cons a post =>
          have ha := hpost a List.mem_cons_self
          rw [List.nil_append, find?, if_neg (asymm_of r ha), if_pos ha]
  | cons a pre ih =>
      rw [List.cons_append, find?, if_pos (hpre a List.mem_cons_self)]
      exact ih fun b hb => hpre b (List.mem_cons_of_mem a hb)

lemma alter_split (h : Around r k pre post) (v d : V) (f : V → V) :
    alter r k d f (pre ++ (k, v) :: post) = pre ++ (k, f v) :: post := by
  obtain ⟨hpre, -⟩ := h
  induction pre with
  | nil => simp [alter, irrefl_of r k]
  | cons a pre ih =>
      rw [List.cons_append, alter, if_pos (hpre a List.mem_cons_self),
        ih fun b hb => hpre b (List.mem_cons_of_mem a hb), List.cons_append]

lemma alter_gap (h : Around r k pre post) (d : V) (f : V → V) :
    alter r k d f (pre ++ post) = pre ++ (k, f d) :: post := by
  obtain ⟨hpre, hpost⟩ := h
  induction pre with
  | nil =>
      cases post with
      | nil => rfl
      | cons a post =>
          have ha := hpost a List.mem_cons_self
          rw [List.nil_append, alter, if_neg (asymm_of r ha), if_pos ha, List.nil_append]
  | cons a pre ih =>
      rw [List.cons_append, alter, if_pos (hpre a List.mem_cons_self),
        ih fun b hb => hpre b (List.mem_cons_of_mem a hb), List.cons_append]

lemma erase_split (h : Around r k pre post) (v : V) :
    erase r k (pre ++ (k, v) :: post) = pre ++ post := by
  obtain ⟨hpre, -⟩ := h
  induction pre with
  | nil => simp [erase, irrefl_of r k]
  | cons a pre ih =>
      rw [List.cons_append, erase, if_pos (hpre a List.mem_cons_self),
        ih fun b hb => hpre b (List.mem_cons_of_mem a hb), List.cons_append]

omit [DecidableRel r] in
/-- **The place of a key** in a sorted list: the list is cut there, with the key's own
entry in the middle when it is present. -/
lemma exists_split {m : List (K × V)} (h : Sorted r m) (k : K) :
    ∃ pre post, Around r k pre post
      ∧ (m = pre ++ post ∨ ∃ v, m = pre ++ (k, v) :: post) := by
  induction m with
  | nil => exact ⟨[], [], ⟨by simp, by simp⟩, Or.inl rfl⟩
  | cons a m ih =>
      obtain ⟨ha, hm⟩ := (sorted_cons r).mp h
      rcases trichotomous_of r a.1 k with hak | hak | hak
      · obtain ⟨pre, post, ⟨hpre, hpost⟩, hm'⟩ := ih hm
        refine ⟨a :: pre, post, ⟨?_, hpost⟩, ?_⟩
        · intro b hb
          rcases List.mem_cons.mp hb with rfl | hb
          · exact hak
          · exact hpre b hb
        · rcases hm' with rfl | ⟨v, rfl⟩
          · exact Or.inl rfl
          · exact Or.inr ⟨v, rfl⟩
      · subst hak
        exact ⟨[], m, ⟨by simp, ha⟩, Or.inr ⟨a.2, rfl⟩⟩
      · refine ⟨[], a :: m, ⟨by simp, ?_⟩, Or.inl rfl⟩
        intro b hb
        rcases List.mem_cons.mp hb with rfl | hb
        · exact hak
        · exact trans_of r hak (ha b hb)

/-! ### What follows from the cut -/

omit [DecidableRel r] in
lemma Around.sorted (h : Around r k pre post) (hpre : Sorted r pre) (hpost : Sorted r post)
    (v : V) : Sorted r (pre ++ (k, v) :: post) := by
  refine List.pairwise_append.mpr ⟨hpre, List.pairwise_cons.mpr ⟨h.2, hpost⟩, ?_⟩
  intro a ha b hb
  rcases List.mem_cons.mp hb with rfl | hb
  · exact h.1 a ha
  · exact trans_of r (h.1 a ha) (h.2 b hb)

/-- A sorted list holds at most one value under a key, the one `find?` returns. -/
lemma mem_iff_find? {m : List (K × V)} (h : Sorted r m) {k : K} {v : V} :
    (k, v) ∈ m ↔ find? r k m = some v := by
  have hne : ∀ {pre post : List (K × V)}, Around r k pre post →
      (k, v) ∉ pre ∧ (k, v) ∉ post := fun hk =>
    ⟨fun hm => irrefl_of r k (hk.1 _ hm), fun hm => irrefl_of r k (hk.2 _ hm)⟩
  obtain ⟨pre, post, hk, rfl | ⟨w, rfl⟩⟩ := exists_split h k
  · simp [find?_gap hk, hne hk]
  · simp [find?_split hk, hne hk, eq_comm]

/-- Two sorted lists with the same entries are equal. -/
lemma Sorted.ext {m m' : List (K × V)} (h : Sorted r m) (h' : Sorted r m')
    (hf : ∀ k, find? r k m = find? r k m') : m = m' := by
  have hmem : ∀ a, a ∈ m ↔ a ∈ m' := fun a => by
    rw [show a = (a.1, a.2) from rfl, mem_iff_find? h, mem_iff_find? h', hf]
  have nodup : ∀ {l : List (K × V)}, Sorted r l → l.Nodup := by
    intro l hl
    refine List.Pairwise.imp ?_ hl
    rintro a b hab rfl
    exact irrefl_of r a.1 hab
  have hperm : m.Perm m' := (List.perm_ext_iff_of_nodup (nodup h) (nodup h')).mpr hmem
  have hm : m.Pairwise fun a b => r a.1 b.1 := h
  have hm' : m'.Pairwise fun a b => r a.1 b.1 := h'
  exact hperm.eq_of_pairwise (fun a b _ _ hab hba => absurd hba (asymm_of r hab)) hm hm'

/-- The entry at the place of `k` is invisible under another key. -/
lemma find?_skip (h : Around r k pre post) (v : V) {j : K} (hj : j ≠ k) :
    find? r j (pre ++ (k, v) :: post) = find? r j (pre ++ post) := by
  obtain ⟨hpre, hpost⟩ := h
  induction pre with
  | nil =>
      rcases trichotomous_of r k j with hkj | hkj | hkj
      · rw [List.nil_append, find?, if_pos hkj, List.nil_append]
      · exact absurd hkj.symm hj
      · have hgap : Around r j [] post :=
          ⟨by simp, fun a ha => trans_of r hkj (hpost a ha)⟩
        rw [List.nil_append, find?, if_neg (asymm_of r hkj), if_pos hkj, find?_gap hgap]
  | cons a pre ih =>
      have ih := ih fun b hb => hpre b (List.mem_cons_of_mem a hb)
      simp only [List.cons_append, find?, ih]

lemma find?_alter_self {m : List (K × V)} (h : Sorted r m) (k : K) (d : V) (f : V → V) :
    find? r k (alter r k d f m) = some (f ((find? r k m).getD d)) := by
  obtain ⟨pre, post, hk, rfl | ⟨v, rfl⟩⟩ := exists_split h k
  · rw [alter_gap hk, find?_split hk, find?_gap hk, Option.getD_none]
  · rw [alter_split hk, find?_split hk, find?_split hk, Option.getD_some]

lemma find?_alter_of_ne {m : List (K × V)} (h : Sorted r m) {j k : K} (hj : j ≠ k) (d : V)
    (f : V → V) : find? r j (alter r k d f m) = find? r j m := by
  obtain ⟨pre, post, hk, rfl | ⟨v, rfl⟩⟩ := exists_split h k
  · rw [alter_gap hk, find?_skip hk _ hj]
  · rw [alter_split hk, find?_skip hk _ hj, find?_skip hk _ hj]

end Strict

end OrderedMap
