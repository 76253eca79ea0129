import Mathlib.Tactic

/-!
Ranking a list by a key: best key first, items of one key in the order of the list.

* `rank` is the stable sort by the key, best first for the strict order `r`.
* `Ranked.ext`: a list that is sorted by key is determined by its parts of equal key, so that
  `rank l` is the one sorted list whose parts are those of `l` (`rank_eq`), and whatever keeps
  the keys commutes with ranking (`rank_filterMap`).
* `takeWhile_rank`: in front of an item stand those with a better key, and those of its own key
  that come before it in the list.
-/

namespace Ranking

variable {α K : Type*} (r : K → K → Prop) [DecidableRel r] [IsStrictTotalOrder K r] (key : α → K)

/-- No item stands behind one with a worse key. -/
def Ranked (l : List α) : Prop := l.Pairwise fun a b => ¬ r (key b) (key a)

/-- The stable sort by key, best first. -/
def rank (l : List α) : List α := l.insertionSort fun a b => ¬ r (key b) (key a)

variable {r key}

omit [IsStrictTotalOrder K r] in
lemma rank_perm (l : List α) : (rank r key l).Perm l := List.perm_insertionSort _ l

variable (r key) in
omit [IsStrictTotalOrder K r] in
@[simp] lemma mem_rank {l : List α} {a : α} : a ∈ rank r key l ↔ a ∈ l := (rank_perm l).mem_iff

lemma ranked_rank (l : List α) : Ranked r key (rank r key l) := by
  have htotal : Std.Total fun a b : α => ¬ r (key b) (key a) :=
    ⟨fun a b => or_iff_not_imp_left.mpr fun h => asymm_of r (not_not.mp h)⟩
  have htrans : IsTrans α fun a b => ¬ r (key b) (key a) := by
    refine ⟨fun a b c hba hcb hca => ?_⟩
    rcases trichotomous_of r (key a) (key b) with hab | hab | hab
    · exact hcb (trans_of r hca hab)
    · exact hcb (hab ▸ hca)
    · exact hba hab
  exact List.pairwise_insertionSort _ l

omit [DecidableRel r] in
/-- Two keys neither of which is better are equal. -/
lemma key_eq_of_not {a b : α} (hab : ¬ r (key a) (key b)) (hba : ¬ r (key b) (key a)) :
    key a = key b := by
  rcases trichotomous_of r (key a) (key b) with h | h | h
  · exact (hab h).elim
  · exact h
  · exact (hba h).elim

variable [DecidableEq K]

variable (r key) in
/-- Ranking keeps the items of one key in their order. -/
lemma filter_rank (l : List α) (k : K) :
    (rank r key l).filter (fun a => key a = k) = l.filter fun a => key a = k := by
  have hsorted : (l.filter fun a => key a = k).Pairwise fun a b => ¬ r (key b) (key a) := by
    refine List.pairwise_of_forall_mem_list fun a ha b hb => ?_
    have hka : key a = k := by simpa using (List.mem_filter.mp ha).2
    have hkb : key b = k := by simpa using (List.mem_filter.mp hb).2
    rw [hka, hkb]
    exact irrefl_of r k
  have hsub : (l.filter fun a => key a = k).Sublist (rank r key l) :=
    List.sublist_insertionSort hsorted List.filter_sublist
  have hlen : (l.filter fun a => key a = k).length
      = ((rank r key l).filter fun a => key a = k).length :=
    ((rank_perm l).filter _).length_eq.symm
  have hself := hsub.filter fun a => decide (key a = k)
  rw [List.filter_filter] at hself
  simp only [Bool.and_self] at hself
  exact (hself.eq_of_length hlen).symm

omit [DecidableRel r] in
/-- **A ranked list is determined by its parts of equal key.** -/
theorem Ranked.ext {l m : List α} (hl : Ranked r key l) (hm : Ranked r key m)
    (h : ∀ k, l.filter (fun a => key a = k) = m.filter fun a => key a = k) : l = m := by
  have hmem : ∀ a, a ∈ l ↔ a ∈ m := by
    intro a
    have hiff : a ∈ l.filter (fun x => key x = key a) ↔ a ∈ m.filter fun x => key x = key a := by
      rw [h]
    simpa using hiff
  induction l generalizing m with
  | nil =>
      cases m with
      | nil => rfl
      | cons b m => exact absurd ((hmem b).mpr List.mem_cons_self) List.not_mem_nil
  | cons a l ih =>
      cases m with
      | nil => exact absurd ((hmem a).mp List.mem_cons_self) List.not_mem_nil
      | cons b m =>
          obtain ⟨hal, hl'⟩ := List.pairwise_cons.mp hl
          obtain ⟨hbm, hm'⟩ := List.pairwise_cons.mp hm
          have hkey : key a = key b := by
            refine key_eq_of_not (r := r) ?_ ?_
            · rcases List.mem_cons.mp ((hmem a).mp List.mem_cons_self) with rfl | ha
              · exact irrefl_of r _
              · exact hbm a ha
            · rcases List.mem_cons.mp ((hmem b).mpr List.mem_cons_self) with rfl | hb
              · exact irrefl_of r _
              · exact hal b hb
          have hhead := h (key a)
          rw [List.filter_cons_of_pos (by simp), List.filter_cons_of_pos (by simp [hkey])] at hhead
          obtain ⟨rfl, htail⟩ := List.cons.inj hhead
          have hrest : ∀ k, l.filter (fun x => key x = k) = m.filter fun x => key x = k := by
            intro k
            have hk := h k
            simp only [List.filter_cons] at hk
            split_ifs at hk
            · exact (List.cons.inj hk).2
            · exact hk
          refine congrArg _ (ih hl' hm' hrest fun x => ?_)
          have hiff : x ∈ l.filter (fun y => key y = key x)
              ↔ x ∈ m.filter fun y => key y = key x := by
            rw [hrest]
          simpa using hiff

/-- **The one ranked list** with the parts of `l`. -/
theorem rank_eq {l m : List α} (hm : Ranked r key m)
    (h : ∀ k, m.filter (fun a => key a = k) = l.filter fun a => key a = k) :
    rank r key l = m :=
  (ranked_rank l).ext hm fun k => by rw [filter_rank, h]

omit [DecidableEq K] [DecidableRel r] [IsStrictTotalOrder K r] in
/-- What keeps the keys keeps a list ranked. -/
lemma Ranked.filterMap {l : List α} (h : Ranked r key l) {f : α → Option α}
    (hf : ∀ a b, f a = some b → key b = key a) : Ranked r key (l.filterMap f) := by
  refine List.Pairwise.filterMap f ?_ h
  intro a b hab a' ha' b' hb'
  rwa [hf a a' ha', hf b b' hb']

variable (key) in
omit [DecidableRel r] [IsStrictTotalOrder K r] in
/-- What keeps the keys goes through the parts of equal key. -/
lemma filter_filterMap {f : α → Option α} (hf : ∀ a b, f a = some b → key b = key a)
    (l : List α) (k : K) :
    (l.filterMap f).filter (fun a => key a = k) = (l.filter fun a => key a = k).filterMap f := by
  induction l with
  | nil => rfl
  | cons a l ih =>
      cases hfa : f a with
      | none =>
          rw [List.filterMap_cons_none hfa, ih]
          by_cases hk : key a = k
          · rw [List.filter_cons_of_pos (by simpa using hk), List.filterMap_cons_none hfa]
          · rw [List.filter_cons_of_neg (by simpa using hk)]
      | some b =>
          have hkey := hf a b hfa
          rw [List.filterMap_cons_some hfa]
          by_cases hk : key a = k
          · rw [List.filter_cons_of_pos (by simpa [hkey] using hk), ih,
              List.filter_cons_of_pos (by simpa using hk), List.filterMap_cons_some hfa]
          · rw [List.filter_cons_of_neg (by simpa [hkey] using hk), ih,
              List.filter_cons_of_neg (by simpa using hk)]

/-- Ranking commutes with what keeps the keys. -/
lemma rank_filterMap {f : α → Option α} (hf : ∀ a b, f a = some b → key b = key a)
    (l : List α) : rank r key (l.filterMap f) = (rank r key l).filterMap f := by
  refine rank_eq ((ranked_rank l).filterMap hf) fun k => ?_
  rw [filter_filterMap key hf, filter_filterMap key hf, filter_rank]

/-- Ranking commutes with a selection. -/
lemma rank_filter (c : α → Bool) (l : List α) :
    rank r key (l.filter c) = (rank r key l).filter c := by
  refine rank_eq ((ranked_rank l).filter c) fun k => ?_
  rw [List.filter_comm, filter_rank, List.filter_comm]

/-! ### What stands in front of an item -/

variable [DecidableEq α]

omit [DecidableEq K] in
/-- A list without repetition is split at an item in one way. -/
lemma takeWhile_ne {a : α} {l m : List α} (h : (l ++ a :: m).Nodup) :
    (l ++ a :: m).takeWhile (· ≠ a) = l := by
  have hl : ∀ x ∈ l, decide (x ≠ a) = true := by
    intro x hx
    rw [decide_eq_true_eq]
    rintro rfl
    exact (List.nodup_append.mp h).2.2 x hx x List.mem_cons_self rfl
  rw [List.takeWhile_append_of_pos hl, List.takeWhile_cons_of_neg (by simp), List.append_nil]

variable (r key) in
/-- **In front of an item** of a ranked list stand the items with a better key, and those of its
own key in front of it in the list. -/
theorem takeWhile_rank {l : List α} (hl : l.Nodup) {a : α} (ha : a ∈ l) :
    ((rank r key l).takeWhile (· ≠ a)).Perm
      (l.filter fun x => r (key x) (key a) ∨ key x = key a ∧ x ∈ l.takeWhile (· ≠ a)) := by
  have hrank : (rank r key l).Nodup := (rank_perm l).nodup_iff.mpr hl
  obtain ⟨pre, post, hsplit⟩ := List.append_of_mem ((mem_rank r key).mpr ha)
  obtain ⟨l₁, l₂, hlist⟩ := List.append_of_mem ha
  have hsorted : Ranked r key (pre ++ a :: post) := hsplit ▸ ranked_rank l
  obtain ⟨-, hcons, hpre⟩ := List.pairwise_append.mp hsorted
  have hpost := (List.pairwise_cons.mp hcons).1
  -- the items of the key of `a` are split at `a` as the list is
  have hkey : pre.filter (fun x => key x = key a) = l₁.filter fun x => key x = key a := by
    have hparts := filter_rank r key l (key a)
    have hnodup : (l.filter fun x => key x = key a).Nodup := hl.filter _
    rw [hsplit, hlist, List.filter_append, List.filter_append,
      List.filter_cons_of_pos (by simp), List.filter_cons_of_pos (by simp)] at hparts
    rw [hlist, List.filter_append, List.filter_cons_of_pos (by simp)] at hnodup
    have hnodup' := hnodup
    rw [← hparts] at hnodup'
    have htake := takeWhile_ne hnodup'
    rw [hparts, takeWhile_ne hnodup] at htake
    exact htake.symm
  have htake : l.takeWhile (· ≠ a) = l₁ := by rw [hlist, takeWhile_ne (hlist ▸ hl)]
  rw [hsplit, takeWhile_ne (hsplit ▸ hrank), htake]
  have hprenodup : pre.Nodup := (List.nodup_append.mp (hsplit ▸ hrank)).1
  refine (List.perm_ext_iff_of_nodup hprenodup (hl.filter _)).mpr fun x => ?_
  rw [List.mem_filter, decide_eq_true_eq]
  have hpart : key x = key a → (x ∈ pre ↔ x ∈ l₁) := by
    intro hx
    have hiff : x ∈ pre.filter (fun y => key y = key a) ↔ x ∈ l₁.filter fun y => key y = key a := by
      rw [hkey]
    simpa [hx] using hiff
  constructor
  · intro hx
    have hxl : x ∈ l := (mem_rank r key).mp (hsplit ▸ List.mem_append_left _ hx)
    refine ⟨hxl, ?_⟩
    rcases trichotomous_of r (key x) (key a) with hr | hr | hr
    · exact Or.inl hr
    · exact Or.inr ⟨hr, (hpart hr).mp hx⟩
    · exact absurd hr (hpre x hx a List.mem_cons_self)
  · rintro ⟨hxl, hr | ⟨hr, hx⟩⟩
    · have hx : x ∈ pre ++ a :: post := hsplit ▸ (mem_rank r key).mpr hxl
      rcases List.mem_append.mp hx with hx | hx
      · exact hx
      · rcases List.mem_cons.mp hx with rfl | hx
        · exact absurd hr (irrefl_of r _)
        · exact absurd hr (hpost x hx)
    · exact (hpart hr).mpr hx

end Ranking
