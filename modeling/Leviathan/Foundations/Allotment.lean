import Mathlib.Tactic

/-!
Greedy allotment of a demand along a queue.

A queue of items of sizes `size a` meets a demand `Q`, which is served from the front: an
item no larger than what is still asked for is used up, the first larger one is cut down
by `shrink`, and the items behind it are untouched.

* **The greedy recursion.** `allot` lists the items served with the amounts taken from
  them, `keep` is the queue left over and `spent` the number of items used up.  The three
  run until the demand is exactly zero, so items of size zero met before that are served
  with amount zero and used up.
* **The prefix-sum form.** `allot_getElem?` and `keep_sub` read the same results off the
  exact prefix sums of the sizes: the item at position `i` is served exactly when the sum
  before it is below `Q`, and it survives according to where `Q` falls among the sums.
  `keep_eq_filterMap` and `allot_eq_map` do so for each item by itself.
* **A demand in two parts.** `keep_keep`: serving `q` and then `r` is serving `q + r`, wherever
  among the items the first part ends.
* **The best choice.** `worth_allot_le`: from a queue in the order of a value, no way to take as
  much is worth less.
* **Groups.** `drain` serves a demand along a list of keyed queues and drops the queues it
  empties; `drain_cons_le` and `drain_cons_lt` are the two ways one step of a loop over the
  front item can advance it, and `drain_flatMap` says that it is `keep` on the flattened
  list.
-/

namespace Allotment

variable {α κ : Type*} (size : α → ℕ) (shrink : α → ℕ → α)

/-! ### The greedy recursion -/

/-- The exact sum of the sizes of a queue. -/
def total (l : List α) : ℕ := (l.map size).sum

/-- The items served by the demand `Q`, with the amount taken from each. -/
def allot : ℕ → List α → List (α × ℕ)
  | _, [] => []
  | Q, a :: l => if Q = 0 then [] else (a, min (size a) Q) :: allot (Q - size a) l

/-- The queue left over by the demand `Q`. -/
def keep : ℕ → List α → List α
  | _, [] => []
  | Q, a :: l =>
      if Q = 0 then a :: l
      else if size a ≤ Q then keep (Q - size a) l
      else shrink a (size a - Q) :: l

/-- The number of items the demand `Q` uses up. -/
def spent : ℕ → List α → ℕ
  | _, [] => 0
  | Q, a :: l =>
      if Q = 0 then 0 else if size a ≤ Q then spent (Q - size a) l + 1 else 0

@[simp] lemma total_nil : total size [] = 0 := rfl

@[simp] lemma total_cons (a : α) (l : List α) :
    total size (a :: l) = size a + total size l := by
  simp [total]

@[simp] lemma total_append (l m : List α) :
    total size (l ++ m) = total size l + total size m := by
  simp [total]

@[simp] lemma allot_nil (Q : ℕ) : allot size Q [] = [] := by rw [allot]

@[simp] lemma allot_zero (l : List α) : allot size 0 l = [] := by
  cases l <;> simp [allot]

@[simp] lemma keep_nil (Q : ℕ) : keep size shrink Q [] = [] := by rw [keep]

@[simp] lemma keep_zero (l : List α) : keep size shrink 0 l = l := by
  cases l <;> simp [keep]

@[simp] lemma spent_nil (Q : ℕ) : spent size Q [] = 0 := by rw [spent]

@[simp] lemma spent_zero (l : List α) : spent size 0 l = 0 := by
  cases l <;> simp [spent]

lemma total_take_le (l : List α) (i : ℕ) : total size (l.take i) ≤ total size l := by
  have h : total size (l.take i) + total size (l.drop i) = total size l := by
    rw [← total_append, List.take_append_drop]
  omega

/-! ### Appending queues -/

lemma keep_append (Q : ℕ) (l m : List α) :
    keep size shrink Q (l ++ m)
      = keep size shrink Q l ++ keep size shrink (Q - total size l) m := by
  induction l generalizing Q with
  | nil => simp
  | cons a l ih =>
      by_cases hQ : Q = 0
      · simp [hQ]
      by_cases ha : size a ≤ Q
      · simp only [List.cons_append, keep, if_neg hQ, if_pos ha, ih, total_cons, Nat.sub_sub]
      · have h0 : Q - total size (a :: l) = 0 := by rw [total_cons]; omega
        simp only [h0, List.cons_append, keep, if_neg hQ, if_neg ha, keep_zero]

lemma allot_append (Q : ℕ) (l m : List α) :
    allot size Q (l ++ m) = allot size Q l ++ allot size (Q - total size l) m := by
  induction l generalizing Q with
  | nil => simp
  | cons a l ih =>
      by_cases hQ : Q = 0
      · simp [hQ]
      · simp only [List.cons_append, allot, if_neg hQ, ih, total_cons, Nat.sub_sub]

lemma spent_append (Q : ℕ) (l m : List α) :
    spent size Q (l ++ m) = spent size Q l + spent size (Q - total size l) m := by
  induction l generalizing Q with
  | nil => simp
  | cons a l ih =>
      by_cases hQ : Q = 0
      · simp [hQ]
      by_cases ha : size a ≤ Q
      · simp only [List.cons_append, spent, if_neg hQ, if_pos ha, ih, total_cons, Nat.sub_sub]
        omega
      · have h0 : Q - total size (a :: l) = 0 := by rw [total_cons]; omega
        simp only [h0, List.cons_append, spent, if_neg hQ, if_neg ha, spent_zero]

section Covered

variable {Q : ℕ} {l : List α} (h : Q ≤ total size l) (m : List α)

include h

/-- A demand that the front of a queue covers leaves the rest as it is. -/
lemma keep_append_of_le : keep size shrink Q (l ++ m) = keep size shrink Q l ++ m := by
  rw [keep_append, Nat.sub_eq_zero_of_le h, keep_zero]

lemma allot_append_of_le : allot size Q (l ++ m) = allot size Q l := by
  rw [allot_append, Nat.sub_eq_zero_of_le h, allot_zero, List.append_nil]

lemma spent_append_of_le : spent size Q (l ++ m) = spent size Q l := by
  rw [spent_append, Nat.sub_eq_zero_of_le h, spent_zero, Nat.add_zero]

end Covered

lemma spent_le_length (Q : ℕ) (l : List α) : spent size Q l ≤ l.length := by
  induction l generalizing Q with
  | nil => simp
  | cons a l ih =>
      rw [spent, List.length_cons]
      split_ifs
      · omega
      · exact Nat.succ_le_succ (ih _)
      · omega

/-! ### What is served -/

/-- An item is served at most once. -/
lemma length_allot_le (Q : ℕ) (l : List α) : (allot size Q l).length ≤ l.length := by
  induction l generalizing Q with
  | nil => simp
  | cons a l ih =>
      rw [allot]
      split_ifs
      · exact Nat.zero_le _
      · exact Nat.succ_le_succ (ih _)

/-- The amounts served add up to the demand, or to the whole queue when it falls short. -/
lemma sum_allot (Q : ℕ) (l : List α) :
    ((allot size Q l).map Prod.snd).sum = min Q (total size l) := by
  induction l generalizing Q with
  | nil => simp
  | cons a l ih =>
      by_cases hQ : Q = 0
      · simp [hQ]
      · simp only [allot, if_neg hQ, List.map_cons, List.sum_cons, ih, total_cons]
        omega

/-- **The prefix-sum form of the fills**: the item at position `i` is served exactly when
the sum `S` of the sizes before it is below the demand, with amount `min (size a) (Q - S)`. -/
theorem allot_getElem? (Q : ℕ) (l : List α) (i : ℕ) :
    (allot size Q l)[i]? = l[i]?.bind fun a =>
      if total size (l.take i) < Q then
        some (a, min (size a) (Q - total size (l.take i))) else none := by
  induction l generalizing Q i with
  | nil => simp
  | cons a l ih =>
      by_cases hQ : Q = 0
      · simp [hQ]
      · cases i with
        | zero => simp [allot, hQ, Nat.pos_of_ne_zero hQ]
        | succ i =>
            rw [allot, if_neg hQ, List.getElem?_cons_succ, ih, List.getElem?_cons_succ,
              List.take_succ_cons, total_cons]
            congr 1
            funext b
            by_cases hlt : size a + total size (l.take i) < Q
            · rw [if_pos hlt, if_pos (by omega), Nat.sub_sub]
            · rw [if_neg hlt, if_neg (by omega)]

lemma mem_of_mem_allot {Q : ℕ} {l : List α} {p : α × ℕ} (hp : p ∈ allot size Q l) :
    p.1 ∈ l := by
  induction l generalizing Q with
  | nil => simp at hp
  | cons a l ih =>
      by_cases hQ : Q = 0
      · simp [hQ] at hp
      · rw [allot, if_neg hQ, List.mem_cons] at hp
        rcases hp with rfl | hp
        · exact List.mem_cons_self
        · exact List.mem_cons_of_mem a (ih hp)

/-- A demand that the items in front do not cover comes to the item. -/
lemma mem_allot_of_lt {Q : ℕ} {l : List α} (h : total size l < Q) (a : α) (m : List α) :
    (a, min (size a) (Q - total size l)) ∈ allot size Q (l ++ a :: m) := by
  have hQ : Q - total size l ≠ 0 := by omega
  rw [allot_append, allot, if_neg hQ]
  exact List.mem_append_right _ List.mem_cons_self

/-- No item gives more than its size. -/
lemma snd_le_of_mem_allot {Q : ℕ} {l : List α} {p : α × ℕ} (hp : p ∈ allot size Q l) :
    p.2 ≤ size p.1 := by
  induction l generalizing Q with
  | nil => simp at hp
  | cons a l ih =>
      by_cases hQ : Q = 0
      · simp [hQ] at hp
      · rw [allot, if_neg hQ, List.mem_cons] at hp
        rcases hp with rfl | hp
        · exact min_le_left _ _
        · exact ih hp

/-- Items of some size give some of it. -/
lemma snd_pos_of_mem_allot {Q : ℕ} {l : List α} (h : ∀ a ∈ l, 0 < size a) {p : α × ℕ}
    (hp : p ∈ allot size Q l) : 0 < p.2 := by
  induction l generalizing Q with
  | nil => simp at hp
  | cons a l ih =>
      obtain ⟨ha, hl⟩ := List.forall_mem_cons.mp h
      by_cases hQ : Q = 0
      · simp [hQ] at hp
      · rw [allot, if_neg hQ, List.mem_cons] at hp
        rcases hp with rfl | hp
        · exact Nat.lt_min.mpr ⟨ha, Nat.pos_of_ne_zero hQ⟩
        · exact ih hl hp

/-- Items in front of one that is served are served in full. -/
lemma exists_of_allot_eq_append {Q : ℕ} {l : List α} {fs fs' : List (α × ℕ)} {f : α × ℕ}
    (h : allot size Q l = fs ++ f :: fs') :
    ∃ pre post, l = pre ++ f.1 :: post ∧ fs = pre.map fun a => (a, size a) := by
  induction l generalizing Q fs with
  | nil => simp at h
  | cons a l ih =>
      by_cases hQ : Q = 0
      · simp [hQ] at h
      rw [allot, if_neg hQ] at h
      cases fs with
      | nil =>
          obtain ⟨rfl, -⟩ := List.cons.inj h
          exact ⟨[], l, rfl, rfl⟩
      | cons g fs =>
          obtain ⟨rfl, hrest⟩ := List.cons.inj h
          obtain ⟨pre, post, rfl, rfl⟩ := ih hrest
          have hlt : size a < Q := by
            by_contra hle
            rw [Nat.sub_eq_zero_of_le (not_lt.mp hle), allot_zero] at hrest
            simp at hrest
          exact ⟨a :: pre, post, rfl, by rw [min_eq_left hlt.le, List.map_cons]⟩

/-- A demand the queue covers uses up every item before the last one it reaches. -/
lemma spent_of_total_le {Q : ℕ} {l : List α} (hQ : 0 < Q) (h : total size l < Q) :
    spent size Q l = l.length ∧ keep size shrink Q l = [] := by
  induction l generalizing Q with
  | nil => simp
  | cons a l ih =>
      rw [total_cons] at h
      obtain ⟨h1, h2⟩ := ih (Q := Q - size a) (by omega) (by omega)
      have hQ0 : Q ≠ 0 := by omega
      have ha : size a ≤ Q := by omega
      simp only [spent, keep, if_neg hQ0, if_pos ha, h1, h2, List.length_cons, and_self]

/-! ### What is left -/

/-- An item whose predecessors sum to `S`, after the demand `Q`: untouched beyond the
demand, gone below it, cut down where the demand ends inside it. -/
def survivor (Q S : ℕ) (a : α) : Option α :=
  if Q ≤ S then some a
  else if S + size a ≤ Q then none
  else some (shrink a (S + size a - Q))

/-- The survivors of a queue in front of which items of total size `S` stand. -/
def survivors (Q : ℕ) : ℕ → List α → List α
  | _, [] => []
  | S, a :: l => (survivor size shrink Q S a).toList ++ survivors Q (S + size a) l

lemma survivors_of_le {Q S : ℕ} (h : Q ≤ S) (l : List α) :
    survivors size shrink Q S l = l := by
  induction l generalizing S with
  | nil => rfl
  | cons a l ih => simp [survivors, survivor, h, ih (Nat.le_add_right_of_le h)]

/-- **The prefix-sum form of the queue left over.** -/
theorem keep_sub (Q S : ℕ) (l : List α) :
    keep size shrink (Q - S) l = survivors size shrink Q S l := by
  induction l generalizing S with
  | nil => simp [survivors]
  | cons a l ih =>
      by_cases hS : Q ≤ S
      · rw [survivors_of_le size shrink hS, Nat.sub_eq_zero_of_le hS, keep_zero]
      · have hQ : Q - S ≠ 0 := by omega
        by_cases ha : S + size a ≤ Q
        · rw [keep, if_neg hQ, if_pos (by omega), survivors, survivor, if_neg hS, if_pos ha,
            Nat.sub_sub, ih]
          rfl
        · rw [keep, if_neg hQ, if_neg (by omega), survivors, survivor, if_neg hS, if_neg ha,
            survivors_of_le size shrink (by omega), show size a - (Q - S) = S + size a - Q by omega]
          rfl

/-- Every item served but the last is used up, so served and left are at most one more. -/
lemma length_allot_add_keep_le (Q : ℕ) (l : List α) :
    (allot size Q l).length + (keep size shrink Q l).length ≤ l.length + 1 := by
  induction l generalizing Q with
  | nil => simp
  | cons a l ih =>
      by_cases hQ : Q = 0
      · simp [hQ]
      have hserved : (allot size Q (a :: l)).length = (allot size (Q - size a) l).length + 1 := by
        rw [allot, if_neg hQ, List.length_cons]
      by_cases ha : size a ≤ Q
      · have := ih (Q - size a)
        rw [hserved, keep, if_neg hQ, if_pos ha, List.length_cons]
        omega
      · have hnone : Q - size a = 0 := by omega
        rw [hserved, keep, if_neg hQ, if_neg ha, hnone, allot_zero]
        simp only [List.length_nil, List.length_cons]
        omega

section Ahead

variable (ahead : α → ℕ) {Q S : ℕ} {l : List α}

/-- **Each item by itself**: where `ahead` is the total in front of every item, the items left are
read off one at a time. -/
lemma keep_eq_filterMap
    (h : ∀ pre a post, l = pre ++ a :: post → ahead a = S + total size pre) :
    keep size shrink (Q - S) l = l.filterMap fun a => survivor size shrink Q (ahead a) a := by
  rw [keep_sub]
  induction l generalizing S with
  | nil => rfl
  | cons a l ih =>
      have ha : ahead a = S := by simpa using h [] a l rfl
      have hrest := ih (S := S + size a) fun pre b post hl => by
        rw [h (a :: pre) b post (by rw [hl]; rfl), total_cons, Nat.add_assoc]
      rw [survivors, hrest, List.filterMap_cons, ha]
      cases survivor size shrink Q S a <;> rfl

/-- So are the items served and the amounts. -/
lemma allot_eq_map
    (h : ∀ pre a post, l = pre ++ a :: post → ahead a = S + total size pre) :
    allot size (Q - S) l
      = (l.filter fun a => ahead a < Q).map fun a => (a, min (size a) (Q - ahead a)) := by
  induction l generalizing S with
  | nil => rfl
  | cons a l ih =>
      have ha : ahead a = S := by simpa using h [] a l rfl
      have hrest := ih (S := S + size a) fun pre b post hl => by
        rw [h (a :: pre) b post (by rw [hl]; rfl), total_cons, Nat.add_assoc]
      by_cases hQ : Q - S = 0
      · have hnone : (a :: l).filter (fun a => ahead a < Q) = [] := by
          refine List.filter_eq_nil_iff.mpr fun b hb => ?_
          obtain ⟨pre, post, hl⟩ := List.append_of_mem hb
          have hb := h pre b post hl
          simp only [decide_eq_true_eq]
          omega
        rw [allot, if_pos hQ, hnone, List.map_nil]
      · have hlt : ahead a < Q := by omega
        rw [allot, if_neg hQ, Nat.sub_sub, hrest, List.filter_cons_of_pos (by simpa using hlt),
          List.map_cons, ha]

end Ahead

section Shrink

variable (hsize : ∀ a n, n ≤ size a → size (shrink a n) = n)

include hsize in
/-- **Conservation**, for the items of one kind alone: what is left of them and what was taken
from them is what was there. -/
lemma total_keep_allot (c : α → Bool) (hc : ∀ a n, c (shrink a n) = c a) (Q : ℕ) (l : List α) :
    total (fun a => if c a then size a else 0) (keep size shrink Q l)
        + ((allot size Q l).map fun f => if c f.1 then f.2 else 0).sum
      = total (fun a => if c a then size a else 0) l := by
  induction l generalizing Q with
  | nil => simp
  | cons a l ih =>
      by_cases hQ : Q = 0
      · simp [hQ]
      have hrest := ih (Q - size a)
      rw [keep, allot, if_neg hQ, if_neg hQ, List.map_cons, List.sum_cons, total_cons]
      by_cases ha : size a ≤ Q
      · rw [if_pos ha, Nat.min_eq_left ha]
        show _ + ((if c a then size a else 0) + _) = _
        omega
      · have hQa : Q - size a = 0 := by omega
        rw [hQa, keep_zero, allot_zero] at hrest
        rw [if_neg ha, hQa, allot_zero, total_cons, hc, hsize a _ (Nat.sub_le _ _),
          Nat.min_eq_right (by omega)]
        split_ifs
        · simp
          omega
        · simp

include hsize in
/-- What is left is what the demand does not come to. -/
lemma total_keep (Q : ℕ) (l : List α) :
    total size (keep size shrink Q l) = total size l - Q := by
  have hcons := total_keep_allot size shrink hsize (fun _ => true) (fun _ _ => rfl) Q l
  have hsum : ((allot size Q l).map fun f => f.2).sum = min Q (total size l) := sum_allot size Q l
  simp only [if_true] at hcons
  change total size (keep size shrink Q l) + _ = total size l at hcons
  omega

include hsize in
/-- What is left is at most what was there. -/
lemma total_keep_le (Q : ℕ) (l : List α) : total size (keep size shrink Q l) ≤ total size l := by
  rw [total_keep size shrink hsize]
  exact Nat.sub_le _ _

include hsize in
/-- What is left of items of some size has some size. -/
lemma size_pos_of_mem_keep {Q : ℕ} {l : List α} (h : ∀ a ∈ l, 0 < size a) {b : α}
    (hb : b ∈ keep size shrink Q l) : 0 < size b := by
  induction l generalizing Q with
  | nil => simp at hb
  | cons a l ih =>
      obtain ⟨ha, hl⟩ := List.forall_mem_cons.mp h
      by_cases hQ : Q = 0
      · rw [hQ, keep_zero] at hb
        exact h b hb
      by_cases haQ : size a ≤ Q
      · rw [keep, if_neg hQ, if_pos haQ] at hb
        exact ih hl hb
      · rw [keep, if_neg hQ, if_neg haQ, List.mem_cons] at hb
        rcases hb with rfl | hb
        · rw [hsize a _ (Nat.sub_le _ _)]
          omega
        · exact hl b hb

end Shrink

/-! ### A demand in two parts -/

section Parts

variable (hsize : ∀ a n, n ≤ size a → size (shrink a n) = n)
  (hshrink : ∀ a m n, shrink (shrink a m) n = shrink a n)

include hsize hshrink

/-- **Stopping and resuming**: the demand `q` and then the demand `r` leave what the demand
`q + r` leaves, wherever the first one ends. -/
theorem keep_keep (q r : ℕ) (l : List α) :
    keep size shrink r (keep size shrink q l) = keep size shrink (q + r) l := by
  induction l generalizing q with
  | nil => simp
  | cons a l ih =>
      by_cases hq : q = 0
      · simp [hq]
      have hqr : q + r ≠ 0 := by omega
      by_cases ha : size a ≤ q
      · rw [keep, if_neg hq, if_pos ha, ih, keep, if_neg hqr, if_pos (by omega),
          Nat.sub_add_comm ha]
      · rw [keep, if_neg hq, if_neg ha, keep, keep, if_neg hqr, hsize a _ (Nat.sub_le _ _)]
        by_cases hr : r = 0
        · rw [if_pos hr, if_neg (by omega), hr, Nat.add_zero]
        · rw [if_neg hr, hshrink, Nat.sub_sub]
          by_cases har : size a ≤ q + r
          · rw [if_pos (by omega), if_pos har, show r - (size a - q) = q + r - size a by omega]
          · rw [if_neg (by omega), if_neg har]

omit hshrink in
lemma spent_keep (q r : ℕ) (l : List α) :
    spent size q l + spent size r (keep size shrink q l) = spent size (q + r) l := by
  induction l generalizing q with
  | nil => simp
  | cons a l ih =>
      by_cases hq : q = 0
      · simp [hq]
      have hqr : q + r ≠ 0 := by omega
      by_cases ha : size a ≤ q
      · have hrest := ih (q - size a)
        rw [← Nat.sub_add_comm ha] at hrest
        rw [spent, if_neg hq, if_pos ha, keep, if_neg hq, if_pos ha, spent, if_neg hqr,
          if_pos (by omega)]
        omega
      · rw [spent, if_neg hq, if_neg ha, keep, if_neg hq, if_neg ha, spent, spent, if_neg hqr,
          hsize a _ (Nat.sub_le _ _)]
        by_cases hr : r = 0
        · rw [if_pos hr, if_neg (by omega)]
        · rw [if_neg hr]
          by_cases har : size a ≤ q + r
          · rw [if_pos (by omega), if_pos har, show r - (size a - q) = q + r - size a by omega]
            omega
          · rw [if_neg (by omega), if_neg har]

/-- The items of one kind give to the two parts together what they give to the whole. -/
lemma sum_allot_keep (c : α → Bool) (hc : ∀ a n, c (shrink a n) = c a) (q r : ℕ) (l : List α) :
    ((allot size q l).map fun f => if c f.1 then f.2 else 0).sum
        + ((allot size r (keep size shrink q l)).map fun f => if c f.1 then f.2 else 0).sum
      = ((allot size (q + r) l).map fun f => if c f.1 then f.2 else 0).sum := by
  have hfirst := total_keep_allot size shrink hsize c hc q l
  have hsecond := total_keep_allot size shrink hsize c hc r (keep size shrink q l)
  have hwhole := total_keep_allot size shrink hsize c hc (q + r) l
  rw [keep_keep size shrink hsize hshrink] at hsecond
  omega

end Parts

/-- `shrink` changes nothing a key can see, so the keys left over are those of the items
behind the ones used up. -/
lemma map_keep {β : Type*} (key : α → β) (hkey : ∀ a n, key (shrink a n) = key a)
    (Q : ℕ) (l : List α) :
    (keep size shrink Q l).map key = (l.drop (spent size Q l)).map key := by
  induction l generalizing Q with
  | nil => simp
  | cons a l ih =>
      by_cases hQ : Q = 0
      · simp [hQ]
      by_cases ha : size a ≤ Q
      · rw [keep, if_neg hQ, if_pos ha, spent, if_neg hQ, if_pos ha, List.drop_succ_cons, ih]
      · simp [keep, spent, hQ, ha, hkey]

/-- Every item left over is an item of the queue or one cut down. -/
lemma mem_keep {Q : ℕ} {l : List α} {b : α} (hb : b ∈ keep size shrink Q l) :
    b ∈ l ∨ ∃ a ∈ l, ∃ n, b = shrink a n := by
  induction l generalizing Q with
  | nil => simp at hb
  | cons a l ih =>
      by_cases hQ : Q = 0
      · rw [hQ, keep_zero] at hb
        exact Or.inl hb
      by_cases ha : size a ≤ Q
      · rw [keep, if_neg hQ, if_pos ha] at hb
        rcases ih hb with h | ⟨c, hc, n, rfl⟩
        · exact Or.inl (List.mem_cons_of_mem a h)
        · exact Or.inr ⟨c, List.mem_cons_of_mem a hc, n, rfl⟩
      · rw [keep, if_neg hQ, if_neg ha, List.mem_cons] at hb
        rcases hb with rfl | hb
        · exact Or.inr ⟨a, List.mem_cons_self, _, rfl⟩
        · exact Or.inl (List.mem_cons_of_mem a hb)

/-! ### The greedy choice is the best one -/

section Best

variable {M : Type*} [AddCommMonoid M] (v : α → M)

/-- What amounts of items are worth, at a value for a unit of each. -/
def worth (ps : List (α × ℕ)) : M := (ps.map fun p => p.2 • v p.1).sum

@[simp] lemma worth_nil : worth v [] = 0 := rfl

@[simp] lemma worth_cons (p : α × ℕ) (ps : List (α × ℕ)) :
    worth v (p :: ps) = p.2 • v p.1 + worth v ps := by
  simp [worth]

lemma worth_allot_cons (Q : ℕ) (a : α) (l : List α) :
    worth v (allot size Q (a :: l))
      = min (size a) Q • v a + worth v (allot size (Q - size a) l) := by
  by_cases hQ : Q = 0
  · simp [hQ]
  · rw [allot, if_neg hQ, worth_cons]

variable [PartialOrder M] [IsOrderedAddMonoid M]

/-- Amounts that add up to `d` more than the demand is served are worth as much as the greedy ones
and `d` units below every item. -/
lemma add_worth_allot_le {l : List α} {ns : List ℕ}
    (hns : List.Forall₂ (fun a n => n ≤ size a) l ns)
    (hl : l.Pairwise fun a b => v a ≤ v b) {Q d : ℕ} {w : M} (hw : ∀ a ∈ l, w ≤ v a)
    (hsum : ns.sum = d + min Q (total size l)) :
    d • w + worth v (allot size Q l) ≤ worth v (l.zip ns) := by
  induction hns generalizing Q d w with
  | nil =>
      obtain rfl : d = 0 := by simpa using hsum.symm
      simp
  | @cons a n l ns hn _ ih =>
      obtain ⟨ha, hl⟩ := List.pairwise_cons.mp hl
      rw [List.sum_cons, total_cons] at hsum
      -- what is not taken from the first item is taken behind it
      have hle : n ≤ d + min (size a) Q := by omega
      have ih := ih hl ha (Q := Q - size a) (d := d + min (size a) Q - n) (by omega)
      rw [worth_allot_cons, List.zip_cons_cons, worth_cons]
      calc d • w + (min (size a) Q • v a + worth v (allot size (Q - size a) l))
          ≤ d • v a + (min (size a) Q • v a + worth v (allot size (Q - size a) l)) := by
            gcongr
            exact hw a List.mem_cons_self
        _ = n • v a
              + ((d + min (size a) Q - n) • v a + worth v (allot size (Q - size a) l)) := by
            rw [← add_assoc, ← add_assoc, ← add_nsmul, ← add_nsmul, Nat.add_sub_cancel' hle]
        _ ≤ n • v a + worth v (l.zip ns) := by gcongr

/-- **The greedy choice is the best one.**  From a queue in the order of a value, no way to take as
much is worth less. -/
theorem worth_allot_le {l : List α} {ns : List ℕ} (hns : List.Forall₂ (fun a n => n ≤ size a) l ns)
    (hl : l.Pairwise fun a b => v a ≤ v b) {Q : ℕ} (hsum : ns.sum = min Q (total size l)) :
    worth v (allot size Q l) ≤ worth v (l.zip ns) := by
  cases l with
  | nil => cases hns; simp
  | cons a l =>
      have h := add_worth_allot_le size v hns hl (Q := Q) (d := 0) (w := v a) ?_ (by omega)
      · simpa using h
      · exact List.forall_mem_cons.mpr ⟨le_rfl, (List.pairwise_cons.mp hl).1⟩

/-- No amounts add up to more than the items hold. -/
lemma sum_le_total {l : List α} {ns : List ℕ} (hns : List.Forall₂ (fun a n => n ≤ size a) l ns) :
    ns.sum ≤ total size l := by
  induction hns with
  | nil => exact le_rfl
  | cons hn _ ih =>
      rw [List.sum_cons, total_cons]
      omega

end Best

/-! ### Items of another kind

`g` keeps the sizes and commutes with the cutting, so the recursion does not see it. -/

section Map

variable {β : Type*} {size' : β → ℕ} {shrink' : β → ℕ → β} (g : α → β)
  (hsize : ∀ a, size' (g a) = size a) (hshrink : ∀ a n, g (shrink a n) = shrink' (g a) n)

include hsize

lemma total_map (l : List α) : total size' (l.map g) = total size l := by
  rw [total, total, List.map_map]
  exact congrArg List.sum (List.map_congr_left fun a _ => hsize a)

lemma allot_map (Q : ℕ) (l : List α) :
    allot size' Q (l.map g) = (allot size Q l).map (Prod.map g id) := by
  induction l generalizing Q with
  | nil => simp
  | cons a l ih =>
      by_cases hQ : Q = 0
      · simp [hQ]
      · simp only [List.map_cons, allot, if_neg hQ, hsize, ih]
        rfl

lemma spent_map (Q : ℕ) (l : List α) : spent size' Q (l.map g) = spent size Q l := by
  induction l generalizing Q with
  | nil => simp
  | cons a l ih => simp only [List.map_cons, spent, hsize, ih]

include hshrink

lemma keep_map (Q : ℕ) (l : List α) :
    keep size' shrink' Q (l.map g) = (keep size shrink Q l).map g := by
  induction l generalizing Q with
  | nil => simp
  | cons a l ih =>
      simp only [List.map_cons, keep, hsize, ih]
      split_ifs
      · rfl
      · rfl
      · rw [List.map_cons, hshrink]

end Map

/-! ### Groups -/

/-- A demand served along a list of keyed queues, the emptied ones dropped. -/
def drain : ℕ → List (κ × List α) → List (κ × List α)
  | _, [] => []
  | Q, (k, l) :: gs =>
      match keep size shrink Q l with
      | [] => drain (Q - total size l) gs
      | a :: l' => (k, a :: l') :: drain (Q - total size l) gs

/-- Nothing is left empty. -/
lemma drain_ne_nil {Q : ℕ} {gs : List (κ × List α)} {g : κ × List α}
    (hg : g ∈ drain size shrink Q gs) : g.2 ≠ [] := by
  induction gs generalizing Q with
  | nil => simp [drain] at hg
  | cons g' gs ih =>
      obtain ⟨k, l⟩ := g'
      rw [drain] at hg
      split at hg
      · exact ih hg
      · rcases List.mem_cons.mp hg with rfl | hg
        · simp
        · exact ih hg

/-- A group left over is one of the groups served, with what was kept of its queue. -/
lemma exists_keep_of_mem_drain {Q : ℕ} {gs : List (κ × List α)} {g : κ × List α}
    (hg : g ∈ drain size shrink Q gs) :
    ∃ l R, (g.1, l) ∈ gs ∧ g.2 = keep size shrink R l := by
  induction gs generalizing Q with
  | nil => simp [drain] at hg
  | cons g' gs ih =>
      obtain ⟨k, l⟩ := g'
      rw [drain] at hg
      split at hg
      · obtain ⟨l', R, hl', hR⟩ := ih hg
        exact ⟨l', R, List.mem_cons_of_mem _ hl', hR⟩
      · rename_i a l' hkeep
        rcases List.mem_cons.mp hg with rfl | hg
        · exact ⟨l, Q, List.mem_cons_self, hkeep.symm⟩
        · obtain ⟨l', R, hl', hR⟩ := ih hg
          exact ⟨l', R, List.mem_cons_of_mem _ hl', hR⟩

lemma drain_zero {gs : List (κ × List α)} (hne : ∀ g ∈ gs, g.2 ≠ []) :
    drain size shrink 0 gs = gs := by
  induction gs with
  | nil => rfl
  | cons g gs ih =>
      obtain ⟨k, l⟩ := g
      have hl : l ≠ [] := hne (k, l) List.mem_cons_self
      obtain ⟨a, l', rfl⟩ := List.exists_cons_of_ne_nil hl
      simp only [drain, keep_zero, Nat.zero_sub]
      rw [ih fun g hg => hne g (List.mem_cons_of_mem _ hg)]

lemma drain_flatMap (Q : ℕ) (gs : List (κ × List α)) :
    (drain size shrink Q gs).flatMap Prod.snd
      = keep size shrink Q (gs.flatMap Prod.snd) := by
  induction gs generalizing Q with
  | nil => simp [drain]
  | cons g gs ih =>
      obtain ⟨k, l⟩ := g
      rw [List.flatMap_cons, keep_append, ← ih, drain]
      split <;> rename_i h <;> simp [h]

lemma drain_keys (Q : ℕ) (gs : List (κ × List α)) :
    ((drain size shrink Q gs).map Prod.fst).Sublist (gs.map Prod.fst) := by
  induction gs generalizing Q with
  | nil => simp [drain]
  | cons g gs ih =>
      obtain ⟨k, l⟩ := g
      rw [drain]
      split
      · exact (ih _).cons _
      · exact (ih _).cons_cons _

lemma drain_append (Q : ℕ) (gs hs : List (κ × List α)) :
    drain size shrink Q (gs ++ hs)
      = drain size shrink Q gs ++ drain size shrink (Q - total size (gs.flatMap Prod.snd)) hs := by
  induction gs generalizing Q with
  | nil => simp [drain]
  | cons g gs ih =>
      obtain ⟨k, l⟩ := g
      rw [List.cons_append, drain, drain, List.flatMap_cons, total_append, ← Nat.sub_sub, ih]
      split <;> rfl

lemma drain_map {β κ' : Type*} {size' : β → ℕ} {shrink' : β → ℕ → β} (k : κ → κ') (g : α → β)
    (hsize : ∀ a, size' (g a) = size a) (hshrink : ∀ a n, g (shrink a n) = shrink' (g a) n)
    (Q : ℕ) (gs : List (κ × List α)) :
    drain size' shrink' Q (gs.map (Prod.map k (List.map g)))
      = (drain size shrink Q gs).map (Prod.map k (List.map g)) := by
  induction gs generalizing Q with
  | nil => rfl
  | cons a gs ih =>
      obtain ⟨x, l⟩ := a
      have htotal : total size' (l.map g) = total size l := total_map size g hsize l
      have hkeep : keep size' shrink' Q (l.map g) = (keep size shrink Q l).map g :=
        keep_map size shrink g hsize hshrink Q l
      simp only [List.map_cons, Prod.map, drain, htotal, hkeep]
      cases keep size shrink Q l with
      | nil => exact ih _
      | cons b l' =>
          rw [List.map_cons, List.map_cons, ← ih]
          rfl

/-- A step that uses up the front item. -/
lemma drain_cons_le {Q : ℕ} {k : κ} {a : α} {l : List α} {gs : List (κ × List α)}
    (hQ : Q ≠ 0) (ha : size a ≤ Q) :
    drain size shrink Q ((k, a :: l) :: gs)
      = drain size shrink (Q - size a) (if l = [] then gs else (k, l) :: gs) := by
  rw [drain, keep, if_neg hQ, if_pos ha, total_cons, ← Nat.sub_sub]
  split_ifs with hl
  · simp [hl]
  · rw [drain]

/-- A step that ends the demand inside the front item. -/
lemma drain_cons_lt {Q : ℕ} {k : κ} {a : α} {l : List α} {gs : List (κ × List α)}
    (hQ : Q ≠ 0) (ha : Q < size a) (hne : ∀ g ∈ gs, g.2 ≠ []) :
    drain size shrink Q ((k, a :: l) :: gs) = (k, shrink a (size a - Q) :: l) :: gs := by
  have h0 : Q - total size (a :: l) = 0 := by rw [total_cons]; omega
  rw [drain, h0, drain_zero size shrink hne, keep, if_neg hQ, if_neg (by omega)]

/-- The groups left over, read off the sums: `S` is the total size of the groups in front. -/
def survivorGroups (Q : ℕ) : ℕ → List (κ × List α) → List (κ × List α)
  | _, [] => []
  | S, (k, l) :: gs =>
      (match survivors size shrink Q S l with
        | [] => []
        | a :: l' => [(k, a :: l')]) ++ survivorGroups Q (S + total size l) gs

/-- **The prefix-sum form of the groups left over.** -/
theorem drain_sub (Q S : ℕ) (gs : List (κ × List α)) :
    drain size shrink (Q - S) gs = survivorGroups size shrink Q S gs := by
  induction gs generalizing S with
  | nil => rfl
  | cons g gs ih =>
      obtain ⟨k, l⟩ := g
      rw [drain, survivorGroups, ← ih, keep_sub, Nat.sub_sub]
      split <;> rfl

end Allotment
