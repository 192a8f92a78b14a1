/-
# Splicing a tail into a list, and matching lists

Reusable facts about lists whose elements carry a tag `τ : α → β`.  A receiver
that holds `l` is handed a tail `es` for position `p`: it walks along `es`,
skips the elements whose tag it already has, drops its own list at the first
tag that differs, and appends the rest.  `splice τ l p es` is that walk.

* `matchLen` : how many elements of `es` the walk skips;
* `splice_eq` : the closed form of the walk, `l` itself or
  `l.take (p + k) ++ es.drop k` with `k` the number of skipped elements;
* `isGreatest_matchLen` : the skipped elements are the longest prefix of `es`
  whose tags agree with those of `l`;
* `Matching τ l L` : an equal tag at an equal position forces equal prefixes;
* `splice_drop_of_matching` : splicing a tail of `L` into a matching list gives
  either that list, of which `L` is then a prefix, or `L` itself;
* `commonPrefix_splice_slice` : splicing a slice of `L` into a matching list
  shortens no common prefix and makes it reach the end of the slice;
* `Ascending.splice_drop` : lists whose tags never fall are spliced to one whose
  tags never fall.
-/
import Mathlib.Data.List.Basic
import Mathlib.Data.List.Infix
import Mathlib.Order.Bounds.Basic
import Mathlib.Tactic.Common

namespace Splice

variable {α β : Type*} [DecidableEq β] (τ : α → β)

/-- Merge the tail `es` into `l` from position `p` on. -/
def splice : List α → ℕ → List α → List α
  | l, _, [] => l
  | l, p, e :: es =>
      match l[p]? with
      | some x =>
          if τ x = τ e then splice l (p + 1) es
          else splice (l.take p ++ [e]) (p + 1) es
      | none => splice (l ++ [e]) (p + 1) es

/-- The number of leading elements of `es` whose tags `l` already has at
`p, p + 1, …`. -/
def matchLen : List α → ℕ → List α → ℕ
  | _, _, [] => 0
  | l, p, e :: es =>
      match l[p]? with
      | some x => if τ x = τ e then matchLen l (p + 1) es + 1 else 0
      | none => 0

@[simp] theorem splice_nil (l : List α) (p : ℕ) : splice τ l p [] = l := rfl

@[simp] theorem matchLen_nil (l : List α) (p : ℕ) : matchLen τ l p [] = 0 := rfl

/-! ## The closed form -/

theorem matchLen_le (l : List α) (p : ℕ) (es : List α) :
    matchLen τ l p es ≤ es.length := by
  induction es generalizing p with
  | nil => simp
  | cons e es ih =>
      have := ih (p + 1)
      simp only [matchLen, List.length_cons]
      split
      · split_ifs <;> omega
      · omega

/-- Past the end of the list there is nothing to skip: the walk appends. -/
theorem splice_length (l : List α) (es : List α) :
    splice τ l l.length es = l ++ es := by
  induction es generalizing l with
  | nil => simp
  | cons e es ih =>
      have h : l[l.length]? = none := List.getElem?_eq_none le_rfl
      have hlen : l.length + 1 = (l ++ [e]).length := by simp
      simp only [splice, h]
      rw [hlen, ih]
      simp

/-- **The closed form of the walk.** -/
theorem splice_eq (l : List α) (p : ℕ) (es : List α) (hp : p ≤ l.length) :
    splice τ l p es =
      if matchLen τ l p es = es.length then l
      else l.take (p + matchLen τ l p es) ++ es.drop (matchLen τ l p es) := by
  induction es generalizing p with
  | nil => simp
  | cons e es ih =>
      rcases Nat.lt_or_ge p l.length with hlt | hge
      · have hget : l[p]? = some l[p] := List.getElem?_eq_getElem hlt
        simp only [splice, matchLen, hget]
        by_cases hτ : τ l[p] = τ e
        · rw [if_pos hτ, if_pos hτ, ih (p + 1) hlt]
          simp only [List.length_cons, Nat.add_right_cancel_iff, List.drop_succ_cons]
          rw [show p + 1 + matchLen τ l (p + 1) es = p + (matchLen τ l (p + 1) es + 1) by
            omega]
        · -- the first conflict: from here on the elements are appended
          have hlen : p + 1 = (l.take p ++ [e]).length := by
            rw [List.length_append, List.length_take, Nat.min_eq_left hp]
            rfl
          rw [if_neg hτ, if_neg hτ, hlen, splice_length]
          simp
      · obtain rfl : p = l.length := by omega
        have hget : l[l.length]? = none := List.getElem?_eq_none le_rfl
        rw [splice_length]
        simp [matchLen]

/-- The skipped elements do carry the tags of `l`. -/
theorem tag_eq_of_lt_matchLen (l : List α) (p : ℕ) (es : List α) {j : ℕ}
    (hj : j < matchLen τ l p es) :
    ∃ x e, l[p + j]? = some x ∧ es[j]? = some e ∧ τ x = τ e := by
  induction es generalizing p j with
  | nil => simp at hj
  | cons e es ih =>
      rw [matchLen] at hj
      split at hj
      · rename_i x hx
        split_ifs at hj with hτ
        · cases j with
          | zero => exact ⟨x, e, by simpa using hx, by simp, hτ⟩
          | succ j =>
              obtain ⟨y, e', hy, he', hye⟩ := ih (p + 1) (Nat.lt_of_succ_lt_succ hj)
              refine ⟨y, e', ?_, by simpa using he', hye⟩
              rw [show p + (j + 1) = p + 1 + j by omega]
              exact hy
        · omega
      · omega

/-- The walk stops skipping at a position past the end of `l` or at a tag that
differs. -/
theorem tag_ne_at_matchLen (l : List α) (p : ℕ) (es : List α) {x e : α}
    (hx : l[p + matchLen τ l p es]? = some x) (he : es[matchLen τ l p es]? = some e) :
    τ x ≠ τ e := by
  induction es generalizing p with
  | nil => simp at he
  | cons a es ih =>
      rw [matchLen] at hx he
      split at hx
      · rename_i y hy
        rw [hy] at he
        split_ifs at hx with hτ
        · simp only [hτ, if_true] at he
          refine ih (p + 1) ?_ (by simpa using he)
          rw [show p + 1 + matchLen τ l (p + 1) es = p + (matchLen τ l (p + 1) es + 1) by
            omega]
          exact hx
        · simp only [hτ, if_false] at he
          rw [Nat.add_zero, hy] at hx
          cases hx
          cases (show some a = some e by simpa using he)
          exact hτ
      · rename_i hy
        rw [Nat.add_zero, hy] at hx
        cases hx

/-- The first `k` elements of `es` carry the tags of `l` at `p, p + 1, …`. -/
def Agrees (l : List α) (p : ℕ) (es : List α) (k : ℕ) : Prop :=
  k ≤ es.length ∧ (es.take k).map τ = ((l.drop p).take k).map τ

instance Agrees.decidable (l : List α) (p : ℕ) (es : List α) (k : ℕ) :
    Decidable (Agrees τ l p es k) :=
  inferInstanceAs (Decidable (_ ∧ _))

omit [DecidableEq β] in
/-- Agreement, element by element. -/
theorem agrees_iff {l : List α} {p : ℕ} {es : List α} {k : ℕ} : Agrees τ l p es k ↔
    ∀ j < k, ∃ x e, l[p + j]? = some x ∧ es[j]? = some e ∧ τ x = τ e := by
  constructor
  · rintro ⟨hk, heq⟩ j hj
    have he : es[j]? = some es[j] := List.getElem?_eq_getElem (by omega)
    have hget := congrArg (fun m => m[j]?) heq
    simp only [List.getElem?_map, List.getElem?_take, hj, if_true, List.getElem?_drop, he,
      Option.map_some] at hget
    obtain ⟨x, hx, hτ⟩ := Option.map_eq_some_iff.mp hget.symm
    exact ⟨x, es[j], hx, he, hτ⟩
  · intro h
    have hk : k ≤ es.length := by
      by_contra hlt
      obtain ⟨_, _, _, he, _⟩ := h es.length (by omega)
      simp at he
    refine ⟨hk, List.ext_getElem? fun j => ?_⟩
    simp only [List.getElem?_map, List.getElem?_take, List.getElem?_drop]
    split_ifs with hj
    · obtain ⟨x, e, hx, he, hτ⟩ := h j hj
      rw [hx, he, Option.map_some, Option.map_some, hτ]
    · rfl

omit [DecidableEq β] in
variable {τ} in
/-- An agreeing stretch lies inside the list. -/
theorem Agrees.add_le {l : List α} {p : ℕ} {es : List α} {k : ℕ} (h : Agrees τ l p es k)
    (hp : p ≤ l.length) : p + k ≤ l.length := by
  rcases Nat.eq_zero_or_pos k with rfl | hpos
  · exact hp
  · obtain ⟨x, -, hx, -, -⟩ := (agrees_iff τ).mp h (k - 1) (by omega)
    have := (List.getElem?_eq_some_iff.mp hx).1
    omega

/-- **The walk skips the longest agreeing prefix.** -/
theorem isGreatest_matchLen (l : List α) (p : ℕ) (es : List α) :
    IsGreatest {k | Agrees τ l p es k} (matchLen τ l p es) := by
  constructor
  · exact (agrees_iff τ).mpr fun j hj => tag_eq_of_lt_matchLen τ l p es hj
  · intro k hk
    by_contra hlt
    obtain ⟨x, e, hx, he, hτ⟩ := (agrees_iff τ).mp hk _ (not_le.mp hlt)
    exact tag_ne_at_matchLen τ l p es hx he hτ

/-- A walk that never meets a differing tag below `i` leaves the first `i`
elements alone. -/
theorem take_splice_of_no_conflict (l : List α) (p i : ℕ) (es : List α)
    (hp : p ≤ l.length) (hi : i ≤ l.length)
    (h : ∀ j x e, p + j < i → l[p + j]? = some x → es[j]? = some e → τ x = τ e) :
    (splice τ l p es).take i = l.take i := by
  rw [splice_eq τ l p es hp]
  split_ifs with hk
  · rfl
  · set k := matchLen τ l p es with hkdef
    have hkle : k < es.length := lt_of_le_of_ne (matchLen_le τ l p es) hk
    have hik : i ≤ p + k := by
      by_contra hlt
      push Not at hlt
      have hx : l[p + k]? = some l[p + k] := List.getElem?_eq_getElem (by omega)
      have he : es[k]? = some es[k] := List.getElem?_eq_getElem hkle
      exact tag_ne_at_matchLen τ l p es hx he (h k _ _ hlt hx he)
    rw [List.take_append_of_le_length (by rw [List.length_take]; omega), List.take_take,
      Nat.min_eq_left hik]

/-! ## Matching lists -/

/-- An equal tag at an equal position forces equal prefixes up to it. -/
def Matching (l l' : List α) : Prop :=
  ∀ i x y, l[i]? = some x → l'[i]? = some y → τ x = τ y → l.take (i + 1) = l'.take (i + 1)

instance Matching.decidable [DecidableEq α] (l l' : List α) : Decidable (Matching τ l l') :=
  decidable_of_iff
    (∀ i < l.length, ∀ x ∈ l[i]?, ∀ y ∈ l'[i]?, τ x = τ y → l.take (i + 1) = l'.take (i + 1))
    ⟨fun h i x y hx hy => h i (List.getElem?_eq_some_iff.mp hx).1 x hx y hy,
      fun h i _ x hx y hy => h i x y hx hy⟩

omit [DecidableEq β] in
theorem Matching.refl (l : List α) : Matching τ l l := fun _ _ _ _ _ _ => rfl

omit [DecidableEq β] in
variable {τ} in
theorem Matching.symm {l l' : List α} (h : Matching τ l l') : Matching τ l' l :=
  fun i x y hx hy hxy => (h i y x hy hx hxy.symm).symm

omit [DecidableEq β] in
variable {τ} in
/-- Two prefixes of one list match. -/
theorem matching_of_isPrefix {l l' L : List α} (h : l <+: L) (h' : l' <+: L) :
    Matching τ l l' := by
  intro i x y hx hy _
  have hi := (List.getElem?_eq_some_iff.mp hx).1
  have hi' := (List.getElem?_eq_some_iff.mp hy).1
  rw [List.prefix_iff_eq_take.mp h, List.prefix_iff_eq_take.mp h', List.take_take,
    List.take_take, Nat.min_eq_left (by omega), Nat.min_eq_left (by omega)]

variable {τ}

/-- A matching receiver that agrees with `L` up to `p` agrees with it up to
everything it skips. -/
theorem take_eq_of_matching {l L : List α} (hm : Matching τ l L) {p : ℕ}
    (hpre : l.take p = L.take p) :
    l.take (p + matchLen τ l p (L.drop p)) = L.take (p + matchLen τ l p (L.drop p)) := by
  rcases Nat.eq_zero_or_pos (matchLen τ l p (L.drop p)) with h0 | hpos
  · rw [h0, Nat.add_zero, hpre]
  · obtain ⟨x, e, hx, he, hxe⟩ := tag_eq_of_lt_matchLen τ l p (L.drop p)
      (show matchLen τ l p (L.drop p) - 1 < _ by omega)
    rw [List.getElem?_drop] at he
    have := hm _ x e hx he hxe
    rwa [show p + (matchLen τ l p (L.drop p) - 1) + 1 = p + matchLen τ l p (L.drop p) by
      omega] at this

/-- **Splicing a tail of `L` into a matching list.**  Either the list already
extends `L` and stays as it is, or the result is `L`. -/
theorem splice_drop_of_matching {l L : List α} (hm : Matching τ l L) {p : ℕ}
    (hp : p ≤ l.length) (hpre : l.take p = L.take p) :
    (L <+: l ∧ splice τ l p (L.drop p) = l) ∨ splice τ l p (L.drop p) = L := by
  have hpL : p ≤ L.length := by
    have := congrArg List.length hpre
    simp only [List.length_take] at this
    omega
  have htake := take_eq_of_matching hm hpre
  rw [splice_eq τ l p _ hp]
  split_ifs with hk
  · left
    rw [hk, List.length_drop, show p + (L.length - p) = L.length by omega,
      List.take_length] at htake
    exact ⟨List.prefix_iff_eq_take.mpr htake.symm, rfl⟩
  · right
    rw [htake, List.drop_drop, List.take_append_drop]

/-- Splicing a tail of a prefix into a list changes nothing. -/
theorem splice_drop_of_isPrefix {l L : List α} (h : L <+: l) {p : ℕ} (hp : p ≤ L.length) :
    splice τ l p (L.drop p) = l := by
  have hlen := h.length_le
  rw [splice_eq τ l p _ (by omega), if_pos]
  by_contra hne
  -- the first difference would be inside `L`, where the two lists are equal
  have hlt : matchLen τ l p (L.drop p) < (L.drop p).length :=
    lt_of_le_of_ne (matchLen_le τ l p (L.drop p)) hne
  have he : (L.drop p)[matchLen τ l p (L.drop p)]? = some (L.drop p)[matchLen τ l p (L.drop p)] :=
    List.getElem?_eq_getElem hlt
  have hx : l[p + matchLen τ l p (L.drop p)]?
      = some (L.drop p)[matchLen τ l p (L.drop p)] := by
    obtain ⟨t, rfl⟩ := h
    rw [List.length_drop] at hlt
    rw [List.getElem?_append_left (by omega), ← List.getElem?_drop]
    exact he
  exact tag_ne_at_matchLen τ l p (L.drop p) hx he rfl

/-- Splicing a tail of a list into the list itself changes nothing. -/
theorem splice_drop_self (l : List α) {p : ℕ} (hp : p ≤ l.length) :
    splice τ l p (l.drop p) = l :=
  splice_drop_of_isPrefix List.prefix_rfl hp

/-! ## Slices of a list

A receiver that is handed slices of `L` instead of tails of it, in any order. -/

/-- The length of the longest common prefix. -/
def commonPrefix [DecidableEq α] : List α → List α → ℕ
  | x :: l, y :: L => if x = y then commonPrefix l L + 1 else 0
  | _, _ => 0

omit [DecidableEq β] in
theorem le_commonPrefix_iff [DecidableEq α] {l L : List α} {k : ℕ} :
    k ≤ commonPrefix l L ↔ k ≤ l.length ∧ k ≤ L.length ∧ l.take k = L.take k := by
  induction l generalizing L k with
  | nil =>
      simp only [commonPrefix, List.length_nil, Nat.le_zero]
      constructor
      · rintro rfl
        exact ⟨rfl, Nat.zero_le _, rfl⟩
      · exact fun h => h.1
  | cons x l ih =>
      cases L with
      | nil =>
          simp only [commonPrefix, List.length_nil, Nat.le_zero]
          constructor
          · rintro rfl
            exact ⟨Nat.zero_le _, rfl, rfl⟩
          · exact fun h => h.2.1
      | cons y L =>
          cases k with
          | zero => simp
          | succ k =>
              simp only [commonPrefix, List.length_cons, List.take_succ_cons, List.cons.injEq]
              split_ifs with hxy
              · rw [Nat.succ_le_succ_iff, ih]
                simp [hxy]
              · simp [hxy]

omit [DecidableEq β] in
/-- A list matches the prefixes of what it matches. -/
theorem Matching.take {l L : List α} (h : Matching τ l L) (e : ℕ) :
    Matching τ l (L.take e) := by
  intro i x y hx hy hxy
  rw [List.getElem?_take] at hy
  split_ifs at hy with hi
  rw [h i x y hx hy hxy, List.take_take, Nat.min_eq_left (by omega)]

/-- **Splicing a slice of `L` into a matching list** that agrees with `L` up to the
start of the slice.  Either the slice is there already and nothing changes, or
the result is `L` up to the end of the slice. -/
theorem splice_slice_of_matching {l L : List α} (hm : Matching τ l L) {p e : ℕ}
    (hp : p ≤ l.length) (hpe : p ≤ e) (hpre : l.take p = L.take p) :
    (L.take e <+: l ∧ splice τ l p ((L.take e).drop p) = l) ∨
      splice τ l p ((L.take e).drop p) = L.take e := by
  apply splice_drop_of_matching (hm.take e) hp
  rw [hpre, List.take_take, Nat.min_eq_left hpe]

/-- Splicing a slice keeps the lists matching. -/
theorem matching_splice_slice {l L : List α} (hm : Matching τ l L) {p e : ℕ}
    (hp : p ≤ l.length) (hpe : p ≤ e) (hpre : l.take p = L.take p) :
    Matching τ (splice τ l p ((L.take e).drop p)) L := by
  rcases splice_slice_of_matching hm hp hpe hpre with ⟨-, hsame⟩ | hnew
  · rw [hsame]
    exact hm
  · rw [hnew]
    exact matching_of_isPrefix (List.take_prefix e L) List.prefix_rfl

omit [DecidableEq β] in
/-- A list that starts with the first `e` elements of `L` has them in common. -/
theorem le_commonPrefix_of_isPrefix [DecidableEq α] {l L : List α} {e : ℕ} (he : e ≤ L.length)
    (h : L.take e <+: l) : e ≤ commonPrefix l L := by
  have hlen : (L.take e).length = e := List.length_take_of_le he
  have htake := List.prefix_iff_eq_take.mp h
  rw [hlen] at htake
  exact le_commonPrefix_iff.mpr ⟨hlen ▸ h.length_le, he, htake.symm⟩

/-- **Splicing a slice shortens no common prefix**, and afterwards the common
prefix reaches the end of the slice. -/
theorem commonPrefix_splice_slice [DecidableEq α] {l L : List α} (hm : Matching τ l L) {p e : ℕ}
    (hp : p ≤ l.length) (hpe : p ≤ e) (he : e ≤ L.length) (hpre : l.take p = L.take p) :
    commonPrefix l L ≤ commonPrefix (splice τ l p ((L.take e).drop p)) L ∧
      e ≤ commonPrefix (splice τ l p ((L.take e).drop p)) L := by
  rcases Nat.lt_or_ge (commonPrefix l L) e with hlt | hge
  · -- the slice brings something new, and with it everything before it
    have hle : e ≤ commonPrefix (splice τ l p ((L.take e).drop p)) L := by
      apply le_commonPrefix_of_isPrefix he
      rcases splice_slice_of_matching hm hp hpe hpre with ⟨hpref, hsame⟩ | hnew
      · rw [hsame]
        exact hpref
      · rw [hnew]
    exact ⟨le_of_lt (lt_of_lt_of_le hlt hle), hle⟩
  · -- the slice lies inside the common prefix
    obtain ⟨hl, -, htake⟩ := le_commonPrefix_iff.mp hge
    have hpref : L.take e <+: l := htake ▸ List.take_prefix e l
    have hsame : splice τ l p ((L.take e).drop p) = l :=
      splice_drop_of_isPrefix hpref (by rw [List.length_take]; omega)
    rw [hsame]
    exact ⟨le_rfl, hge⟩

/-! ## Tags that never fall -/

omit [DecidableEq β] in
variable (τ) in
/-- The tags never fall along the list. -/
def Ascending [LE β] (l : List α) : Prop := l.Pairwise fun x y => τ x ≤ τ y

omit [DecidableEq β] in
/-- An element is at or below the last one of a beginning it is in. -/
theorem Ascending.le_of_mem_take [Preorder β] {l : List α} (h : Ascending τ l) {q : ℕ} {x y : α}
    (hx : x ∈ l.take (q + 1)) (hy : l[q]? = some y) : τ x ≤ τ y := by
  obtain ⟨i, hi⟩ := List.getElem?_of_mem hx
  rw [List.getElem?_take] at hi
  split_ifs at hi with hlt
  obtain ⟨hil, rfl⟩ := List.getElem?_eq_some_iff.mp hi
  obtain ⟨hql, rfl⟩ := List.getElem?_eq_some_iff.mp hy
  rcases Nat.lt_or_eq_of_le (Nat.lt_succ_iff.mp hlt) with hiq | rfl
  · exact List.pairwise_iff_getElem.mp h i q hil hql hiq
  · exact le_rfl

omit [DecidableEq β] in
/-- A beginning of one list goes with the rest of another if the tags at the seam
do not fall. -/
theorem Ascending.take_append_drop [Preorder β] {l L : List α} (hl : Ascending τ l)
    (hL : Ascending τ L) {q : ℕ}
    (hseam : ∀ r x y, q = r + 1 → l[r]? = some x → L[r]? = some y → τ x ≤ τ y)
    (hql : q ≤ l.length) (hqL : q ≤ L.length) : Ascending τ (l.take q ++ L.drop q) := by
  refine List.pairwise_append.mpr ⟨hl.sublist (List.take_sublist _ _),
    hL.sublist (List.drop_sublist _ _), ?_⟩
  intro x hx y hy
  cases q with
  | zero => cases hx
  | succ r =>
      have hr : l[r]? = some l[r] := List.getElem?_eq_getElem (by omega)
      have hR : L[r]? = some L[r] := List.getElem?_eq_getElem (by omega)
      obtain ⟨i, hi⟩ := List.getElem?_of_mem hy
      rw [List.getElem?_drop] at hi
      obtain ⟨hlt, rfl⟩ := List.getElem?_eq_some_iff.mp hi
      calc τ x ≤ τ l[r] := hl.le_of_mem_take hx hr
        _ ≤ τ L[r] := hseam r _ _ rfl hr hR
        _ ≤ τ L[r + 1 + i] := List.pairwise_iff_getElem.mp hL r _ _ hlt (by omega)

/-- **Splicing keeps the tags in order**: where the walk starts behind an equal tag,
and everywhere it skips, the tags at the seam are the same. -/
theorem Ascending.splice_drop [Preorder β] {l L : List α} (hl : Ascending τ l)
    (hL : Ascending τ L) {p : ℕ} (hp : p ≤ l.length) (hpL : p ≤ L.length)
    (hstart : ∀ r x y, p = r + 1 → l[r]? = some x → L[r]? = some y → τ x = τ y) :
    Ascending τ (splice τ l p (L.drop p)) := by
  rw [splice_eq τ l p _ hp]
  split_ifs with hall
  · exact hl
  · rw [List.drop_drop]
    have hk := matchLen_le τ l p (L.drop p)
    have hkl := (isGreatest_matchLen τ l p (L.drop p)).1.add_le hp
    rw [List.length_drop] at hk
    refine hl.take_append_drop hL ?_ hkl (by omega)
    intro r x y hr hx hy
    by_cases hpr : p ≤ r
    · -- the walk has skipped the element before the seam
      obtain ⟨x', e, hx', he, heq⟩ :=
        tag_eq_of_lt_matchLen τ l p (L.drop p) (j := r - p) (by omega)
      rw [show p + (r - p) = r by omega, hx] at hx'
      rw [List.getElem?_drop, show p + (r - p) = r by omega, hy] at he
      cases hx'
      cases he
      exact heq.le
    · exact (hstart r x y (by omega) hx hy).le

/-- Nothing is in the result that was in neither. -/
theorem mem_of_mem_splice {l es : List α} {p : ℕ} (hp : p ≤ l.length) {x : α}
    (h : x ∈ splice τ l p es) : x ∈ l ∨ x ∈ es := by
  rw [splice_eq τ l p es hp] at h
  split_ifs at h
  · exact Or.inl h
  · rcases List.mem_append.mp h with h | h
    · exact Or.inl (List.mem_of_mem_take h)
    · exact Or.inr (List.mem_of_mem_drop h)

end Splice
