/-
# Replaying writes into a map: the last writer of a key wins

A list of records is replayed into a partial map `K → Option V` in order, each
record `a` writing `value a` under `key a`.  What a key holds afterwards is what
its last writer wrote; these are the facts every comparison of a table with a
log rests on.
-/
import Mathlib.Logic.Function.Basic
import Mathlib.Data.List.Basic
import Mathlib.Data.List.Infix
import Mathlib.Tactic.Common

namespace Replay

variable {α K V : Type*} [DecidableEq K] (key : α → K) (value : α → V)

/-- One write. -/
def write (m : K → Option V) (a : α) : K → Option V :=
  Function.update m (key a) (some (value a))

/-- The map after the records of `l`, written in order over `m`. -/
def replay (m : K → Option V) (l : List α) : K → Option V :=
  l.foldl (write key value) m

@[simp] theorem replay_nil (m : K → Option V) : replay key value m [] = m := rfl

@[simp] theorem replay_cons (m : K → Option V) (a : α) (l : List α) :
    replay key value m (a :: l) = replay key value (write key value m a) l := rfl

theorem replay_append (m : K → Option V) (l l' : List α) :
    replay key value m (l ++ l') = replay key value (replay key value m l) l' :=
  List.foldl_append

/-- A key that no record writes keeps its value. -/
theorem replay_of_notMem (m : K → Option V) (l : List α) (k : K)
    (h : ∀ a ∈ l, key a ≠ k) : replay key value m l k = m k := by
  induction l generalizing m with
  | nil => rfl
  | cons a l ih =>
      rw [replay_cons, ih _ (fun b hb => h b (List.mem_cons_of_mem _ hb)), write,
        Function.update_of_ne (h a List.mem_cons_self).symm]

/-- **The last writer wins.** -/
theorem replay_last (m : K → Option V) (l l' : List α) (a : α)
    (h : ∀ b ∈ l', key b ≠ key a) :
    replay key value m (l ++ a :: l') (key a) = some (value a) := by
  rw [replay_append, replay_cons, replay_of_notMem key value _ l' _ h, write,
    Function.update_self]

/-- Replayed over the empty map, a key holds what its last writer wrote. -/
theorem replay_eq_getLast? (l : List α) (k : K) :
    replay key value (fun _ => none) l k
      = ((l.filter (fun a => decide (key a = k))).getLast?).map value := by
  induction l using List.reverseRecOn with
  | nil => rfl
  | append_singleton l a ih =>
      rw [replay_append, replay_cons, replay_nil, write, List.filter_append]
      by_cases ha : key a = k
      · subst ha
        simp
      · rw [Function.update_of_ne (Ne.symm ha), ih]
        simp [ha]

/-- What a key holds was written by one of the records. -/
theorem exists_of_replay (l : List α) {k : K} {v : V}
    (h : replay key value (fun _ => none) l k = some v) :
    ∃ a ∈ l, key a = k ∧ value a = v := by
  rw [replay_eq_getLast?, Option.map_eq_some_iff] at h
  obtain ⟨a, hlast, hv⟩ := h
  obtain ⟨hmem, hk⟩ := List.mem_filter.mp (List.mem_of_getLast? hlast)
  exact ⟨a, hmem, of_decide_eq_true hk, hv⟩

/-- A key that some record writes holds what one of its writers wrote, whatever the
map was before. -/
theorem replay_of_mem (m : K → Option V) (l : List α) {k : K} (h : ∃ a ∈ l, key a = k) :
    ∃ a ∈ l, key a = k ∧ replay key value m l k = some (value a) := by
  induction l using List.reverseRecOn with
  | nil =>
      obtain ⟨a, ha, -⟩ := h
      cases ha
  | append_singleton l b ih =>
      rw [replay_append, replay_cons, replay_nil, write]
      by_cases hb : key b = k
      · subst hb
        exact ⟨b, List.mem_append_right _ List.mem_cons_self, rfl, Function.update_self ..⟩
      · rw [Function.update_of_ne (Ne.symm hb)]
        -- the last record writes another key, so a writer is among the others
        have hl : ∃ a ∈ l, key a = k := by
          obtain ⟨a, ha, hk⟩ := h
          rcases List.mem_append.mp ha with ha | ha
          · exact ⟨a, ha, hk⟩
          · rw [List.mem_singleton.mp ha] at hk
            exact absurd hk hb
        obtain ⟨a, ha, hk, hv⟩ := ih hl
        exact ⟨a, List.mem_append_left _ ha, hk, hv⟩

/-- Replaying a prefix and then the stretch up to a later position is replaying
the longer prefix. -/
theorem replay_take_extend (m : K → Option V) (l : List α) {i j : ℕ} (hij : i ≤ j) :
    replay key value (replay key value m (l.take i)) ((l.take j).drop i)
      = replay key value m (l.take j) := by
  rw [← replay_append]
  congr 1
  conv_rhs => rw [← List.take_append_drop i (l.take j)]
  rw [List.take_take, Nat.min_eq_left hij]

/-- Replaying two stretches that follow each other is replaying the stretch they
make up. -/
theorem replay_stretch (m : K → Option V) (l : List α) {i j k : ℕ} (hij : i ≤ j) (hjk : j ≤ k) :
    replay key value (replay key value m ((l.take j).drop i)) ((l.take k).drop j)
      = replay key value m ((l.take k).drop i) := by
  rw [← replay_append]
  congr 1
  have hsplit : (l.take k).drop i = (((l.take k).take j) ++ ((l.take k).drop j)).drop i := by
    rw [List.take_append_drop]
  rw [hsplit, List.take_take, Nat.min_eq_left hjk, List.drop_append]
  rcases Nat.lt_or_ge l.length i with hlt | hge
  · have hnil : (l.take k).drop j = [] := by
      rw [List.drop_eq_nil_iff, List.length_take]
      omega
    simp [hnil]
  · rw [List.length_take, show i - min j l.length = 0 by omega, List.drop_zero]

/-! ## Replaying twice -/

/-- What a key holds after a replay depends on what it held before only if no
record writes it. -/
theorem replay_congr {m m' : K → Option V} {l : List α} {k : K}
    (h : (∃ a ∈ l, key a = k) ∨ m k = m' k) : replay key value m l k = replay key value m' l k := by
  induction l using List.reverseRecOn with
  | nil =>
      rcases h with ⟨a, ha, -⟩ | h
      · cases ha
      · exact h
  | append_singleton l b ih =>
      rw [replay_append, replay_append, replay_cons, replay_cons, replay_nil, replay_nil, write,
        write]
      by_cases hb : key b = k
      · subst hb
        rw [Function.update_self, Function.update_self]
      · rw [Function.update_of_ne (Ne.symm hb), Function.update_of_ne (Ne.symm hb)]
        apply ih
        rcases h with ⟨a, ha, hk⟩ | h
        · rcases List.mem_append.mp ha with ha | ha
          · exact Or.inl ⟨a, ha, hk⟩
          · rw [List.mem_singleton.mp ha] at hk
            exact absurd hk hb
        · exact Or.inr h

/-- **Replaying some of the records first changes nothing**, whatever they write:
each of their keys has its last writer in the whole list. -/
theorem replay_of_subset (m : K → Option V) {l' l : List α} (h : l' ⊆ l) :
    replay key value (replay key value m l') l = replay key value m l := by
  funext k
  apply replay_congr
  by_cases hk : ∃ a ∈ l', key a = k
  · obtain ⟨a, ha, hak⟩ := hk
    exact Or.inl ⟨a, h ha, hak⟩
  · right
    apply replay_of_notMem
    exact fun a ha hak => hk ⟨a, ha, hak⟩

/-- No key is written twice with different values. -/
def NoRewrite (l : List α) : Prop := ∀ a ∈ l, ∀ b ∈ l, key a = key b → value a = value b

instance NoRewrite.decidable [DecidableEq V] (l : List α) : Decidable (NoRewrite key value l) :=
  inferInstanceAs (Decidable (∀ a ∈ l, _))

variable {key value}

/-- Without rewrites every record is still there at the end. -/
theorem NoRewrite.replay_eq {l : List α} (h : NoRewrite key value l) (m : K → Option V) {a : α}
    (ha : a ∈ l) : replay key value m l (key a) = some (value a) := by
  induction l using List.reverseRecOn with
  | nil => cases ha
  | append_singleton l b ih =>
      rw [replay_append, replay_cons, replay_nil, write]
      by_cases hb : key b = key a
      · have hval : value b = value a :=
          h b (List.mem_append_right _ List.mem_cons_self) a ha hb
        rw [hb, Function.update_self, hval]
      · rw [Function.update_of_ne (Ne.symm hb)]
        apply ih
        · exact fun x hx y hy => h x (List.mem_append_left _ hx) y (List.mem_append_left _ hy)
        · rcases List.mem_append.mp ha with ha | ha
          · exact ha
          · rw [List.mem_singleton.mp ha] at hb
            exact absurd rfl hb

/-- Records whose values the map already holds change nothing. -/
theorem replay_absorb {m : K → Option V} {l : List α} (h : ∀ a ∈ l, m (key a) = some (value a)) :
    replay key value m l = m := by
  induction l with
  | nil => rfl
  | cons a l ih =>
      have hwrite : write key value m a = m := by
        unfold write
        rw [← h a List.mem_cons_self]
        exact Function.update_eq_self _ _
      rw [replay_cons, hwrite]
      exact ih fun b hb => h b (List.mem_cons_of_mem _ hb)

/-- Without rewrites, replaying some of the records again changes nothing. -/
theorem NoRewrite.replay_again {l l' : List α} (h : NoRewrite key value l) (hsub : l' ⊆ l)
    (m : K → Option V) : replay key value (replay key value m l) l' = replay key value m l :=
  replay_absorb fun _ ha => h.replay_eq m (hsub ha)

end Replay
