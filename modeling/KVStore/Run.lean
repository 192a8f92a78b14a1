/-
# Runs of a state machine

A machine is a total step function `step : σ → ι → σ`; a run is a list of
inputs, taken one after the other.  Conditions on runs come in two shapes:

* `Along step C s as` : every input of the run meets `C` in the state it is
  taken in;
* statements over the prefixes of a run, for properties that compare two of its
  moments.

`run_invariant` and `along_invariant` are the induction rules, `along_congr` compares
two conditions under an invariant, `Along.mono` is the rule for a quantity that never
goes down, and `run_induction` the one over prefixes.
-/
import Mathlib.Data.List.Basic
import Mathlib.Data.List.Infix
import Mathlib.Tactic.Common

namespace Run

variable {σ ι : Type*} (step : σ → ι → σ)

/-- The state after the inputs `as`, from `s`. -/
def run (s : σ) (as : List ι) : σ := as.foldl step s

@[simp] theorem run_nil (s : σ) : run step s [] = s := rfl

@[simp] theorem run_cons (s : σ) (a : ι) (as : List ι) :
    run step s (a :: as) = run step (step s a) as := rfl

theorem run_append (s : σ) (as bs : List ι) :
    run step s (as ++ bs) = run step (run step s as) bs :=
  List.foldl_append

@[simp] theorem run_snoc (s : σ) (as : List ι) (a : ι) :
    run step s (as ++ [a]) = step (run step s as) a := by
  rw [run_append]
  rfl

/-- Every input of the run meets `C` in the state it is taken in. -/
def Along (C : σ → ι → Prop) : σ → List ι → Prop
  | _, [] => True
  | s, a :: as => C s a ∧ Along C (step s a) as

instance Along.decidable (C : σ → ι → Prop) [∀ s a, Decidable (C s a)] :
    ∀ s as, Decidable (Along step C s as)
  | _, [] => inferInstanceAs (Decidable True)
  | s, a :: as =>
      have := Along.decidable C (step s a) as
      inferInstanceAs (Decidable (C s a ∧ Along step C (step s a) as))

variable {step}

theorem along_append {C : σ → ι → Prop} {s : σ} {as bs : List ι} :
    Along step C s (as ++ bs) ↔ Along step C s as ∧ Along step C (run step s as) bs := by
  induction as generalizing s with
  | nil => simp [Along]
  | cons a as ih => simp [Along, ih, and_assoc]

/-- The condition, read at one step of the run. -/
theorem along_iff {C : σ → ι → Prop} {s : σ} {as : List ι} :
    Along step C s as ↔ ∀ p a, p ++ [a] <+: as → C (run step s p) a := by
  induction as generalizing s with
  | nil => simp [Along]
  | cons b as ih =>
      rw [Along, ih]
      constructor
      · rintro ⟨hb, h⟩ p a hp
        cases p with
        | nil =>
            obtain rfl : a = b := by simpa using (List.cons_prefix_cons.mp hp).1
            exact hb
        | cons c p =>
            obtain ⟨rfl, htail⟩ := List.cons_prefix_cons.mp hp
            exact h p a htail
      · intro h
        refine ⟨h [] b (by simp), fun p a hp => ?_⟩
        exact h (b :: p) a (List.cons_prefix_cons.mpr ⟨rfl, hp⟩)

/-- A property kept by every step holds after every run. -/
theorem run_invariant {P : σ → Prop} (hstep : ∀ s a, P s → P (step s a)) {s : σ}
    (h : P s) (as : List ι) : P (run step s as) := by
  induction as generalizing s with
  | nil => exact h
  | cons a as ih => exact ih (hstep s a h)

/-- A property kept by every step that meets `C` holds after every run whose
steps all meet `C`. -/
theorem along_invariant {P : σ → Prop} {C : σ → ι → Prop}
    (hstep : ∀ s a, P s → C s a → P (step s a)) {s : σ} (h : P s) {as : List ι}
    (hC : Along step C s as) : P (run step s as) := by
  induction as generalizing s with
  | nil => exact h
  | cons a as ih => exact ih (hstep s a h hC.1) hC.2

/-- Where an invariant of the steps that meet `C` turns `C` into `D`, every run
whose steps all meet `C` meets `D` throughout. -/
theorem Along.imp {P : σ → Prop} {C D : σ → ι → Prop}
    (hstep : ∀ s a, P s → C s a → P (step s a) ∧ D s a) {s : σ} (h : P s) {as : List ι}
    (hC : Along step C s as) : Along step D s as := by
  induction as generalizing s with
  | nil => trivial
  | cons a as ih =>
      obtain ⟨hP, hD⟩ := hstep s a h hC.1
      exact ⟨hD, ih hP hC.2⟩

/-- Where an invariant of the steps that meet `C` makes `C` and `D` the same, so are
they along every run. -/
theorem along_congr {P : σ → Prop} {C D : σ → ι → Prop}
    (hstep : ∀ s a, P s → C s a → P (step s a)) (hiff : ∀ s a, P s → (D s a ↔ C s a)) {s : σ}
    (h : P s) (as : List ι) : Along step D s as ↔ Along step C s as := by
  constructor
  · refine Along.imp (P := P) ?_ h
    intro t a ht hD
    have hC := (hiff t a ht).mp hD
    exact ⟨hstep t a ht hC, hC⟩
  · refine Along.imp (P := P) ?_ h
    intro t a ht hC
    exact ⟨hstep t a ht hC, (hiff t a ht).mpr hC⟩

/-- A quantity that every step meeting `C` raises or keeps goes up along the run. -/
theorem Along.mono {β : Type*} [Preorder β] {P : σ → Prop} {C : σ → ι → Prop} {f : σ → β}
    (hstep : ∀ s a, P s → C s a → P (step s a) ∧ f s ≤ f (step s a)) {s : σ} (h : P s)
    {as p q : List ι} (hC : Along step C s as) (hpq : p <+: q) (hq : q <+: as) :
    f (run step s p) ≤ f (run step s q) := by
  obtain ⟨r, rfl⟩ := hpq
  obtain ⟨u, rfl⟩ := hq
  obtain ⟨hpr, -⟩ := along_append.mp hC
  obtain ⟨hp, hr⟩ := along_append.mp hpr
  have hP := along_invariant (fun s a hs ha => (hstep s a hs ha).1) h hp
  rw [run_append]
  -- the later part keeps the invariant and stays above its start
  refine (along_invariant (P := fun t => P t ∧ f (run step s p) ≤ f t) ?_ ⟨hP, le_rfl⟩ hr).2
  rintro t a ⟨ht, hle⟩ ha
  exact ⟨(hstep t a ht ha).1, hle.trans (hstep t a ht ha).2⟩

/-- Induction over the prefixes of a run. -/
theorem run_induction {as : List ι} {P : List ι → Prop} (h0 : P [])
    (hstep : ∀ p a, p ++ [a] <+: as → P p → P (p ++ [a])) : P as := by
  suffices h : ∀ p, p <+: as → P p from h as List.prefix_rfl
  intro p
  induction p using List.reverseRecOn with
  | nil => exact fun _ => h0
  | append_singleton p a ih =>
      exact fun hp => hstep p a hp (ih ((List.prefix_append p [a]).trans hp))

end Run
