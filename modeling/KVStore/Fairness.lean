/-
# Endless schedules

`Run.trace` is what a machine does along an endless sequence of inputs, in which every
input may come up again and again (`Run.Fair`).

* `Run.exists_still` : a machine each of whose steps goes down in a well-founded order or
  changes nothing comes to a state that no step changes;
* `Threads.System.exists_finish_of_fair` : so finitely many disciplined threads all come
  to their ends, however the scheduler picks them, as long as it forgets none.
-/
import Mathlib.Data.Fintype.Basic
import Mathlib.Logic.Hydra
import KVStore.Threads

namespace Run

variable {σ ι α : Type*} (step : σ → ι → σ)

/-- The state after the first `t` inputs of an endless sequence. -/
def trace (s : σ) (sched : ℕ → ι) : ℕ → σ
  | 0 => s
  | t + 1 => step (trace s sched t) (sched t)

/-- No input is forgotten. -/
def Fair (sched : ℕ → ι) : Prop := ∀ i t, ∃ u ≥ t, sched u = i

variable {step} {s : σ} {sched : ℕ → ι} {t u : ℕ}

/-- The first inputs are a run. -/
theorem trace_eq_run (s : σ) (sched : ℕ → ι) (t : ℕ) :
    trace step s sched t = run step s ((List.range t).map sched) := by
  induction t with
  | zero => rfl
  | succ t ih => rw [List.range_succ, List.map_append, List.map_singleton, run_snoc, ← ih, trace]

/-- A state that no step changes is the last one. -/
theorem trace_of_still (h : ∀ i, step (trace step s sched t) i = trace step s sched t)
    (hu : t ≤ u) : trace step s sched u = trace step s sched t := by
  induction u, hu using Nat.le_induction with
  | base => rfl
  | succ u _ ih => rw [trace, ih, h]

/-- **A fair schedule comes to a state that no step changes**, if every step that changes
the state makes it smaller. -/
theorem exists_still {r : α → α → Prop} (hr : WellFounded r) (f : σ → α)
    (hstep : ∀ s i, step s i = s ∨ r (f (step s i)) (f s)) (s : σ) (hfair : Fair sched) :
    ∃ t, ∀ i, step (trace step s sched t) i = trace step s sched t := by
  -- from where the state is smallest on, nothing changes
  obtain ⟨-, ⟨t, rfl⟩, hmin⟩ :=
    hr.has_min (Set.range fun t => f (trace step s sched t)) ⟨_, 0, rfl⟩
  have hkept : ∀ u, t ≤ u → trace step s sched u = trace step s sched t := by
    intro u hu
    induction u, hu using Nat.le_induction with
    | base => rfl
    | succ u _ ih =>
        rcases hstep (trace step s sched u) (sched u) with hsame | hdown
        · rw [trace, hsame, ih]
        · rw [ih] at hdown
          refine absurd hdown (hmin _ ⟨u + 1, ?_⟩)
          rw [← ih]
          rfl
  refine ⟨t, fun i => ?_⟩
  obtain ⟨u, hu, rfl⟩ := hfair i t
  have hnext := hkept (u + 1) (Nat.le_succ_of_le hu)
  rwa [trace, hkept u hu] at hnext

end Run

namespace Threads

variable {ε σ α ι : Type}

namespace Prog

/-- What a program may have left to do after one step. -/
inductive Next : Prog ε σ α → Prog ε σ α → Prop where
  | act (update : σ → σ) (next : σ → Prog ε σ α) (s : σ) : Next (next s) (act update next)
  | lock (mode : Mode) (next : Prog ε σ α) : Next next (lock mode next)
  | unlock (mode : Mode) (next : Prog ε σ α) : Next next (unlock mode next)

/-- A program ends however often it is stepped. -/
theorem wellFounded_next : WellFounded (Next : Prog ε σ α → Prog ε σ α → Prop) := by
  constructor
  intro p
  induction p with
  | ret a => exact ⟨_, fun q hq => by cases hq⟩
  | throw e => exact ⟨_, fun q hq => by cases hq⟩
  | act update next ih =>
      refine ⟨_, fun q hq => ?_⟩
      cases hq with
      | act _ _ s => exact ih s
  | lock mode next ih =>
      refine ⟨_, fun q hq => ?_⟩
      cases hq
      exact ih
  | unlock mode next ih =>
      refine ⟨_, fun q hq => ?_⟩
      cases hq
      exact ih

end Prog

namespace System

variable [DecidableEq ι] {S : System ι ε σ α} {i : ι}

/-- A thread steps, or it has ended or waits for the lock. -/
theorem step_cases (S : System ι ε σ α) (i : ι) :
    (∃ q, Prog.Next q (S.prog i) ∧ (S.step i).prog = Function.update S.prog i q) ∨
      S.step i = S ∧ (S.Finished i ∨
        ∃ mode next, S.prog i = .lock mode next ∧ S.lock.lets mode = false) := by
  cases hp : S.prog i with
  | ret a =>
      have hend : S.Finished i := Or.inl ⟨a, hp⟩
      exact Or.inr ⟨step_of_finished hend, Or.inl hend⟩
  | throw e =>
      have hend : S.Finished i := Or.inr ⟨e, hp⟩
      exact Or.inr ⟨step_of_finished hend, Or.inl hend⟩
  | act update next =>
      refine Or.inl ⟨_, .act update next S.state, ?_⟩
      rw [step_act hp]
  | lock mode next =>
      have hstep := step_lock hp
      by_cases hlets : S.lock.lets mode = true
      · rw [if_pos hlets] at hstep
        refine Or.inl ⟨_, .lock mode next, ?_⟩
        rw [hstep]
      · rw [if_neg hlets] at hstep
        exact Or.inr ⟨hstep, Or.inr ⟨mode, next, rfl, Bool.eq_false_iff.mpr hlets⟩⟩
  | unlock mode next =>
      refine Or.inl ⟨_, .unlock mode next, ?_⟩
      rw [step_unlock hp]

theorem Locked.heldBy_of_finished (h : S.Locked) (hend : S.Finished i) :
    S.lock.heldBy i = none := by
  have hdisc := h.disciplined i
  rcases hend with ⟨a, ha⟩ | ⟨e, he⟩
  · rw [ha] at hdisc
    exact hdisc
  · rw [he] at hdisc
    exact hdisc

/-- **Threads that all stand still have ended**: one that waits for the lock would get
it. -/
theorem Locked.finished_of_still (h : S.Locked) (hstill : ∀ i, S.step i = S) (i : ι) :
    S.Finished i := by
  have hcases : ∀ i, S.Finished i ∨
      ∃ mode next, S.prog i = .lock mode next ∧ S.lock.lets mode = false := by
    intro i
    rcases step_cases S i with ⟨q, hnext, hprog⟩ | ⟨-, hend⟩
    · -- its program would be smaller than itself
      rw [hstill i] at hprog
      have hsame : S.prog i = q := by
        rw [hprog, Function.update_self]
      rw [hsame] at hnext
      exact absurd hnext (Prog.wellFounded_next.irrefl.irrefl q)
    · exact hend
  have hfree : S.lock = RWLock.free := by
    apply RWLock.eq_free
    intro j
    rcases hcases j with hend | ⟨mode, next, hlock, -⟩
    · exact h.heldBy_of_finished hend
    · have hdisc := h.disciplined j
      rw [hlock] at hdisc
      exact hdisc.1
  rcases hcases i with hend | ⟨mode, next, -, hwaits⟩
  · exact hend
  · rw [hfree, RWLock.lets_free] at hwaits
    cases hwaits

variable [Fintype ι]

/-- What the threads have left to do, together. -/
def left (S : System ι ε σ α) : Multiset (Prog ε σ α) := Finset.univ.val.map S.prog

theorem map_update_univ (f : ι → Prog ε σ α) (i : ι) (q : Prog ε σ α) :
    Finset.univ.val.map (Function.update f i q) =
      (Finset.univ.erase i).val.map f + {q} := by
  rw [← Finset.insert_erase (Finset.mem_univ i), Finset.insert_val_of_notMem
    (Finset.notMem_erase i _), Multiset.map_cons, Function.update_self,
    Finset.erase_insert_eq_erase, Finset.erase_idem, ← Multiset.singleton_add, add_comm]
  congr 1
  apply Multiset.map_congr rfl
  intro j hj
  exact Function.update_of_ne (Finset.ne_of_mem_erase hj) _ _

/-- One step leaves less to do, or changes nothing. -/
theorem left_step (S : System ι ε σ α) (i : ι) :
    S.step i = S ∨ Relation.CutExpand Prog.Next (S.step i).left S.left := by
  rcases step_cases S i with ⟨q, hnext, hprog⟩ | ⟨hsame, -⟩
  · refine Or.inr ?_
    have hbefore := map_update_univ S.prog i (S.prog i)
    rw [Function.update_eq_self] at hbefore
    rw [left, left, hprog, map_update_univ, hbefore]
    exact Relation.cutExpand_add_single _ hnext
  · exact Or.inl hsame

/-- **A fair scheduler brings all threads to their ends**: from some moment on nothing
changes any more and every thread has ended. -/
theorem exists_finish_of_fair (h : S.Locked) {sched : ℕ → ι} (hfair : Run.Fair sched) :
    ∃ t, (∀ u ≥ t, Run.trace step S sched u = Run.trace step S sched t) ∧
      ∀ i, (Run.trace step S sched t).Finished i := by
  obtain ⟨t, hstill⟩ :=
    Run.exists_still Prog.wellFounded_next.cutExpand left left_step S hfair
  refine ⟨t, fun u hu => Run.trace_of_still hstill hu, ?_⟩
  apply Locked.finished_of_still _ hstill
  rw [Run.trace_eq_run]
  exact h.run _

end System

end Threads
