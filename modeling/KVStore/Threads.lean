/-
# Threads that share a state and a read-write lock

A thread is a program that takes one atomic action at a time (`Prog`), with one
read-write lock to hold on to between its actions.  A `System` is a state, the lock
and a program for each thread; a scheduler picks the thread that takes the next
step (`System.step`), in any order.

* `Prog.alone` : what a program does when nothing comes in between, and
  `System.run_alone` : a thread that runs alone in a system does that;
* `Prog.Disciplined` : every lock that is taken is given back and none is taken
  twice; `System.exists_finish` : from every state of disciplined threads some order
  of steps brings all of them to an end, so none is ever stuck for good;
* `Prog.NeedsWrite` : a program that cannot end in certain ways without the write
  lock; it does not end so while another thread holds the read lock.
-/
import Mathlib.Data.List.Nodup
import Mathlib.Logic.Function.Basic
import KVStore.Exec
import KVStore.Run

namespace Threads

/-- How a read-write lock is held. -/
inductive Mode : Type where
  | read
  | write
  deriving DecidableEq, Repr

/-- A program, one atomic action after the other. -/
inductive Prog (ε σ α : Type) : Type where
  | ret (a : α)
  | throw (e : ε)
  /-- Change the state, and go on according to what it was before. -/
  | act (update : σ → σ) (next : σ → Prog ε σ α)
  | lock (mode : Mode) (next : Prog ε σ α)
  | unlock (mode : Mode) (next : Prog ε σ α)

variable {ε σ α β γ : Type}

namespace Prog

/-! ## Programs -/

def bind : Prog ε σ α → (α → Prog ε σ β) → Prog ε σ β
  | ret a, f => f a
  | throw e, _ => throw e
  | act update next, f => act update fun s => bind (next s) f
  | lock mode next, f => lock mode (bind next f)
  | unlock mode next, f => unlock mode (bind next f)

instance : Monad (Prog ε σ) where
  pure := ret
  bind := bind

/-- Returning the result changes nothing. -/
theorem bind_ret (p : Prog ε σ α) : p >>= ret = p := by
  induction p with
  | ret a => rfl
  | throw e => rfl
  | act update next ih => exact congrArg (act update) (funext ih)
  | lock mode next ih => exact congrArg (lock mode) ih
  | unlock mode next ih => exact congrArg (unlock mode) ih

/-- Three programs in a row, bracketed either way. -/
protected theorem bind_assoc (p : Prog ε σ α) (f : α → Prog ε σ β) (g : β → Prog ε σ γ) :
    p >>= f >>= g = p >>= fun a => f a >>= g := by
  induction p with
  | ret a => rfl
  | throw e => rfl
  | act update next ih => exact congrArg (act update) (funext ih)
  | lock mode next ih => exact congrArg (lock mode) ih
  | unlock mode next ih => exact congrArg (unlock mode) ih

instance : LawfulMonad (Prog ε σ) :=
  LawfulMonad.mk' _ bind_ret (fun _ _ => rfl) Prog.bind_assoc

/-- A computation that nothing can interrupt. -/
def atomic (m : EStateM ε σ α) : Prog ε σ α :=
  act (Exec.finalState m) fun s =>
    match m.run s with
    | .ok a _ => ret a
    | .error e _ => throw e

/-- `p`, and then `last` whether it returned or threw. -/
def tryFinally (p : Prog ε σ α) (last : Prog ε σ Unit) : Prog ε σ α :=
  match p with
  | ret a => last >>= fun _ => ret a
  | throw e => last >>= fun _ => throw e
  | act update next => act update fun s => tryFinally (next s) last
  | lock mode next => lock mode (tryFinally next last)
  | unlock mode next => unlock mode (tryFinally next last)

/-- `lock(); try { p } finally { unlock(); }` -/
def locked (mode : Mode) (p : Prog ε σ α) : Prog ε σ α :=
  lock mode (tryFinally p (unlock mode (ret ())))

/-- What the program has returned, if it has. -/
def returned : Prog ε σ α → Option α
  | ret a => some a
  | _ => none

/-- The program that has ended with the given result. -/
def ended {τ : Type} : EStateM.Result ε τ α → Prog ε σ α
  | .ok a _ => ret a
  | .error e _ => throw e

/-- A program that has returned is its result. -/
theorem eq_ret_of_returned {p : Prog ε σ α} {a : α} (h : p.returned = some a) : p = ret a := by
  cases p with
  | ret b => exact congrArg ret (Option.some.inj h)
  | throw e => cases h
  | act update next => cases h
  | lock mode next => cases h
  | unlock mode next => cases h

/-! ## Running alone -/

/-- What the program does when no other thread takes a step in between. -/
def alone : Prog ε σ α → EStateM ε σ α
  | ret a, s => .ok a s
  | throw e, s => .error e s
  | act update next, s => alone (next s) (update s)
  | lock _ next, s => alone next s
  | unlock _ next, s => alone next s

/-- Alone, two programs in a row are two computations in a row. -/
theorem alone_bind (p : Prog ε σ α) (f : α → Prog ε σ β) :
    (p >>= f).alone = p.alone >>= fun a => (f a).alone := by
  funext s
  induction p generalizing s with
  | ret a => rfl
  | throw e => rfl
  | act update next ih => exact ih s (update s)
  | lock mode next ih => exact ih s
  | unlock mode next ih => exact ih s

/-- Alone, an atomic action is its computation. -/
@[simp] theorem alone_atomic (m : EStateM ε σ α) : (atomic m).alone = m := by
  funext s
  show (match m.run s with | .ok a _ => ret a | .error e _ => throw e : Prog ε σ α).alone
    (Exec.finalState m s) = m.run s
  unfold Exec.finalState
  cases m.run s <;> rfl

/-- Giving the lock back does not touch the state. -/
theorem alone_tryFinally (p : Prog ε σ α) (mode : Mode) :
    (tryFinally p (unlock mode (ret ()))).alone = p.alone := by
  funext s
  induction p generalizing s with
  | ret a => rfl
  | throw e => rfl
  | act update next ih => exact ih s (update s)
  | lock mode next ih => exact ih s
  | unlock mode next ih => exact ih s

/-- Alone, a critical section is its body. -/
@[simp] theorem alone_locked (mode : Mode) (p : Prog ε σ α) :
    (locked mode p).alone = p.alone := by
  funext s
  exact congrFun (alone_tryFinally p mode) s

end Prog

/-! ## Systems of threads -/

/-- The lock, with the threads that hold it. -/
structure RWLock (ι : Type) where
  readers : List ι
  writer : Option ι
  deriving DecidableEq, Repr

variable {ι : Type}

namespace RWLock

def free : RWLock ι := ⟨[], none⟩

/-- Whether a thread that holds nothing gets the lock. -/
def lets (l : RWLock ι) : Mode → Bool
  | .read => l.writer.isNone
  | .write => l.writer.isNone && l.readers.isEmpty

def acquire (l : RWLock ι) (i : ι) : Mode → RWLock ι
  | .read => { l with readers := i :: l.readers }
  | .write => { l with writer := some i }

variable [DecidableEq ι]

def release (l : RWLock ι) (i : ι) : Mode → RWLock ι
  | .read => { l with readers := l.readers.erase i }
  | .write => { l with writer := none }

/-- How a thread holds the lock. -/
def heldBy (l : RWLock ι) (i : ι) : Option Mode :=
  if l.writer = some i then some .write else if i ∈ l.readers then some .read else none

end RWLock

/-- A shared state, the lock, and what each thread still has to do. -/
structure System (ι ε σ α : Type) where
  state : σ
  lock : RWLock ι
  prog : ι → Prog ε σ α

namespace System

variable [DecidableEq ι] {S : System ι ε σ α}

/-- Thread `i` takes its next step, if it has one and gets the lock it asks for. -/
def step (S : System ι ε σ α) (i : ι) : System ι ε σ α :=
  match S.prog i with
  | .ret _ => S
  | .throw _ => S
  | .act update next =>
      { S with state := update S.state, prog := Function.update S.prog i (next S.state) }
  | .lock mode next =>
      if S.lock.lets mode then
        { S with lock := S.lock.acquire i mode, prog := Function.update S.prog i next }
      else S
  | .unlock mode next =>
      { S with lock := S.lock.release i mode, prog := Function.update S.prog i next }

omit [DecidableEq ι] in
/-- The system in which nothing has happened yet. -/
def start (s : σ) (prog : ι → Prog ε σ α) : System ι ε σ α := ⟨s, RWLock.free, prog⟩

omit [DecidableEq ι] in
/-- The thread has returned or thrown. -/
def Finished (S : System ι ε σ α) (i : ι) : Prop :=
  (∃ a, S.prog i = .ret a) ∨ ∃ e, S.prog i = .throw e

/-- The system in which thread `i` has ended with the given result. -/
def settle (S : System ι ε σ α) (i : ι) : EStateM.Result ε σ α → System ι ε σ α
  | .ok a s => { S with state := s, prog := Function.update S.prog i (.ret a) }
  | .error e s => { S with state := s, prog := Function.update S.prog i (.throw e) }

/-- A step of one thread leaves the code of every other alone. -/
theorem prog_step_ne {i j : ι} (h : j ≠ i) : (S.step i).prog j = S.prog j := by
  unfold step
  split
  · rfl
  · rfl
  · exact Function.update_of_ne h _ _
  · split
    · exact Function.update_of_ne h _ _
    · rfl
  · exact Function.update_of_ne h _ _

/-- A thread that takes no step has its whole program before it. -/
theorem prog_run_of_notMem {i : ι} {sched : List ι} (h : i ∉ sched) :
    (Run.run step S sched).prog i = S.prog i := by
  induction sched generalizing S with
  | nil => rfl
  | cons j sched ih =>
      have hij : i ≠ j := fun hc => h (hc ▸ List.mem_cons_self)
      rw [Run.run_cons, ih fun hc => h (List.mem_cons_of_mem _ hc), prog_step_ne hij]

/-- An action is taken whoever holds the lock. -/
theorem step_act {i : ι} {u : σ → σ} {k : σ → Prog ε σ α} (h : S.prog i = .act u k) :
    S.step i = ⟨u S.state, S.lock, Function.update S.prog i (k S.state)⟩ := by
  rw [step, h]

/-- The lock is taken where it lets the thread in; otherwise the thread waits. -/
theorem step_lock {i : ι} {m : Mode} {k : Prog ε σ α} (h : S.prog i = .lock m k) :
    S.step i = if S.lock.lets m then
      ⟨S.state, S.lock.acquire i m, Function.update S.prog i k⟩ else S := by
  rw [step, h]

/-- Giving the lock back is always possible. -/
theorem step_unlock {i : ι} {m : Mode} {k : Prog ε σ α} (h : S.prog i = .unlock m k) :
    S.step i = ⟨S.state, S.lock.release i m, Function.update S.prog i k⟩ := by
  rw [step, h]

/-- A thread that is done takes no more steps. -/
theorem step_of_finished {i : ι} (h : S.Finished i) : S.step i = S := by
  unfold step
  rcases h with ⟨a, h⟩ | ⟨e, h⟩ <;> rw [h]

end System

/-! ## Lock discipline -/

namespace Prog

/-- A program that holds the lock as `h` says, gives it back before it ends, and
takes it only while it does not hold it. -/
def Disciplined : Prog ε σ α → Option Mode → Prop
  | ret _, h => h = none
  | throw _, h => h = none
  | act _ next, h => ∀ s, Disciplined (next s) h
  | lock mode next, h => h = none ∧ Disciplined next (some mode)
  | unlock mode next, h => h = some mode ∧ Disciplined next none

/-- A program that does not touch the lock. -/
def LockFree : Prog ε σ α → Prop
  | ret _ => True
  | throw _ => True
  | act _ next => ∀ s, LockFree (next s)
  | lock _ _ => False
  | unlock _ _ => False

/-- Discipline of two programs in a row: the first gives back what it holds. -/
theorem Disciplined.bind {p : Prog ε σ α} {h : Option Mode} {f : α → Prog ε σ β}
    (hp : p.Disciplined h) (hf : ∀ a, (f a).Disciplined none) : (p >>= f).Disciplined h := by
  induction p generalizing h with
  | ret a =>
      obtain rfl : h = none := hp
      exact hf a
  | throw e => exact hp
  | act update next ih => exact fun s => ih s (hp s)
  | lock mode next ih => exact ⟨hp.1, ih hp.2⟩
  | unlock mode next ih => exact ⟨hp.1, ih hp.2⟩

/-- An atomic action touches no lock. -/
theorem lockFree_atomic (m : EStateM ε σ α) : (atomic m).LockFree := by
  intro s
  show (match m.run s with | .ok a _ => ret a | .error e _ => throw e : Prog ε σ α).LockFree
  cases m.run s <;> trivial

/-- Nor do two such programs in a row. -/
theorem LockFree.bind {p : Prog ε σ α} {f : α → Prog ε σ β} (hp : p.LockFree)
    (hf : ∀ a, (f a).LockFree) : (p >>= f).LockFree := by
  induction p with
  | ret a => exact hf a
  | throw e => trivial
  | act update next ih => exact fun s => ih s (hp s)
  | lock mode next => exact absurd hp id
  | unlock mode next => exact absurd hp id

/-- A program that touches no lock is disciplined where it holds none. -/
theorem LockFree.disciplined {p : Prog ε σ α} (hp : p.LockFree) : p.Disciplined none := by
  induction p with
  | ret a => rfl
  | throw e => rfl
  | act update next ih => exact fun s => ih s (hp s)
  | lock mode next => exact absurd hp id
  | unlock mode next => exact absurd hp id

/-- `try`/`finally` gives the lock back however the body ends. -/
theorem LockFree.disciplined_locked {p : Prog ε σ α} (hp : p.LockFree) (mode : Mode) :
    (p.locked mode).Disciplined none := by
  refine ⟨rfl, ?_⟩
  induction p with
  | ret a => exact ⟨rfl, rfl⟩
  | throw e => exact ⟨rfl, rfl⟩
  | act update next ih => exact fun s => ih s (hp s)
  | lock mode next => exact absurd hp id
  | unlock mode next => exact absurd hp id

end Prog

namespace RWLock

variable {l : RWLock ι} {i j : ι} {mode : Mode}

/-- A free lock lets everyone in. -/
theorem lets_free (mode : Mode) : (free : RWLock ι).lets mode = true := by
  cases mode <;> rfl

/-- Readers are let in where nobody writes. -/
theorem lets_read_iff : l.lets .read = true ↔ l.writer = none := Option.isNone_iff_eq_none

/-- A writer is let in where nobody holds the lock. -/
theorem lets_write_iff : l.lets .write = true ↔ l = free := by
  obtain ⟨readers, writer⟩ := l
  simp [lets, free, and_comm]

/-- Held by one writer or by readers, and by each reader once. -/
structure WellFormed (l : RWLock ι) : Prop where
  exclusive : ∀ i, l.writer = some i → l.readers = []
  nodup : l.readers.Nodup

/-- The free lock is well formed. -/
theorem wellFormed_free : (free : RWLock ι).WellFormed :=
  ⟨fun _ _ => rfl, List.nodup_nil⟩

variable [DecidableEq ι]

/-- Who writes. -/
theorem heldBy_eq_write_iff : l.heldBy i = some .write ↔ l.writer = some i := by
  unfold heldBy
  split_ifs <;> simp_all

/-- Who reads. -/
theorem heldBy_eq_read_iff : l.heldBy i = some .read ↔ l.writer ≠ some i ∧ i ∈ l.readers := by
  unfold heldBy
  split_ifs <;> simp_all

/-- Who does neither. -/
theorem heldBy_eq_none_iff : l.heldBy i = none ↔ l.writer ≠ some i ∧ i ∉ l.readers := by
  unfold heldBy
  split_ifs <;> simp_all

/-- Nobody holds the lock. -/
theorem eq_free (h : ∀ i, l.heldBy i = none) : l = free := by
  obtain ⟨readers, writer⟩ := l
  have hreaders : readers = [] := by
    apply List.eq_nil_iff_forall_not_mem.mpr
    intro i
    exact (heldBy_eq_none_iff.mp (h i)).2
  have hwriter : writer = none := by
    apply Option.eq_none_iff_forall_not_mem.mpr
    intro i hi
    exact (heldBy_eq_none_iff.mp (h i)).1 hi
  rw [hreaders, hwriter]
  rfl

/-- A thread that is let in holds the lock. -/
theorem heldBy_acquire_self (hlets : l.lets mode = true) :
    (l.acquire i mode).heldBy i = some mode := by
  cases mode with
  | read =>
      have hwriter := lets_read_iff.mp hlets
      exact heldBy_eq_read_iff.mpr ⟨by simp [acquire, hwriter], List.mem_cons_self⟩
  | write => exact heldBy_eq_write_iff.mpr rfl

/-- Taking the lock changes nobody else's hold. -/
theorem heldBy_acquire_ne (hlets : l.lets mode = true) (hij : j ≠ i) :
    (l.acquire i mode).heldBy j = l.heldBy j := by
  cases mode with
  | read => simp [heldBy, acquire, hij]
  | write =>
      -- nobody held it
      obtain rfl := lets_write_iff.mp hlets
      simp [heldBy, acquire, free, hij.symm]

/-- Taking the lock keeps it well formed. -/
theorem WellFormed.acquire (h : l.WellFormed) (hnone : l.heldBy i = none)
    (hlets : l.lets mode = true) : (l.acquire i mode).WellFormed := by
  cases mode with
  | read =>
      have hwriter := lets_read_iff.mp hlets
      refine ⟨fun j hj => ?_, List.nodup_cons.mpr ⟨(heldBy_eq_none_iff.mp hnone).2, h.nodup⟩⟩
      rw [RWLock.acquire, hwriter] at hj
      cases hj
  | write =>
      obtain rfl := lets_write_iff.mp hlets
      exact ⟨fun _ _ => rfl, List.nodup_nil⟩

/-- A thread that gives the lock back holds nothing. -/
theorem WellFormed.heldBy_release_self (h : l.WellFormed) (hheld : l.heldBy i = some mode) :
    (l.release i mode).heldBy i = none := by
  cases mode with
  | read =>
      obtain ⟨hwriter, -⟩ := heldBy_eq_read_iff.mp hheld
      exact heldBy_eq_none_iff.mpr ⟨hwriter, h.nodup.not_mem_erase⟩
  | write =>
      have hreaders := h.exclusive i (heldBy_eq_write_iff.mp hheld)
      exact heldBy_eq_none_iff.mpr ⟨by simp [release], by simp [release, hreaders]⟩

/-- Giving the lock back changes nobody else's hold. -/
theorem WellFormed.heldBy_release_ne (h : l.WellFormed) (hheld : l.heldBy i = some mode)
    (hij : j ≠ i) : (l.release i mode).heldBy j = l.heldBy j := by
  cases mode with
  | read => simp [heldBy, release, List.mem_erase_of_ne hij]
  | write =>
      have hwriter := heldBy_eq_write_iff.mp hheld
      have hreaders := h.exclusive i hwriter
      simp [heldBy, release, hwriter, hreaders, hij.symm]

/-- Giving the lock back keeps it well formed. -/
theorem WellFormed.release (h : l.WellFormed) (i : ι) (mode : Mode) :
    (l.release i mode).WellFormed := by
  cases mode with
  | read =>
      refine ⟨fun j hj => ?_, h.nodup.erase i⟩
      show l.readers.erase i = []
      rw [h.exclusive j hj]
      rfl
  | write => exact ⟨fun _ hj => (nomatch hj), h.nodup⟩

end RWLock

namespace System

variable [DecidableEq ι] {S : System ι ε σ α} {i j : ι}

/-- Every thread is disciplined, given what it holds. -/
structure Locked (S : System ι ε σ α) : Prop where
  disciplined : ∀ i, (S.prog i).Disciplined (S.lock.heldBy i)
  wellFormed : S.lock.WellFormed

/-- Nobody holds the lock at the start. -/
theorem locked_start (s : σ) {prog : ι → Prog ε σ α} (h : ∀ i, (prog i).Disciplined none) :
    (start s prog).Locked :=
  ⟨h, RWLock.wellFormed_free⟩

/-- What a thread holds changes by its own steps only. -/
theorem Locked.heldBy_step_ne (h : S.Locked) (hij : j ≠ i) :
    (S.step i).lock.heldBy j = S.lock.heldBy j := by
  have hdisc := h.disciplined i
  cases hp : S.prog i with
  | ret a => rw [step_of_finished (Or.inl ⟨a, hp⟩)]
  | throw e => rw [step_of_finished (Or.inr ⟨e, hp⟩)]
  | act update next => rw [step_act hp]
  | lock mode next =>
      rw [step_lock hp]
      split_ifs with hlets
      · exact RWLock.heldBy_acquire_ne hlets hij
      · rfl
  | unlock mode next =>
      rw [hp] at hdisc
      rw [step_unlock hp]
      exact h.wellFormed.heldBy_release_ne hdisc.1 hij

/-- **One step keeps the discipline.** -/
theorem Locked.step (h : S.Locked) (i : ι) : (S.step i).Locked := by
  have hdisc := h.disciplined i
  -- the other threads hold what they held and have to do what they had to
  have hothers : ∀ p : Prog ε σ α, (S.step i).prog = Function.update S.prog i p →
      p.Disciplined ((S.step i).lock.heldBy i) → (S.step i).lock.WellFormed →
      (S.step i).Locked := by
    intro p hprog hown hlock
    refine ⟨fun j => ?_, hlock⟩
    rw [hprog]
    by_cases hj : j = i
    · subst hj
      rw [Function.update_self]
      exact hown
    · rw [Function.update_of_ne hj, h.heldBy_step_ne hj]
      exact h.disciplined j
  cases hp : S.prog i with
  | ret a =>
      rw [step_of_finished (Or.inl ⟨a, hp⟩)]
      exact h
  | throw e =>
      rw [step_of_finished (Or.inr ⟨e, hp⟩)]
      exact h
  | act update next =>
      rw [hp] at hdisc
      have hstep := step_act hp
      refine hothers _ (congrArg System.prog hstep) ?_ ?_
      · rw [hstep]
        exact hdisc S.state
      · rw [hstep]
        exact h.wellFormed
  | lock mode next =>
      rw [hp] at hdisc
      have hstep := step_lock hp
      by_cases hlets : S.lock.lets mode = true
      · rw [if_pos hlets] at hstep
        refine hothers _ (congrArg System.prog hstep) ?_ ?_
        · rw [hstep, RWLock.heldBy_acquire_self hlets]
          exact hdisc.2
        · rw [hstep]
          exact h.wellFormed.acquire hdisc.1 hlets
      · rw [if_neg hlets] at hstep
        rw [hstep]
        exact h
  | unlock mode next =>
      rw [hp] at hdisc
      have hstep := step_unlock hp
      refine hothers _ (congrArg System.prog hstep) ?_ ?_
      · rw [hstep, h.wellFormed.heldBy_release_self hdisc.1]
        exact hdisc.2
      · rw [hstep]
        exact h.wellFormed.release i mode

/-- Whatever the schedule, the lock is held by those whose code says so. -/
theorem Locked.run (h : S.Locked) (sched : List ι) : (Run.run System.step S sched).Locked :=
  Run.run_invariant (fun _ i hT => hT.step i) h sched

/-! ### Every thread can be brought to its end -/

/-- One step and the rest of the steps. -/
theorem exists_run_of_step {r : EStateM.Result ε σ α} {q : Prog ε σ α}
    (hprog : (S.step i).prog = Function.update S.prog i q)
    (h : ∃ k, Run.run step (S.step i) (List.replicate k i)
      = { (S.step i).settle i r with lock := RWLock.free }) :
    ∃ k, Run.run step S (List.replicate k i) = { S.settle i r with lock := RWLock.free } := by
  obtain ⟨k, hk⟩ := h
  refine ⟨k + 1, ?_⟩
  rw [List.replicate_succ, Run.run_cons, hk]
  cases r <;> simp only [settle, hprog, Function.update_idem]

/-- **A thread that nobody is in the way of runs as it runs alone.** -/
theorem run_alone (h : S.Locked) (hfree : ∀ j ≠ i, S.lock.heldBy j = none) :
    ∃ k, Run.run step S (List.replicate k i)
      = { S.settle i ((S.prog i).alone S.state) with lock := RWLock.free } := by
  -- by induction on what the thread has left to do
  generalize hp : S.prog i = p
  induction p generalizing S with
  | ret a =>
      have hdisc := h.disciplined i
      rw [hp] at hdisc
      refine ⟨0, ?_⟩
      rw [List.replicate_zero, Run.run_nil]
      show S = ⟨S.state, RWLock.free, Function.update S.prog i (.ret a)⟩
      rw [← hp, Function.update_eq_self, ← RWLock.eq_free fun j => ?_]
      by_cases hj : j = i
      · rw [hj]
        exact hdisc
      · exact hfree j hj
  | throw e =>
      have hdisc := h.disciplined i
      rw [hp] at hdisc
      refine ⟨0, ?_⟩
      rw [List.replicate_zero, Run.run_nil]
      show S = ⟨S.state, RWLock.free, Function.update S.prog i (.throw e)⟩
      rw [← hp, Function.update_eq_self, ← RWLock.eq_free fun j => ?_]
      by_cases hj : j = i
      · rw [hj]
        exact hdisc
      · exact hfree j hj
  | act update next ih =>
      have hstep := step_act hp
      refine exists_run_of_step (congrArg System.prog hstep) ?_
      have hih := ih S.state (h.step i) (fun j hj => by
        rw [h.heldBy_step_ne hj]
        exact hfree j hj) (by rw [hstep]; exact Function.update_self ..)
      rw [hstep] at hih ⊢
      exact hih
  | lock mode next ih =>
      have hdisc := h.disciplined i
      rw [hp] at hdisc
      have hlock : S.lock = RWLock.free := by
        apply RWLock.eq_free
        intro j
        by_cases hj : j = i
        · rw [hj]
          exact hdisc.1
        · exact hfree j hj
      have hstep := step_lock hp
      rw [hlock, RWLock.lets_free, if_pos rfl] at hstep
      refine exists_run_of_step (congrArg System.prog hstep) ?_
      have hih := ih (h.step i) (fun j hj => by
        rw [h.heldBy_step_ne hj]
        exact hfree j hj) (by rw [hstep]; exact Function.update_self ..)
      rw [hstep] at hih ⊢
      exact hih
  | unlock mode next ih =>
      have hstep := step_unlock hp
      refine exists_run_of_step (congrArg System.prog hstep) ?_
      have hih := ih (h.step i) (fun j hj => by
        rw [h.heldBy_step_ne hj]
        exact hfree j hj) (by rw [hstep]; exact Function.update_self ..)
      rw [hstep] at hih ⊢
      exact hih

/-- A thread that holds the lock waits for nobody, and gives it back. -/
theorem exists_release (h : S.Locked) (i : ι) :
    ∃ k, (Run.run step S (List.replicate k i)).lock.heldBy i = none ∧
      ∀ j ≠ i, (Run.run step S (List.replicate k i)).lock.heldBy j = S.lock.heldBy j := by
  -- one step, and then the rest
  have hcons : ∀ {T : System ι ε σ α}, T.Locked → (∃ k,
      (Run.run step (T.step i) (List.replicate k i)).lock.heldBy i = none ∧ ∀ j ≠ i,
        (Run.run step (T.step i) (List.replicate k i)).lock.heldBy j = (T.step i).lock.heldBy j) →
      ∃ k, (Run.run step T (List.replicate k i)).lock.heldBy i = none ∧
        ∀ j ≠ i, (Run.run step T (List.replicate k i)).lock.heldBy j = T.lock.heldBy j := by
    rintro T hT ⟨k, hnone, hothers⟩
    refine ⟨k + 1, ?_⟩
    rw [List.replicate_succ, Run.run_cons]
    exact ⟨hnone, fun j hj => (hothers j hj).trans (hT.heldBy_step_ne hj)⟩
  by_cases hheld : S.lock.heldBy i = none
  · exact ⟨0, hheld, fun _ _ => rfl⟩
  · generalize hp : S.prog i = p
    have hdisc := h.disciplined i
    rw [hp] at hdisc
    induction p generalizing S with
    | ret a => exact absurd hdisc hheld
    | throw e => exact absurd hdisc hheld
    | lock mode next => exact absurd hdisc.1 hheld
    | act update next ih =>
        have hstep := step_act hp
        refine hcons h (ih S.state (h.step i) ?_ ?_ ?_)
        · rw [hstep]
          exact hheld
        · rw [hstep]
          exact Function.update_self ..
        · rw [hstep]
          exact hdisc S.state
    | unlock mode next =>
        refine hcons h ⟨0, ?_, fun _ _ => rfl⟩
        show (S.step i).lock.heldBy i = none
        rw [step_unlock hp]
        exact h.wellFormed.heldBy_release_self hdisc.1

/-- Some order of steps makes all of the given threads give back what they hold. -/
theorem exists_releases (h : S.Locked) (is : List ι) :
    ∃ sched, ∀ j, (Run.run step S sched).lock.heldBy j
      = if j ∈ is then none else S.lock.heldBy j := by
  induction is generalizing S with
  | nil => exact ⟨[], fun j => by simp⟩
  | cons i is ih =>
      obtain ⟨k, hnone, hothers⟩ := exists_release h i
      obtain ⟨sched, hsched⟩ := ih (h.run (List.replicate k i))
      refine ⟨List.replicate k i ++ sched, fun j => ?_⟩
      rw [Run.run_append, hsched]
      by_cases hj : j = i
      · subst hj
        simp [hnone]
      · simp [hothers j hj, hj]

/-- Some order of steps frees the lock. -/
theorem exists_free (h : S.Locked) : ∃ sched, (Run.run step S sched).lock = RWLock.free := by
  obtain ⟨sched, hsched⟩ := exists_releases h (S.lock.readers ++ S.lock.writer.toList)
  refine ⟨sched, RWLock.eq_free fun j => ?_⟩
  rw [hsched]
  split_ifs with hj
  · rfl
  · rw [List.mem_append, not_or, Option.mem_toList] at hj
    exact RWLock.heldBy_eq_none_iff.mpr ⟨hj.2, hj.1⟩

/-- A thread that has been brought to its end is done, and so is everyone who was. -/
theorem finished_settle (S : System ι ε σ α) (i : ι) (l : RWLock ι)
    (r : EStateM.Result ε σ α) (hj : j = i ∨ S.Finished j) :
    System.Finished { S.settle i r with lock := l } j := by
  by_cases hij : j = i
  · subst hij
    cases r with
    | ok a s => exact Or.inl ⟨a, Function.update_self ..⟩
    | error e s => exact Or.inr ⟨e, Function.update_self ..⟩
  · have hkeep : ({ S.settle i r with lock := l } : System ι ε σ α).prog j = S.prog j := by
      cases r <;> exact Function.update_of_ne hij _ _
    unfold Finished
    rw [hkeep]
    exact hj.resolve_left hij

/-- **No thread is ever stuck for good.**  From every state of disciplined threads some
order of steps brings any of them to their ends. -/
theorem exists_finish (h : S.Locked) (is : List ι) :
    ∃ sched, ∀ i ∈ is, (Run.run step S sched).Finished i := by
  -- first the lock is given back, then one thread after the other runs alone
  obtain ⟨before, hfree⟩ := exists_free h
  suffices hafter : ∀ T : System ι ε σ α, T.Locked → T.lock = RWLock.free →
      ∃ sched, ∀ i, i ∈ is ∨ T.Finished i → (Run.run step T sched).Finished i by
    obtain ⟨sched, hsched⟩ := hafter _ (h.run before) hfree
    refine ⟨before ++ sched, fun i hi => ?_⟩
    rw [Run.run_append]
    exact hsched i (Or.inl hi)
  induction is with
  | nil => exact fun T _ _ => ⟨[], fun i hi => hi.resolve_left List.not_mem_nil⟩
  | cons i is ih =>
      intro T hT hfree
      obtain ⟨k, hk⟩ := run_alone hT (i := i) (fun j _ => by rw [hfree]; rfl)
      obtain ⟨sched, hsched⟩ := ih _ (hT.run (List.replicate k i)) (by rw [hk])
      refine ⟨List.replicate k i ++ sched, fun j hj => ?_⟩
      rw [Run.run_append]
      apply hsched
      rw [hk]
      rcases hj with hj | hj
      · rcases List.mem_cons.mp hj with rfl | hj
        · exact Or.inr (finished_settle T j _ _ (Or.inl rfl))
        · exact Or.inl hj
      · exact Or.inr (finished_settle T i _ _ (Or.inr hj))

end System

/-! ## Waiting for the write lock -/

namespace Prog

/-- A program that takes the write lock before it returns a result with `Q`, whatever
states with `I` it finds. -/
def NeedsWrite (I : σ → Prop) (Q : α → Prop) : Prog ε σ α → Prop
  | ret a => ¬ Q a
  | throw _ => True
  | act _ next => ∀ s, I s → NeedsWrite I Q (next s)
  | lock .read next => NeedsWrite I Q next
  | lock .write _ => True
  | unlock _ next => NeedsWrite I Q next

variable {I : σ → Prop}

/-- What the first part may return without the lock leads to nothing with `Q`. -/
theorem NeedsWrite.bind {p : Prog ε σ α} {R : α → Prop} {Q : β → Prop} {f : α → Prog ε σ β}
    (h : p.NeedsWrite I R) (hf : ∀ a, ¬ R a → (f a).NeedsWrite I Q) :
    (p >>= f).NeedsWrite I Q := by
  induction p with
  | ret a => exact hf a h
  | throw e => trivial
  | act update next ih => exact fun s hs => ih s (h s hs)
  | lock mode next ih =>
      cases mode with
      | read => exact ih h
      | write => trivial
  | unlock mode next ih => exact ih h

/-- What comes after the first part does not return with `Q` without the lock. -/
theorem needsWrite_bind {Q : β → Prop} (p : Prog ε σ α) {f : α → Prog ε σ β}
    (h : ∀ a, (f a).NeedsWrite I Q) : (p >>= f).NeedsWrite I Q := by
  induction p with
  | ret a => exact h a
  | throw e => trivial
  | act update next ih => exact fun s _ => ih s
  | lock mode next ih =>
      cases mode with
      | read => exact ih
      | write => trivial
  | unlock mode next ih => exact ih

end Prog

namespace System

variable [DecidableEq ι] {S : System ι ε σ α} {i j : ι} {I : σ → Prop} {Q : α → Prop}

/-- A reader that takes no step keeps the lock. -/
theorem mem_readers_step {k : ι} (hj : j ∈ S.lock.readers) (hjk : j ≠ k) :
    j ∈ (S.step k).lock.readers := by
  cases hp : S.prog k with
  | ret a => rwa [step_of_finished (Or.inl ⟨a, hp⟩)]
  | throw e => rwa [step_of_finished (Or.inr ⟨e, hp⟩)]
  | act update next => rwa [step_act hp]
  | lock mode next =>
      rw [step_lock hp]
      split_ifs
      · cases mode with
        | read => exact List.mem_cons_of_mem _ hj
        | write => exact hj
      · exact hj
  | unlock mode next =>
      rw [step_unlock hp]
      cases mode with
      | read => exact (List.mem_erase_of_ne hjk).mpr hj
      | write => exact hj

/-- While there is a reader, nobody takes the write lock. -/
theorem needsWrite_step (hj : j ∈ S.lock.readers) (hI : I S.state)
    (hi : (S.prog i).NeedsWrite I Q) (k : ι) : ((S.step k).prog i).NeedsWrite I Q := by
  by_cases hik : i = k
  · subst hik
    cases hp : S.prog i with
    | ret a => rwa [step_of_finished (Or.inl ⟨a, hp⟩)]
    | throw e => rwa [step_of_finished (Or.inr ⟨e, hp⟩)]
    | act update next =>
        rw [hp] at hi
        rw [step_act hp]
        show (Function.update S.prog i (next S.state) i).NeedsWrite I Q
        rw [Function.update_self]
        exact hi S.state hI
    | lock mode next =>
        rw [step_lock hp]
        split_ifs with hlets
        · cases mode with
          | read =>
              rw [hp] at hi
              show (Function.update S.prog i next i).NeedsWrite I Q
              rw [Function.update_self]
              exact hi
          | write =>
              -- a reader keeps the writer out
              rw [RWLock.lets_write_iff.mp hlets] at hj
              cases hj
        · exact hi
    | unlock mode next =>
        rw [hp] at hi
        rw [step_unlock hp]
        show (Function.update S.prog i next i).NeedsWrite I Q
        rw [Function.update_self]
        exact hi
  · rwa [prog_step_ne hik]

/-- **While a thread holds the read lock and takes no step, a thread that needs the
write lock does not get past it.** -/
theorem needsWrite_run (hj : j ∈ S.lock.readers) (hi : (S.prog i).NeedsWrite I Q)
    (hI : ∀ sched : List ι, I (Run.run step S sched).state) {sched : List ι} (hsched : j ∉ sched) :
    ((Run.run step S sched).prog i).NeedsWrite I Q := by
  induction sched generalizing S with
  | nil => exact hi
  | cons k sched ih =>
      have hjk : j ≠ k := fun hc => hsched (hc ▸ List.mem_cons_self)
      have hrest : j ∉ sched := fun hc => hsched (List.mem_cons_of_mem _ hc)
      exact ih (mem_readers_step hj hjk) (needsWrite_step hj (hI []) hi k)
        (fun later => hI (k :: later)) hrest

end System

end Threads
