/-
# What threads rely on from each other

A `Sharing` is an invariant of the state that threads share, together with what
every action keeps of the state before it and what each thread relies on from the
others.  `Sharing.Triple` are pre- and postconditions of programs under that reliance:
the condition between two actions of a thread has to survive whatever the others do
(`Sharing.Stable`).  `Sharing.sound_run` lifts them to every interleaving.
-/
import KVStore.Threads

namespace Threads

variable {ε σ α β ι : Type}

/-! ## Relying on the other threads -/

/-- An invariant of the shared state, what every action keeps of the state before
it, and what thread `i` may rely on the other threads to keep for it. -/
structure Sharing (ι σ : Type) where
  inv : σ → Prop
  keeps : σ → σ → Prop
  spares : ι → σ → σ → Prop
  keeps_refl : ∀ s, keeps s s
  keeps_trans : ∀ s t u, keeps s t → keeps t u → keeps s u
  spares_refl : ∀ i s, spares i s s
  spares_trans : ∀ i s t u, spares i s t → spares i t u → spares i s u

namespace Sharing

variable (C : Sharing ι σ)

/-- What the other threads may do while thread `i` waits. -/
def Rely (i : ι) (s s' : σ) : Prop := C.inv s' ∧ C.keeps s s' ∧ C.spares i s s'

/-- What thread `i` may do. -/
def Guar (i : ι) (s s' : σ) : Prop := C.inv s' ∧ C.keeps s s' ∧ ∀ j ≠ i, C.spares j s s'

/-- The rest of the program of thread `i` keeps to what the others rely on, ends
with `Q`, and throws with `E`. -/
def Safe (i : ι) (Q : α → σ → Prop) (E : ε → σ → Prop) : Prog ε σ α → σ → Prop
  | .ret a, s => ∀ s', C.Rely i s s' → Q a s'
  | .throw e, s => ∀ s', C.Rely i s s' → E e s'
  | .act update next, s => ∀ s', C.Rely i s s' →
      C.Guar i s' (update s') ∧ Safe i Q E (next s') (update s')
  | .lock _ next, s => ∀ s', C.Rely i s s' → Safe i Q E next s'
  | .unlock _ next, s => ∀ s', C.Rely i s s' → Safe i Q E next s'

/-- A condition that the other threads do not break. -/
def Stable (i : ι) (P : σ → Prop) : Prop := ∀ s s', P s → C.Rely i s s' → P s'

/-- From every state with `P` the program is safe. -/
def Triple (i : ι) (P : σ → Prop) (p : Prog ε σ α) (Q : α → σ → Prop) (E : ε → σ → Prop) : Prop :=
  ∀ s, C.inv s → P s → C.Safe i Q E p s

/-- A condition that no action of any thread breaks. -/
def Kept (P : σ → Prop) : Prop := ∀ s s', C.keeps s s' → P s → P s'

variable {C} {i : ι} {P P' : σ → Prop} {Q Q' : α → σ → Prop} {E : ε → σ → Prop}

/-- What every step keeps is stable for every thread. -/
theorem Kept.stable (h : C.Kept P) : C.Stable i P := fun s s' hs hr => h s s' hr.2.1 hs

/-- Two facts that are kept are kept together. -/
theorem Kept.and (h : C.Kept P) (h' : C.Kept P') : C.Kept fun s => P s ∧ P' s :=
  fun s s' hk hs => ⟨h s s' hk hs.1, h' s s' hk hs.2⟩

/-- What is not about the state is kept. -/
theorem kept_const (p : Prop) : C.Kept fun _ => p := fun _ _ _ => id

/-- The others may do nothing. -/
theorem Rely.refl {s : σ} (h : C.inv s) : C.Rely i s s :=
  ⟨h, C.keeps_refl s, C.spares_refl i s⟩

/-- The others may take several steps. -/
theorem Rely.trans {s t u : σ} (h : C.Rely i s t) (h' : C.Rely i t u) : C.Rely i s u :=
  ⟨h'.1, C.keeps_trans _ _ _ h.2.1 h'.2.1, C.spares_trans _ _ _ _ h.2.2 h'.2.2⟩

/-- A step that does nothing is guaranteed. -/
theorem Guar.refl {s : σ} (h : C.inv s) : C.Guar i s s :=
  ⟨h, C.keeps_refl s, fun j _ => C.spares_refl j s⟩

/-- What another thread guarantees is what this one relies on. -/
theorem Guar.rely {j : ι} {s s' : σ} (h : C.Guar j s s') (hij : i ≠ j) : C.Rely i s s' :=
  ⟨h.1, h.2.1, h.2.2 i hij⟩

/-- A safe thread stays safe while it waits. -/
theorem Safe.wait {p : Prog ε σ α} {s s' : σ} (h : C.Safe i Q E p s) (hs : C.Rely i s s') :
    C.Safe i Q E p s' := by
  cases p with
  | ret a => exact fun t ht => h t (hs.trans ht)
  | throw e => exact fun t ht => h t (hs.trans ht)
  | act update next => exact fun t ht => h t (hs.trans ht)
  | lock mode next => exact fun t ht => h t (hs.trans ht)
  | unlock mode next => exact fun t ht => h t (hs.trans ht)

/-- Safety of one program after another. -/
theorem Safe.bind {R : β → σ → Prop} {p : Prog ε σ α} {f : α → Prog ε σ β} {s : σ}
    (h : C.Safe i Q E p s) (hf : ∀ a s, C.inv s → Q a s → C.Safe i R E (f a) s)
    (hs : C.inv s) : C.Safe i R E (p >>= f) s := by
  induction p generalizing s with
  | ret a => exact hf a s hs (h s (Rely.refl hs))
  | throw e => exact h
  | act update next ih =>
      intro t ht
      obtain ⟨hguar, hnext⟩ := h t ht
      exact ⟨hguar, ih t hnext hguar.1⟩
  | lock mode next ih => exact fun t ht => ih (h t ht) ht.1
  | unlock mode next ih => exact fun t ht => ih (h t ht) ht.1

/-- Safety with less to say of the result. -/
theorem Safe.post {p : Prog ε σ α} {s : σ} (h : C.Safe i Q E p s)
    (hQ : ∀ a s, C.inv s → Q a s → Q' a s) : C.Safe i Q' E p s := by
  induction p generalizing s with
  | ret a => exact fun t ht => hQ a t ht.1 (h t ht)
  | throw e => exact h
  | act update next ih => exact fun t ht => ⟨(h t ht).1, ih t (h t ht).2⟩
  | lock mode next ih => exact fun t ht => ih (h t ht)
  | unlock mode next ih => exact fun t ht => ih (h t ht)

/-- A condition that every action keeps stays true to the end. -/
theorem Safe.frame {F : σ → Prop} (hF : C.Kept F) {p : Prog ε σ α}
    {s : σ} (h : C.Safe i Q E p s) (hs : F s) : C.Safe i (fun a s => Q a s ∧ F s) E p s := by
  induction p generalizing s with
  | ret a => exact fun t ht => ⟨h t ht, hF s t ht.2.1 hs⟩
  | throw e => exact h
  | act update next ih =>
      intro t ht
      obtain ⟨hguar, hnext⟩ := h t ht
      exact ⟨hguar, ih t hnext (hF t _ hguar.2.1 (hF s t ht.2.1 hs))⟩
  | lock mode next ih => exact fun t ht => ih (h t ht) (hF s t ht.2.1 hs)
  | unlock mode next ih => exact fun t ht => ih (h t ht) (hF s t ht.2.1 hs)

/-- Giving a lock back changes nothing the thread knows. -/
theorem Safe.tryFinally {p : Prog ε σ α} {s : σ} (h : C.Safe i Q E p s) (mode : Mode) :
    C.Safe i Q E (p.tryFinally (.unlock mode (.ret ()))) s := by
  induction p generalizing s with
  | ret a => exact fun t ht u hu => h u (ht.trans hu)
  | throw e => exact fun t ht u hu => h u (ht.trans hu)
  | act update next ih =>
      intro t ht
      obtain ⟨hguar, hnext⟩ := h t ht
      exact ⟨hguar, ih t hnext⟩
  | lock mode next ih => exact fun t ht => ih (h t ht)
  | unlock mode next ih => exact fun t ht => ih (h t ht)

namespace Triple

/-- Returning a result. -/
theorem ret {a : α} (hP : C.Stable i P) (h : ∀ s, C.inv s → P s → Q a s) :
    C.Triple i P (.ret a) Q E :=
  fun s _ hs t ht => h t ht.1 (hP s t hs ht)

/-- One program after another. -/
theorem bind {R : β → σ → Prop} {p : Prog ε σ α} {f : α → Prog ε σ β}
    (hp : C.Triple i P p Q E) (hf : ∀ a, C.Triple i (Q a) (f a) R E) :
    C.Triple i P (p >>= f) R E :=
  fun s hinv hs => (hp s hinv hs).bind (fun a t ht hQ => hf a t ht hQ) hinv

/-- In sequence, with what the first part found beside what was known before. -/
theorem bind_frame {R : β → σ → Prop} {p : Prog ε σ α} {f : α → Prog ε σ β}
    (hP : C.Kept P) (hp : C.Triple i P p Q E)
    (hf : ∀ a, C.Triple i (fun s => Q a s ∧ P s) (f a) R E) : C.Triple i P (p >>= f) R E :=
  bind (fun s hinv hs => (hp s hinv hs).frame hP hs) hf

/-- In sequence, where the first part needs nothing. -/
theorem bind_always {R : β → σ → Prop} {p : Prog ε σ α} {f : α → Prog ε σ β}
    (hP : C.Kept P) (hp : C.Triple i (fun _ => True) p Q E)
    (hf : ∀ a, C.Triple i (fun s => Q a s ∧ P s) (f a) R E) : C.Triple i P (p >>= f) R E :=
  bind_frame hP (fun s hinv _ => hp s hinv trivial) hf

/-- Strengthening what is known before, with the invariant at hand. -/
theorem pre {p : Prog ε σ α} (h : C.Triple i P p Q E) (hP : ∀ s, C.inv s → P' s → P s) :
    C.Triple i P' p Q E :=
  fun s hinv hs => h s hinv (hP s hinv hs)

/-- Weakening what is said of the result, with the invariant at hand. -/
theorem post {p : Prog ε σ α} (h : C.Triple i P p Q E) (hQ : ∀ a s, C.inv s → Q a s → Q' a s) :
    C.Triple i P p Q' E :=
  fun s hinv hs => (h s hinv hs).post hQ

/-- One atomic computation. -/
theorem atomic {m : EStateM ε σ α} (hP : C.Stable i P) (hQ : ∀ a, C.Stable i (Q a))
    (hE : ∀ e, C.Stable i (E e))
    (h : ∀ s, C.inv s → P s → match m.run s with
      | .ok a s' => C.Guar i s s' ∧ Q a s'
      | .error e s' => C.Guar i s s' ∧ E e s') :
    C.Triple i P (.atomic m) Q E := by
  intro s _ hs t ht
  have hstep := h t ht.1 (hP s t hs ht)
  show C.Guar i t (Exec.finalState m t) ∧ C.Safe i Q E
    (match m.run t with | .ok a _ => .ret a | .error e _ => .throw e) (Exec.finalState m t)
  rcases hrun : m.run t with ⟨a, t'⟩ | ⟨e, t'⟩
  · rw [hrun] at hstep
    rw [Exec.finalState_ok hrun]
    exact ⟨hstep.1, fun u hu => hQ a t' u hstep.2 hu⟩
  · rw [hrun] at hstep
    rw [Exec.finalState_error hrun]
    exact ⟨hstep.1, fun u hu => hE e t' u hstep.2 hu⟩

/-- The lock is no matter of the triple. -/
theorem locked {p : Prog ε σ α} (h : C.Triple i P p Q E) (mode : Mode) :
    C.Triple i P (p.locked mode) Q E :=
  fun s hinv hs _ ht => ((h s hinv hs).wait ht).tryFinally mode

end Triple

/-! ### Every interleaving -/

variable {Q : ι → α → σ → Prop} {E : ι → ε → σ → Prop} {S : System ι ε σ α}

variable (C) in
/-- The state meets the invariant and every thread is safe from here on. -/
structure Sound (Q : ι → α → σ → Prop) (E : ι → ε → σ → Prop) (S : System ι ε σ α) : Prop where
  inv : C.inv S.state
  safe : ∀ i, C.Safe i (Q i) (E i) (S.prog i) S.state

variable [DecidableEq ι]

/-- A thread that is known to end with more. -/
theorem Sound.update (h : C.Sound Q E S) {i : ι} {R : α → σ → Prop}
    (hi : C.Safe i R (E i) (S.prog i) S.state) : C.Sound (Function.update Q i R) E S := by
  refine ⟨h.inv, fun j => ?_⟩
  by_cases hj : j = i
  · subst hj
    rw [Function.update_self]
    exact hi
  · rw [Function.update_of_ne hj]
    exact h.safe j

/-- A step of thread `i` that leaves it safe. -/
theorem Sound.of_guar (h : C.Sound Q E S) {i : ι} {s' : σ} {l : RWLock ι} {p : Prog ε σ α}
    (hguar : C.Guar i S.state s') (hp : C.Safe i (Q i) (E i) p s') :
    C.Sound Q E ⟨s', l, Function.update S.prog i p⟩ := by
  refine ⟨hguar.1, fun j => ?_⟩
  show C.Safe j (Q j) (E j) (Function.update S.prog i p j) s'
  by_cases hj : j = i
  · subst hj
    rw [Function.update_self]
    exact hp
  · rw [Function.update_of_ne hj]
    exact (h.safe j).wait (hguar.rely hj)

/-- **One step of the scheduler.** -/
theorem Sound.step (h : C.Sound Q E S) (i : ι) :
    C.Sound Q E (S.step i) ∧ C.Guar i S.state (S.step i).state := by
  have hsafe := h.safe i
  have hstay := Rely.refl (i := i) h.inv
  cases hp : S.prog i with
  | ret a =>
      rw [System.step_of_finished (Or.inl ⟨a, hp⟩)]
      exact ⟨h, Guar.refl h.inv⟩
  | throw e =>
      rw [System.step_of_finished (Or.inr ⟨e, hp⟩)]
      exact ⟨h, Guar.refl h.inv⟩
  | act update next =>
      rw [hp] at hsafe
      obtain ⟨hguar, hnext⟩ := hsafe S.state hstay
      rw [System.step_act hp]
      exact ⟨h.of_guar hguar hnext, hguar⟩
  | lock mode next =>
      rw [hp] at hsafe
      rw [System.step_lock hp]
      split_ifs
      · exact ⟨h.of_guar (Guar.refl h.inv) (hsafe S.state hstay), Guar.refl h.inv⟩
      · exact ⟨h, Guar.refl h.inv⟩
  | unlock mode next =>
      rw [hp] at hsafe
      rw [System.step_unlock hp]
      exact ⟨h.of_guar (Guar.refl h.inv) (hsafe S.state hstay), Guar.refl h.inv⟩

/-- **Every interleaving**: the invariant holds throughout, everything an action must
keep is kept, and every thread stays safe. -/
theorem sound_run (h : C.Sound Q E S) (sched : List ι) :
    C.Sound Q E (Run.run System.step S sched) ∧
      C.keeps S.state (Run.run System.step S sched).state := by
  refine Run.run_invariant (P := fun T : System ι ε σ α => C.Sound Q E T ∧
    C.keeps S.state T.state) ?_ ⟨h, C.keeps_refl _⟩ sched
  rintro T i ⟨hT, hkeeps⟩
  obtain ⟨hnext, hguar⟩ := hT.step i
  exact ⟨hnext, C.keeps_trans _ _ _ hkeeps hguar.2.1⟩

omit [DecidableEq ι] in
/-- A thread that has returned ends with its postcondition. -/
theorem Sound.of_ret (h : C.Sound Q E S) {i : ι} {a : α} (hp : S.prog i = .ret a) :
    Q i a S.state := by
  have hsafe := h.safe i
  rw [hp] at hsafe
  exact hsafe _ (Rely.refl h.inv)

omit [DecidableEq ι] in
/-- A thread that has thrown has established what an exception means. -/
theorem Sound.of_throw (h : C.Sound Q E S) {i : ι} {e : ε} (hp : S.prog i = .throw e) :
    E i e S.state := by
  have hsafe := h.safe i
  rw [hp] at hsafe
  exact hsafe _ (Rely.refl h.inv)

end Sharing

end Threads
