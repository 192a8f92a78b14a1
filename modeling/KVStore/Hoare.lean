/-
# Pre- and postconditions of computations that may throw

`Triple P m Q E` : from every state with `P` the computation `m` returns in a
state with `Q`, or throws in a state with `E`.  The rules follow the ways a
computation is built; `Triple.finalState` reads a triple as a fact about the
state the computation ends in.

`afterOk x q` asks `q` of what `x` returns and of the state it leaves, if `x`
returns at all.  It states conditions on moments in the middle of a computation
(`Triple.guard` brings them to that moment).
-/
import KVStore.Exec

namespace Exec

variable {ε σ α β : Type}

def Triple (P : σ → Prop) (m : EStateM ε σ α) (Q : α → σ → Prop) (E : σ → Prop) : Prop :=
  ∀ s, P s → match m.run s with
    | .ok a s' => Q a s'
    | .error _ s' => E s'

namespace Triple

variable {P P' : σ → Prop} {Q Q' R : α → σ → Prop} {E E' : σ → Prop} {m x : EStateM ε σ α}

/-- What a run that returns establishes. -/
theorem ok (h : Triple P m Q E) {s s' : σ} {a : α} (hs : P s) (hrun : m.run s = .ok a s') :
    Q a s' := by
  have := h s hs
  rwa [hrun] at this

/-- What a run that throws establishes. -/
theorem error (h : Triple P m Q E) {s s' : σ} {e : ε} (hs : P s) (hrun : m.run s = .error e s') :
    E s' := by
  have := h s hs
  rwa [hrun] at this

/-- Returning a result. -/
theorem pure {a : α} (h : ∀ s, P s → Q a s) : Triple P (Pure.pure a : EStateM ε σ α) Q E :=
  fun s hs => h s hs

/-- Throwing an exception. -/
theorem throw {e : ε} (h : ∀ s, P s → E s) : Triple P (throw e : EStateM ε σ α) Q E :=
  fun s hs => h s hs

/-- Changing the state. -/
theorem modify {g : σ → σ} {Q : Unit → σ → Prop} (h : ∀ s, P s → Q () (g s)) :
    Triple P (modify g : EStateM ε σ Unit) Q E :=
  fun s hs => h s hs

/-- One computation after the other; the first may throw. -/
theorem bind {f : α → EStateM ε σ β} {Q : β → σ → Prop} (hx : Triple P x R E)
    (hf : ∀ a, Triple (R a) (f a) Q E) : Triple P (x >>= f) Q E := by
  intro s hs
  rcases h : x.run s with ⟨a, s'⟩ | ⟨e, s'⟩
  · rw [run_bind_ok h]
    exact hf a s' (hx.ok hs h)
  · rw [run_bind_error h]
    exact hx.error hs h

/-- Reading the state binds it. -/
theorem bind_get {f : σ → EStateM ε σ β} {Q : β → σ → Prop}
    (hf : ∀ s, P s → Triple (fun t => t = s) (f s) Q E) : Triple P (get >>= f) Q E :=
  fun s hs => hf s hs s rfl

/-- Reading the state keeps what is known of it. -/
theorem bind_get_keep {f : σ → EStateM ε σ β} {Q : β → σ → Prop}
    (hf : ∀ s, P s → Triple P (f s) Q E) : Triple P (get >>= f) Q E :=
  fun s hs => hf s hs s hs

/-- The rule of consequence. -/
theorem conseq (h : Triple P m Q E) (hP : ∀ s, P' s → P s) (hQ : ∀ a s, Q a s → Q' a s)
    (hE : ∀ s, E s → E' s) : Triple P' m Q' E' := by
  intro s hs
  have := h s (hP s hs)
  split at this
  · exact hQ _ _ this
  · exact hE _ this

/-- Strengthening what is known before. -/
theorem pre (h : Triple P m Q E) (hP : ∀ s, P' s → P s) : Triple P' m Q E :=
  h.conseq hP (fun _ _ => id) fun _ => id

/-- Weakening what is said of a returned result. -/
theorem post (h : Triple P m Q E) (hQ : ∀ a s, Q a s → Q' a s) : Triple P m Q' E :=
  h.conseq (fun _ => id) hQ fun _ => id

/-- A triple may be proved for one state at a time. -/
theorem of_forall (h : ∀ s, P s → Triple (fun t => t = s) m Q E) : Triple P m Q E :=
  fun s hs => h s hs s rfl

/-- What both ways of ending establish holds of the final state. -/
theorem finalState {T : σ → Prop} (h : Triple P m (fun _ => T) T) {s : σ} (hs : P s) :
    T (finalState m s) := by
  rcases hrun : m.run s with ⟨a, s'⟩ | ⟨e, s'⟩
  · rw [finalState_ok hrun]
    exact h.ok hs hrun
  · rw [finalState_error hrun]
    exact h.error hs hrun

/-- The converse: a fact about the state the computation ends in, read as a triple. -/
theorem of_finalState {T : σ → Prop} (h : ∀ s, P s → T (Exec.finalState m s)) :
    Triple P m (fun _ => T) T := by
  intro s hs
  have hend := h s hs
  rcases hrun : m.run s with ⟨a, s'⟩ | ⟨e, s'⟩
  · rwa [finalState_ok hrun] at hend
  · rwa [finalState_error hrun] at hend

end Triple

/-! ## Conditions in the middle of a computation -/

/-- If `x` returns, its result and the state then meet `q`. -/
def afterOk (x : EStateM ε σ α) (q : α → σ → Bool) (s : σ) : Bool :=
  match x.run s with
  | .ok a s' => q a s'
  | .error _ _ => true

/-- A condition that always holds is met. -/
theorem afterOk_of_forall {x : EStateM ε σ α} {q : α → σ → Bool} (h : ∀ a s, q a s = true)
    (s : σ) : afterOk x q s = true := by
  unfold afterOk
  split
  · exact h _ _
  · rfl

/-- A condition asked after a computation is known once it has returned. -/
theorem Triple.guard {P : σ → Prop} {x : EStateM ε σ α} {R : α → σ → Prop} {E : σ → Prop}
    {q : α → σ → Bool} (h : Triple P x R E) :
    Triple (fun s => P s ∧ afterOk x q s = true) x (fun a s => R a s ∧ q a s = true) E := by
  rintro s ⟨hs, hq⟩
  unfold afterOk at hq
  rcases hrun : x.run s with ⟨a, s'⟩ | ⟨e, s'⟩
  · rw [hrun] at hq
    exact ⟨h.ok hs hrun, hq⟩
  · exact h.error hs hrun

end Exec
