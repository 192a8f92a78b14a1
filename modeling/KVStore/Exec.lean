/-
# Computations that may throw and keep their state when they do

Java code mutates objects and may leave a method by an exception; what it wrote
before stays written.  `EStateM ε σ` has exactly that behaviour.  This file adds
the few rules the development uses by name: sequencing after a known result,
running a computation on one field of a larger state, and the state a
computation ends in whether it returned or threw.
-/
import Mathlib.Tactic.Common

namespace Exec

variable {ε σ τ α β : Type}

/-- Sequencing after a computation that returned. -/
theorem run_bind_ok {x : EStateM ε σ α} {f : α → EStateM ε σ β} {s s' : σ} {a : α}
    (h : x.run s = .ok a s') : (x >>= f).run s = (f a).run s' := by
  rw [EStateM.run_bind, h]

/-- Sequencing after a computation that threw. -/
theorem run_bind_error {x : EStateM ε σ α} {f : α → EStateM ε σ β} {s s' : σ} {e : ε}
    (h : x.run s = .error e s') : (x >>= f).run s = .error e s' := by
  rw [EStateM.run_bind, h]

/-- Run a computation on the part of the state that `get` reads and `put`
writes back. -/
def zoom (get : σ → τ) (put : τ → σ → σ) (m : EStateM ε τ α) : EStateM ε σ α := fun s =>
  match m.run (get s) with
  | .ok a t => .ok a (put t s)
  | .error e t => .error e (put t s)

theorem run_zoom (get : σ → τ) (put : τ → σ → σ) (m : EStateM ε τ α) (s : σ) :
    (zoom get put m).run s =
      match m.run (get s) with
      | .ok a t => .ok a (put t s)
      | .error e t => .error e (put t s) := rfl

theorem run_zoom_ok {get : σ → τ} {put : τ → σ → σ} {m : EStateM ε τ α} {s : σ} {t : τ}
    {a : α} (h : m.run (get s) = .ok a t) : (zoom get put m).run s = .ok a (put t s) := by
  rw [run_zoom, h]

theorem run_zoom_error {get : σ → τ} {put : τ → σ → σ} {m : EStateM ε τ α} {s : σ} {t : τ}
    {e : ε} (h : m.run (get s) = .error e t) :
    (zoom get put m).run s = .error e (put t s) := by
  rw [run_zoom, h]

/-- The state a computation ends in, whether it returned or threw. -/
def finalState (m : EStateM ε σ α) (s : σ) : σ :=
  match m.run s with
  | .ok _ s' => s'
  | .error _ s' => s'

theorem finalState_ok {m : EStateM ε σ α} {s s' : σ} {a : α} (h : m.run s = .ok a s') :
    finalState m s = s' := by
  rw [finalState, h]

theorem finalState_error {m : EStateM ε σ α} {s s' : σ} {e : ε}
    (h : m.run s = .error e s') : finalState m s = s' := by
  rw [finalState, h]

/-- Computing on the result does not touch the state. -/
theorem finalState_bind_pure (x : EStateM ε σ α) (g : α → β) (s : σ) :
    finalState (x >>= fun a => pure (g a)) s = finalState x s := by
  rcases h : x.run s with ⟨a, s'⟩ | ⟨e, s'⟩
  · have hrun : (x >>= fun a => pure (g a)).run s = .ok (g a) s' := run_bind_ok h
    rw [finalState_ok h, finalState_ok hrun]
  · rw [finalState_error h, finalState_error (run_bind_error h)]

/-- A property of the state that both halves of a sequence keep is kept by the
sequence, also when the first half throws. -/
theorem finalState_bind {P : σ → Prop} {x : EStateM ε σ α} {f : α → EStateM ε σ β} {s : σ}
    (hx : P (finalState x s))
    (hf : ∀ a s', x.run s = .ok a s' → P (finalState (f a) s')) :
    P (finalState (x >>= f) s) := by
  rcases h : x.run s with ⟨a, s'⟩ | ⟨e, s'⟩
  · have := hf a s' h
    rwa [finalState, ← run_bind_ok (f := f) h] at this
  · rw [finalState_error (run_bind_error h)]
    rwa [finalState_error h] at hx

end Exec
