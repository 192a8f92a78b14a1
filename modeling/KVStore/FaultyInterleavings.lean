/-
# Interleavings in which statements fail

The threads of a server as before, but any statement of any thread may fail, in this
process and in those before it.  A failed read ends its call in an exception or counts
as `0`, and a failed write is passed over or ends its call; the exception that gets out
of a call still gives back the lock it holds.
-/
import KVStore.Scheduling

namespace KVStore

open Threads

namespace Concurrent

variable {ι Id : Type}

/-- The fate of the statements of a process.  `fails` goes through them in the order in
which they come, whichever thread issues them; those beyond its end succeed. -/
def outcomes (fails : List Bool) : List Outcome :=
  fails.map fun failed => if failed then .fails else .succeeds

theorem crashes_notMem_outcomes (fails : List Bool) : .crashes ∉ outcomes fails := by
  intro hmem
  obtain ⟨failed, -, h⟩ := List.mem_map.mp hmem
  cases failed <;> cases h

/-- A lifetime with its failed statements. -/
structure FaultyLifetime (ι Id : Type) extends Lifetime ι Id where
  fails : List Bool

variable [DecidableEq Id] [DecidableEq ι]

/-- The threads at the end of the lifetime. -/
def FaultyLifetime.threads (n : RaftNode Id) (life : FaultyLifetime ι Id) :
    System ι JavaException (Shared ι Id) Answer :=
  Run.run System.step (boot (n.facing (outcomes life.fails)) life.tasks) life.sched

/-- The node of the next process. -/
def FaultyLifetime.reboot (n : RaftNode Id) (life : FaultyLifetime ι Id) : RaftNode Id :=
  (life.threads n).state.node.restart

/-- The node that a server comes up with after the given lifetimes. -/
abbrev rebootedFaulty (nodeId : Id) (peerIds : List Id) (lives : List (FaultyLifetime ι Id)) :
    RaftNode Id :=
  Run.run FaultyLifetime.reboot (RaftNode.fresh nodeId peerIds) lives

omit [DecidableEq ι] in
theorem ready_facing {n : RaftNode Id} (h : n.Ready False) (fails : List Bool) :
    (n.facing (outcomes fails)).Ready False where
  healthy := False.elim
  survives := crashes_notMem_outcomes fails
  nextIdx_pos := h.nextIdx_pos
  inReach := h.inReach
  commitIndex_nonneg := h.commitIndex_nonneg
  committed := h.committed
  applied := ⟨h.applied.nonneg, h.applied.le, h.applied.present⟩
  sourced := h.sourced

theorem ready_rebootedFaulty (nodeId : Id) (peerIds : List Id)
    (lives : List (FaultyLifetime ι Id)) : (rebootedFaulty nodeId peerIds lives).Ready False := by
  apply Run.run_invariant (P := RaftNode.Ready False) _ (RaftNode.ready_fresh nodeId peerIds)
  intro n life hn
  exact (sound_after (ready_facing hn life.fails) life.tasks life.sched).1.inv.ready.restart

/-! ## Main results -/

/-- **A put that fails takes effect at most once.**  Whichever statements fail, what the log
has gained since the process began are the entries of different puts: every put that was
answered `true` is among them once, none that was answered `false` is, and one that ended in
an exception may or may not be.  A get finds nothing but what was in the log or has been
put. -/
theorem faulty_puts_take_effect_at_most_once (nodeId : Id) (peerIds : List Id)
    (lives : List (FaultyLifetime ι Id)) (life : FaultyLifetime ι Id) :
    let n := rebootedFaulty nodeId peerIds lives
    let S := life.threads n
    (∃ authors : List ι, authors.Nodup ∧
      pairs S.state.node.log = pairs n.log ++ authors.flatMap (fun i => (life.tasks i).puts) ∧
      (∀ i ∈ authors, ∃ key value, life.tasks i = .put key value) ∧
      (∀ i, (S.prog i).returned = some (.put ⟨true⟩) → i ∈ authors) ∧
      ∀ i, (S.prog i).returned = some (.put ⟨false⟩) → i ∉ authors) ∧
    ∀ j key r, life.tasks j = .get key → (S.prog j).returned = some (.get r) → r.found = true →
      (key, r.value) ∈ pairs n.log ∨ ∃ i, life.tasks i = .put key r.value := by
  intro n S
  have hready := ready_facing (ready_rebootedFaulty nodeId peerIds lives) life.fails
  obtain ⟨hsound, -⟩ := sound_after hready life.tasks life.sched
  obtain ⟨hputs, hanswered⟩ := authors_after hready life.tasks life.sched
  constructor
  · refine ⟨S.state.authors, hsound.inv.nodup, hsound.inv.log_eq, hputs, ?_, ?_⟩
    · exact fun i hi => (hanswered i true hi).mp rfl
    · exact fun i hi hmem => Bool.false_ne_true ((hanswered i false hi).mpr hmem)
  · intro j key r htask hr hfound
    exact get_after hready life.tasks life.sched htask hr hfound

/-- One call after the other. -/
def inTurn : List (Fin 4) := (List.finRange 4).flatMap fun i => List.replicate 60 i

/-- A put whose entry is in the log when a statement after it fails. -/
def failedPut : FaultyLifetime (Fin 4) ℕ := ⟨⟨twoPuts, inTurn⟩, [false, false, true]⟩

example :
    let S := failedPut.threads (RaftNode.fresh 0 [])
    (S.prog 1).returned = none ∧ (S.prog 2).returned = some (.put ⟨true⟩) ∧
      pairs S.state.node.log = [("k", "a"), ("k", "b")] := by
  decide +kernel

end Concurrent

end KVStore
