/-
# What a server comes to

Finitely many calls to a server, under a scheduler that goes on for ever and forgets no
thread.  (A thread that waits for a response of a peer is stepped when it has the response
or the exception.)

* `fair_schedules_settle` : all calls are answered, and what the log has gained then is
  exactly what was acknowledged;
* `fair_schedules_end_calls` : all calls end whichever statements fail.
-/
import KVStore.Fairness
import KVStore.FaultyInterleavings

namespace KVStore

open Threads

namespace Concurrent

variable {ι κ Id : Type} [DecidableEq Id] [DecidableEq ι] [DecidableEq κ] [Fintype ι]

/-- A fair schedule comes to a state of a finite one, in which every call has ended. -/
theorem exists_settled (n : RaftNode Id) (tasks : ι → Task Id) {sched : ℕ → ι}
    (hfair : Run.Fair sched) : ∃ first : List ι,
      (∃ t, ∀ u ≥ t, Run.trace System.step (boot n tasks) sched u =
        Run.run System.step (boot n tasks) first) ∧
      ∀ i, (Run.run System.step (boot n tasks) first).Finished i := by
  obtain ⟨t, hstill, hfinished⟩ :=
    System.exists_finish_of_fair (locked_after n tasks []) hfair
  rw [Run.run_nil] at hstill hfinished
  refine ⟨(List.range t).map sched, ?_⟩
  rw [← Run.trace_eq_run]
  exact ⟨⟨t, hstill⟩, hfinished⟩

omit [Fintype ι] in
/-- A call that has ended has been answered, or a statement has failed. -/
theorem answered_or_failed {sure : Prop} {n : RaftNode Id} (h : n.Ready sure)
    (tasks : ι → Task Id) (sched : List ι) {i : ι}
    (hend : (Run.run System.step (boot n tasks) sched).Finished i) :
    (∃ a, ((Run.run System.step (boot n tasks) sched).prog i).returned = some a) ∨
      ¬ sure ∧ ∃ message, (Run.run System.step (boot n tasks) sched).prog i =
        .throw (.runtimeException message) := by
  obtain ⟨hsound, -⟩ := sound_after h tasks sched
  rcases hend with ⟨a, ha⟩ | ⟨e, he⟩
  · exact Or.inl ⟨a, by rw [ha]; rfl⟩
  · obtain ⟨hsure, message, rfl⟩ := hsound.of_throw he
    exact Or.inr ⟨hsure, message, he⟩

/-- **Every call is answered, and exactly the acknowledged puts are in the log.**  Under
every fair schedule of finitely many calls, on a node that any earlier processes have left,
nothing changes from some moment on.  By then every call has been answered, and the log has
gained the entry of each put that was answered `true` once and nothing else. -/
theorem fair_schedules_settle (nodeId : Id) (peerIds : List Id) (lives : List (Lifetime κ Id))
    (tasks : ι → Task Id) (sched : ℕ → ι) (hfair : Run.Fair sched) :
    let n := rebooted nodeId peerIds lives
    ∃ S, (∃ t, ∀ u ≥ t, Run.trace System.step (boot n tasks) sched u = S) ∧
      (∀ i, ∃ a, (S.prog i).returned = some a) ∧
      ∃ order : List ι, order.Nodup ∧
        pairs S.state.node.log = pairs n.log ++ order.flatMap (fun i => (tasks i).puts) ∧
        ∀ i, i ∈ order ↔ (S.prog i).returned = some (.put ⟨true⟩) := by
  intro n
  have hready : n.Ready True := ready_rebooted nodeId peerIds lives
  obtain ⟨first, hstill, hfinished⟩ := exists_settled n tasks hfair
  obtain ⟨hsound, -⟩ := sound_after hready tasks first
  obtain ⟨hputs, hanswered⟩ := authors_after hready tasks first
  have hreturned : ∀ i, ∃ a,
      ((Run.run System.step (boot n tasks) first).prog i).returned = some a := by
    intro i
    rcases answered_or_failed hready tasks first (hfinished i) with ha | ⟨hfailed, -⟩
    · exact ha
    · exact absurd trivial hfailed
  refine ⟨_, hstill, hreturned, _, hsound.inv.nodup, hsound.inv.log_eq,
    fun i => ⟨fun hi => ?_, fun hi => ?_⟩⟩
  · -- an author is a put, and it has been answered
    obtain ⟨key, value, htask⟩ := hputs i hi
    obtain ⟨a, ha⟩ := hreturned i
    have hq := hsound.of_ret (Prog.eq_ret_of_returned ha)
    rw [htask] at hq
    obtain ⟨b, rfl, hb⟩ := hq
    rw [ha, hb.mpr hi]
  · exact (hanswered i true hi).mp rfl

theorem mod_four_lt (t : ℕ) : t % 4 < 4 := by omega

/-- One step of each thread in turn. -/
def roundRobin (t : ℕ) : Fin 4 := ⟨t % 4, mod_four_lt t⟩

theorem fair_roundRobin : Run.Fair roundRobin := by
  intro i t
  refine ⟨4 * t + i, by omega, Fin.ext ?_⟩
  show (4 * t + i) % 4 = i
  omega

/-- Two puts in turns. -/
theorem fair_schedules_settle_twoPuts :
    ∃ S, (∃ t, ∀ u ≥ t,
        Run.trace System.step (boot (RaftNode.fresh 0 []) twoPuts) roundRobin u = S) ∧
      (∀ i, ∃ a, (S.prog i).returned = some a) ∧
      ∃ order : List (Fin 4), order.Nodup ∧
        pairs S.state.node.log = [] ++ order.flatMap (fun i => (twoPuts i).puts) ∧
        ∀ i, i ∈ order ↔ (S.prog i).returned = some (.put ⟨true⟩) :=
  fair_schedules_settle 0 [] ([] : List (Lifetime (Fin 4) ℕ)) twoPuts roundRobin fair_roundRobin

end Concurrent

end KVStore
