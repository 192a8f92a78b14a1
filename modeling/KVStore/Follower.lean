/-
# The state machine of a follower

A run of `appendEntries` calls on one node, each built from some leader's log
the way `sendAppendEntries` builds its arguments (`LeaderCall.request`).  The
leader's logs may change from call to call; each must agree with the node's log
up to the commit index and match it by terms, in the state the call arrives in
(`LeaderCall.Admissible`).

An accepted call either leaves the log alone or replaces it by the leader's log
(`splice_of_accept`), and in both cases the committed entries stay.  So one call
keeps `UpToDate` and everything committed (`Keeps`), and the run follows by
induction.
-/
import KVStore.Events

namespace KVStore

open Role Splice RaftNode

variable {Id : Type}

/-! ## Calls built from a leader's log -/

/-- An `appendEntries` call and the leader log it was built from. -/
structure LeaderCall (Id : Type) where
  leaderLog : List LogEntry
  nextIdx : ℤ
  term : ℤ
  leaderId : Id
  leaderCommit : ℤ

namespace LeaderCall

/-- The arguments of the call. -/
def request (c : LeaderCall Id) : AppendEntriesRequest Id :=
  ⟨c.leaderId, c.term, c.nextIdx - 1, termAt c.leaderLog (c.nextIdx - 1),
    c.leaderLog.drop (c.nextIdx - 1).toNat, c.leaderCommit⟩

/-- What `sendAppendEntries` computes is such a call, with the sender's log. -/
theorem request_requestFrom (n : RaftNode Id) (i : ℤ) (f : Id) :
    (LeaderCall.mk n.log i n.state.currentTerm f n.commitIndex).request = n.requestFrom i f := rfl

/-- The leader's log fits the node's log when the call arrives. -/
def Admissible (n : RaftNode Id) (c : LeaderCall Id) : Prop :=
  1 ≤ c.nextIdx ∧ c.nextIdx ≤ c.leaderLog.length + 1 ∧
    c.leaderCommit ≤ c.leaderLog.length ∧
    c.leaderLog.take n.commitIndex.toNat = n.log.take n.commitIndex.toNat ∧
    Matching LogEntry.term n.log c.leaderLog

instance (n : RaftNode Id) (c : LeaderCall Id) : Decidable (c.Admissible n) :=
  inferInstanceAs (Decidable (_ ∧ _))

/-- The node after the call. -/
def deliver [DecidableEq Id] (n : RaftNode Id) (c : LeaderCall Id) : RaftNode Id :=
  n.step (.appendEntries c.request)

end LeaderCall

/-! ## One call -/

/-- The test of `appendEntries` passes only where the two logs agree. -/
theorem take_eq_of_accept {l L : List LogEntry} (hm : Matching LogEntry.term l L) {i : ℤ}
    (hi : 0 ≤ i) (hiL : i ≤ L.length) (h : mismatch l i (termAt L i) = false) :
    i.toNat ≤ l.length ∧ l.take i.toNat = L.take i.toNat := by
  obtain ⟨hlen, hterm⟩ := mismatch_eq_false_iff.mp h
  refine ⟨by omega, ?_⟩
  rcases eq_or_lt_of_le hi with rfl | hpos
  · rfl
  · obtain ⟨p, rfl⟩ : ∃ p : ℕ, i = (p : ℤ) + 1 := ⟨(i - 1).toNat, by omega⟩
    have hp : p < l.length := by omega
    have hpL : p < L.length := by omega
    have hx : l[p]? = some l[p] := List.getElem?_eq_getElem hp
    have hy : L[p]? = some L[p] := List.getElem?_eq_getElem hpL
    rw [termAt, entryAt_succ, entryAt_succ, hx, hy] at hterm
    have heq : l[p].term = L[p].term := Option.some.inj (hterm hpos)
    exact hm p _ _ hx hy heq

/-- **What an accepted call does to the log**: the leader's log is in it already,
or replaces it. -/
theorem splice_of_accept {l L : List LogEntry} (hm : Matching LogEntry.term l L) {i : ℤ}
    (hi : 0 ≤ i) (hiL : i ≤ L.length) (h : mismatch l i (termAt L i) = false) :
    (L <+: l ∧ splice LogEntry.term l i.toNat (L.drop i.toNat) = l) ∨
      splice LogEntry.term l i.toNat (L.drop i.toNat) = L := by
  obtain ⟨hp, hpre⟩ := take_eq_of_accept hm hi hiL h
  exact splice_drop_of_matching hm hp hpre

namespace RaftNode

/-- From `n` to `n'` nothing committed is lost. -/
structure Keeps (n n' : RaftNode Id) : Prop where
  commitIndex_le : n.commitIndex ≤ n'.commitIndex
  take_log : n'.log.take n.commitIndex.toNat = n.log.take n.commitIndex.toNat

theorem Keeps.refl (n : RaftNode Id) : Keeps n n := ⟨le_rfl, rfl⟩

theorem Keeps.trans {n n' n'' : RaftNode Id} (h : Keeps n n') (h' : Keeps n' n'') :
    Keeps n n'' := by
  constructor
  · exact h.commitIndex_le.trans h'.commitIndex_le
  · have hle := Int.toNat_le_toNat h.commitIndex_le
    calc n''.log.take n.commitIndex.toNat
        = (n''.log.take n'.commitIndex.toNat).take n.commitIndex.toNat := by
          rw [List.take_take, min_eq_left hle]
      _ = (n'.log.take n'.commitIndex.toNat).take n.commitIndex.toNat := by rw [h'.take_log]
      _ = n'.log.take n.commitIndex.toNat := by rw [List.take_take, min_eq_left hle]
      _ = n.log.take n.commitIndex.toNat := h.take_log

variable {n : RaftNode Id}

theorem UpToDate.observed (h : n.UpToDate) (t : ℤ) : (n.observed t).UpToDate :=
  ⟨h.nonneg, h.applied_eq, h.committed_le, h.kvStore_eq⟩

/-- Merging a log that keeps the committed entries. -/
theorem UpToDate.merged (h : n.UpToDate) {req : AppendEntriesRequest Id}
    (hkeep : (splice LogEntry.term n.log req.prevLogIndex.toNat req.entries).take
        n.commitIndex.toNat = n.log.take n.commitIndex.toNat) :
    (n.merged req).UpToDate ∧ Keeps n (n.merged req) := by
  have hup := h.withLog hkeep
  refine ⟨hup.commitFollowed _, ?_, ?_⟩
  · have hle := commitIndex_le_commitFollowed hup req.leaderCommit
    simpa [RaftNode.merged] using hle
  · rw [log_merged]
    exact hkeep

/-- **One call.**  It does not throw, keeps what is committed, and leaves the
table the replay of the committed entries. -/
theorem run_appendEntries_admissible (h : n.Healthy) (hup : n.UpToDate) {c : LeaderCall Id}
    (hc : c.Admissible n) :
    ∃ b n', (appendEntries c.request).run n = .ok b n' ∧ n'.Healthy ∧ n'.UpToDate ∧
      Keeps n n' := by
  obtain ⟨hidx, hidx', -, hagree, hmatch⟩ := hc
  have ha : 0 ≤ n.lastApplied := by
    rw [hup.applied_eq]
    exact hup.nonneg
  by_cases hstale : c.request.term < n.state.currentTerm
  · exact ⟨false, n, run_appendEntries_of_stale h ha hstale, h, hup, Keeps.refl n⟩
  by_cases hmis : mismatch n.log c.request.prevLogIndex c.request.prevLogTerm = true
  · exact ⟨false, _, run_appendEntries_of_mismatch h ha hstale hmis, h, hup.observed _,
      ⟨le_rfl, rfl⟩⟩
  · have hacc : mismatch n.log (c.nextIdx - 1) (termAt c.leaderLog (c.nextIdx - 1)) = false := by
      exact eq_false_of_ne_true hmis
    -- the new log is the old one or the leader's, which agree on what is committed
    have hkeep : (splice LogEntry.term n.log c.request.prevLogIndex.toNat c.request.entries).take
        n.commitIndex.toNat = n.log.take n.commitIndex.toNat := by
      rcases splice_of_accept hmatch (by omega) (by omega) hacc with ⟨-, hsame⟩ | hnew
      · exact congrArg (List.take n.commitIndex.toNat) hsame
      · exact (congrArg (List.take n.commitIndex.toNat) hnew).trans hagree
    obtain ⟨hup', hkeeps⟩ := (hup.observed c.request.term).merged hkeep
    refine ⟨true, _, run_appendEntries_of_accept h ha hstale hacc (show 0 ≤ c.nextIdx - 1 by omega),
      ?_, hup', hkeeps.1, hkeeps.2⟩
    rw [healthy_merged]
    exact h

/-! ## A whole run -/

variable [DecidableEq Id]

theorem deliver_of_admissible (h : n.Healthy) (hup : n.UpToDate) {c : LeaderCall Id}
    (hc : c.Admissible n) :
    (∃ b, (appendEntries c.request).run n = .ok b (c.deliver n)) ∧
      (c.deliver n).Healthy ∧ (c.deliver n).UpToDate ∧ Keeps n (c.deliver n) := by
  obtain ⟨b, n', hrun, hh, hup', hkeeps⟩ := run_appendEntries_admissible h hup hc
  have hdeliver : c.deliver n = n' := by
    rw [LeaderCall.deliver, step_appendEntries, Exec.finalState_ok hrun]
  rw [hdeliver]
  exact ⟨⟨b, hrun⟩, hh, hup', hkeeps⟩

/-- A run of admissible calls keeps what was committed before it. -/
theorem keeps_run (h : n.Healthy) (hup : n.UpToDate) {calls : List (LeaderCall Id)}
    (hcalls : Run.Along LeaderCall.deliver LeaderCall.Admissible n calls) :
    (Run.run LeaderCall.deliver n calls).Healthy ∧
      (Run.run LeaderCall.deliver n calls).UpToDate ∧
      Keeps n (Run.run LeaderCall.deliver n calls) := by
  induction calls generalizing n with
  | nil => exact ⟨h, hup, Keeps.refl n⟩
  | cons c calls ih =>
      obtain ⟨hc, hrest⟩ := hcalls
      obtain ⟨-, hh, hup', hkeeps⟩ := deliver_of_admissible h hup hc
      obtain ⟨hh', hup'', hkeeps'⟩ := ih hh hup' hrest
      exact ⟨hh', hup'', hkeeps.trans hkeeps'⟩

omit [DecidableEq Id] in
/-- A node of any role and term on an empty storage is up to date. -/
theorem upToDate_of_empty (h : n.storage = SQLiteStorage.create none) :
    n.Healthy ∧ n.UpToDate := by
  refine ⟨?_, ?_, ?_, ?_, ?_⟩
  · rw [← storage_healthy, h]
    rfl
  · rw [← storage_commitIndex, h]
    decide
  · rw [← storage_commitIndex, ← storage_lastApplied, h]
    rfl
  · rw [← storage_commitIndex, ← storage_log, h]
    decide
  · rw [← storage_commitIndex, ← storage_log, ← storage_kvStore, h]
    rfl

/-- **The follower state machine.**  In every run of admissible calls on a node
that starts with an empty storage, no call throws; from any moment to the end of
the run the commit index and the applied index do not go down and no committed
entry is changed or removed; and at the end the applied entries are the committed
ones, all of them in the log, with the table their replay in order, so that the
last writer of each key wins. -/
theorem follower_state_machine (n : RaftNode Id) (hn : n.storage = SQLiteStorage.create none)
    (calls : List (LeaderCall Id))
    (hcalls : Run.Along LeaderCall.deliver LeaderCall.Admissible n calls) :
    let after := Run.run LeaderCall.deliver n
    let last := after calls
    (∀ p c, p ++ [c] <+: calls →
      ∃ b, (appendEntries c.request).run (after p) = .ok b (after (p ++ [c]))) ∧
    (∀ p q, p ++ q = calls →
      (after p).commitIndex ≤ last.commitIndex ∧ (after p).lastApplied ≤ last.lastApplied ∧
        last.log.take (after p).commitIndex.toNat
          = (after p).log.take (after p).commitIndex.toNat) ∧
    last.lastApplied = last.commitIndex ∧ last.commitIndex ≤ last.log.length ∧
    last.kvStore = replayLog (fun _ => none) (last.log.take last.lastApplied.toNat) ∧
    ∀ key, last.kvStore key = (((last.log.take last.lastApplied.toNat).filter
      (fun e => decide (e.key = key))).getLast?).map LogEntry.value := by
  intro after last
  obtain ⟨hh, hup⟩ := upToDate_of_empty hn
  refine ⟨?_, ?_, ?_⟩
  · intro p c hp
    obtain ⟨q, rfl⟩ := hp
    obtain ⟨hpre, -⟩ := Run.along_append.mp hcalls
    obtain ⟨hbefore, hc, -⟩ := Run.along_append.mp hpre
    obtain ⟨hhp, hupp, -⟩ := keeps_run hh hup hbefore
    rw [show after (p ++ [c]) = c.deliver (after p) from Run.run_snoc _ _ _ _]
    exact (deliver_of_admissible hhp hupp hc).1
  · rintro p q rfl
    obtain ⟨hbefore, hafter⟩ := Run.along_append.mp hcalls
    obtain ⟨hhp, hupp, -⟩ := keeps_run hh hup hbefore
    obtain ⟨-, hlast, hkeeps⟩ := keeps_run hhp hupp hafter
    rw [← Run.run_append] at hlast hkeeps
    refine ⟨hkeeps.commitIndex_le, ?_, hkeeps.take_log⟩
    rw [show (after p).lastApplied = (after p).commitIndex from hupp.applied_eq,
      show last.lastApplied = last.commitIndex from hlast.applied_eq]
    exact hkeeps.commitIndex_le
  · obtain ⟨-, hlast, -⟩ := keeps_run hh hup hcalls
    have hkv : last.kvStore
        = replayLog (fun _ => none) (last.log.take last.lastApplied.toNat) := by
      rw [hlast.applied_eq]
      exact hlast.kvStore_eq
    refine ⟨hlast.applied_eq, hlast.committed_le, hkv, ?_⟩
    intro key
    rw [hkv]
    exact Replay.replay_eq_getLast? _ _ _ key

/-- The theorem at a run with two leaders: the second one truncates an entry the
first had not committed. -/
theorem follower_state_machine_run :
    let calls : List (LeaderCall ℕ) := [
      ⟨[⟨1, "a", "1"⟩, ⟨1, "b", "2"⟩], 1, 1, 7, 1⟩,
      ⟨[⟨1, "a", "1"⟩, ⟨2, "a", "3"⟩, ⟨2, "c", "4"⟩], 2, 2, 8, 2⟩]
    let s := Run.run LeaderCall.deliver (fresh 0 [1, 2]) calls
    Run.Along LeaderCall.deliver LeaderCall.Admissible (fresh 0 [1, 2]) calls ∧
      s.log = [⟨1, "a", "1"⟩, ⟨2, "a", "3"⟩, ⟨2, "c", "4"⟩] ∧ s.commitIndex = 2 ∧
      s.kvStore "a" = some "3" ∧ s.lastApplied = s.commitIndex := by
  intro calls s
  have hcalls : Run.Along LeaderCall.deliver LeaderCall.Admissible (fresh 0 [1, 2]) calls := by
    decide +kernel
  have h := (follower_state_machine (fresh 0 [1, 2]) rfl calls hcalls).2.2
  exact ⟨hcalls, by decide +kernel, by decide +kernel, by decide +kernel, h.1⟩

end RaftNode

end KVStore
