/-
# What the methods of a node compute when the database works

On a healthy storage every method of `RaftNode` has a closed form.  The
persistent part of a node is its log, its commit index, the index it has applied
up to and the key-value table; each method is described by what it does to these
four and to the fields in memory:

* `applied` : `applyCommittedEntries` replays the log from `lastApplied` to
  `commitIndex` into the table;
* `run_mergeLoop` : the loop of `appendEntries` is `Splice.splice` on terms;
* `run_appendEntries` : the four ways an `appendEntries` call can end;
* `run_updateCommitIndex` : a scan that commits every index it may.
-/
import KVStore.RaftNode
import KVStore.Splice

namespace KVStore

open Role Splice

/-- Replay log entries into a key-value table. -/
abbrev replayLog (kv : String → Option String) (l : List LogEntry) : String → Option String :=
  Replay.replay LogEntry.key LogEntry.value kv l

/-- The entry at a position of the log. -/
theorem entryAt_succ (l : List LogEntry) (i : ℕ) :
    SQLiteStorage.entryAt l ((i : ℤ) + 1) = l[i]? := by
  rw [SQLiteStorage.entryAt, if_pos (by omega)]
  congr 1
  omega

/-- There is no entry at an index below `1`. -/
theorem entryAt_of_nonpos (l : List LogEntry) {i : ℤ} (h : i ≤ 0) :
    SQLiteStorage.entryAt l i = none :=
  if_neg (by omega)

/-- The last index a call covers. -/
def AppendEntriesRequest.covers {Id : Type} (req : AppendEntriesRequest Id) : ℤ :=
  req.prevLogIndex + req.entries.length

namespace RaftNode

variable {Id : Type}

def log (n : RaftNode Id) : List LogEntry := n.storage.log
def commitIndex (n : RaftNode Id) : ℤ := n.storage.commitIndex
def lastApplied (n : RaftNode Id) : ℤ := n.storage.lastApplied
def kvStore (n : RaftNode Id) : String → Option String := n.storage.kvStore
def Healthy (n : RaftNode Id) : Prop := n.storage.Healthy

variable {n : RaftNode Id} {α β : Type}

/-! ## Reading a node whose storage was replaced -/

@[simp] theorem storage_log : n.storage.log = n.log := rfl
@[simp] theorem storage_commitIndex : n.storage.commitIndex = n.commitIndex := rfl
@[simp] theorem storage_lastApplied : n.storage.lastApplied = n.lastApplied := rfl
@[simp] theorem storage_kvStore : n.storage.kvStore = n.kvStore := rfl
@[simp] theorem storage_healthy : n.storage.Healthy ↔ n.Healthy := Iff.rfl

@[simp] theorem log_setStorage (s) : (n.setStorage s).log = s.log := rfl
@[simp] theorem commitIndex_setStorage (s) : (n.setStorage s).commitIndex = s.commitIndex := rfl
@[simp] theorem lastApplied_setStorage (s) : (n.setStorage s).lastApplied = s.lastApplied := rfl
@[simp] theorem kvStore_setStorage (s) : (n.setStorage s).kvStore = s.kvStore := rfl
@[simp] theorem healthy_setStorage (s) : (n.setStorage s).Healthy ↔ s.Healthy := Iff.rfl
@[simp] theorem storage_setStorage (s) : (n.setStorage s).storage = s := rfl
@[simp] theorem state_setStorage (s) : (n.setStorage s).state = n.state := rfl
@[simp] theorem nodeId_setStorage (s) : (n.setStorage s).nodeId = n.nodeId := rfl
@[simp] theorem peers_setStorage (s) : (n.setStorage s).peers = n.peers := rfl
@[simp] theorem nextIndex_setStorage (s) : (n.setStorage s).nextIndex = n.nextIndex := rfl
@[simp] theorem matchIndex_setStorage (s) : (n.setStorage s).matchIndex = n.matchIndex := rfl
@[simp] theorem votedFor_setStorage (s) : (n.setStorage s).votedFor = n.votedFor := rfl
@[simp] theorem setStorage_setStorage (s s') :
    (n.setStorage s).setStorage s' = n.setStorage s' := rfl
@[simp] theorem setStorage_self : n.setStorage n.storage = n := rfl
@[simp] theorem withLog_log : n.storage.withLog n.log = n.storage :=
  SQLiteStorage.withLog_log n.storage

/-! ## Statements issued by a node -/

/-- A statement of the storage, run by the node. -/
theorem run_onStorage {m : EStateM JavaException SQLiteStorage α} {a : α}
    {s : SQLiteStorage} (h : m.run n.storage = .ok a s) :
    (onStorage m).run n = .ok a (n.setStorage s) :=
  Exec.run_zoom_ok h

section Statements

variable (h : n.Healthy)
include h

/-- The last index is the length of the log. -/
theorem run_bind_getLastLogIndex {f : ℤ → Method Id β} :
    (onStorage SQLiteStorage.getLastLogIndex >>= f).run n = (f n.log.length).run n :=
  Exec.run_bind_ok (run_onStorage (SQLiteStorage.run_getLastLogIndex h))

/-- What is read at an index is the entry of the log there. -/
theorem run_bind_getLogEntry {i : ℤ} {f : Option LogEntry → Method Id β} :
    (onStorage (SQLiteStorage.getLogEntry i) >>= f).run n
      = (f (SQLiteStorage.entryAt n.log i)).run n :=
  Exec.run_bind_ok (run_onStorage (SQLiteStorage.run_getLogEntry h i))

/-- What is read of a range is the stretch of the log. -/
theorem run_bind_getLogEntries {i j : ℤ} {f : List LogEntry → Method Id β} :
    (onStorage (SQLiteStorage.getLogEntries i j) >>= f).run n
      = (f ((n.log.take j.toNat).drop (i - 1).toNat)).run n :=
  Exec.run_bind_ok (run_onStorage (SQLiteStorage.run_getLogEntries h i j))

/-- The commit index is read as it is stored. -/
theorem run_bind_getCommitIndex {f : ℤ → Method Id β} :
    (onStorage SQLiteStorage.getCommitIndex >>= f).run n = (f n.commitIndex).run n :=
  Exec.run_bind_ok (run_onStorage (SQLiteStorage.run_getCommitIndex h))

/-- So is the applied index. -/
theorem run_bind_getLastApplied {f : ℤ → Method Id β} :
    (onStorage SQLiteStorage.getLastApplied >>= f).run n = (f n.lastApplied).run n :=
  Exec.run_bind_ok (run_onStorage (SQLiteStorage.run_getLastApplied h))

/-- The entry is appended, and its index returned. -/
theorem run_bind_appendLogEntry {e : LogEntry} {f : ℤ → Method Id β} :
    (onStorage (SQLiteStorage.appendLogEntry e) >>= f).run n
      = (f (n.log.length + 1)).run (n.setStorage (n.storage.withLog (n.log ++ [e]))) :=
  Exec.run_bind_ok (run_onStorage (SQLiteStorage.run_appendLogEntry h e))

/-- The log is cut from the index on. -/
theorem run_bind_deleteLogEntriesFrom {i : ℤ} {f : Unit → Method Id β} :
    (onStorage (SQLiteStorage.deleteLogEntriesFrom i) >>= f).run n
      = (f ()).run (n.setStorage (n.storage.withLog (n.log.take (i - 1).toNat))) :=
  Exec.run_bind_ok (run_onStorage (SQLiteStorage.run_deleteLogEntriesFrom h i))

/-- The commit index is stored. -/
theorem run_bind_setCommitIndex {c : ℤ} {f : Unit → Method Id β} :
    (onStorage (SQLiteStorage.setCommitIndex c) >>= f).run n
      = (f ()).run (n.setStorage (n.storage.withCommitIndex c)) :=
  Exec.run_bind_ok (run_onStorage (SQLiteStorage.run_setCommitIndex h c))

/-- The value is stored under the key. -/
theorem run_bind_updateKeyValue {k v : String} {f : Unit → Method Id β} :
    (onStorage (SQLiteStorage.updateKeyValue k v) >>= f).run n
      = (f ()).run (n.setStorage
          (n.storage.withKvStore (Function.update n.kvStore k (some v)))) :=
  Exec.run_bind_ok (run_onStorage (SQLiteStorage.run_updateKeyValue h k v))

end Statements

/-! ## Applying committed entries -/

/-- The loop replays the entries `a + 1, …, a + k` on the table. -/
theorem run_applyLoop (h : n.Healthy) (a k : ℕ) (hk : 0 < k → a + k ≤ n.log.length) :
    (applyLoop a k).run n = .ok ((a + k : ℕ) : ℤ)
      (n.setStorage (n.storage.withKvStore
        (replayLog n.kvStore ((n.log.take (a + k)).drop a)))) := by
  induction k generalizing n a with
  | zero =>
      have : (n.log.take (a + 0)).drop a = [] := by
        rw [List.drop_eq_nil_iff, List.length_take]
        omega
      rw [applyLoop, this]
      rfl
  | succ k ih =>
      have ha : a < n.log.length := by omega
      have hget : SQLiteStorage.entryAt n.log ((a : ℤ) + 1) = some n.log[a] := by
        rw [entryAt_succ, List.getElem?_eq_getElem ha]
      have hsplit : (n.log.take (a + (k + 1))).drop a
          = n.log[a] :: (n.log.take (a + 1 + k)).drop (a + 1) := by
        rw [show a + (k + 1) = a + 1 + k by omega,
          List.drop_eq_getElem_cons (by rw [List.length_take]; omega), List.getElem_take]
      rw [applyLoop, run_bind_getLogEntry h, hget, applyToStateMachine]
      simp only [nonNull, pure_bind]
      rw [run_bind_updateKeyValue h, show ((a : ℤ) + 1) = ((a + 1 : ℕ) : ℤ) by push_cast; rfl,
        ih (by simpa using h) (a + 1) (by simp; omega), hsplit,
        show a + 1 + k = a + (k + 1) by omega]
      rfl

/-- The node after `applyCommittedEntries`. -/
def applied (n : RaftNode Id) : RaftNode Id :=
  n.setStorage ((n.storage.withKvStore
      (replayLog n.kvStore
        ((n.log.take n.commitIndex.toNat).drop n.lastApplied.toNat))).withLastApplied
    (max n.lastApplied n.commitIndex))

/-- Everything committed is applied and recorded. -/
theorem run_applyCommittedEntries (h : n.Healthy) (ha : 0 ≤ n.lastApplied)
    (hc : n.commitIndex ≤ n.log.length) :
    applyCommittedEntries.run n = .ok () n.applied := by
  obtain ⟨a, hla⟩ := Int.eq_ofNat_of_zero_le ha
  have hmax : ((a + (n.commitIndex - a).toNat : ℕ) : ℤ) = max n.lastApplied n.commitIndex := by
    rw [hla]
    omega
  have hdrop : (n.log.take (a + (n.commitIndex - a).toNat)).drop a
      = (n.log.take n.commitIndex.toNat).drop n.lastApplied.toNat := by
    rw [hla]
    rcases le_total (a : ℤ) n.commitIndex with hle | hle
    · rw [show a + (n.commitIndex - a).toNat = n.commitIndex.toNat by omega]
      rfl
    · -- nothing is left to apply on either side
      rw [List.drop_eq_nil_iff.mpr, List.drop_eq_nil_iff.mpr]
      · rw [List.length_take, Int.toNat_natCast]
        omega
      · rw [List.length_take]
        omega
  rw [applyCommittedEntries, run_bind_getLastApplied h, run_bind_getCommitIndex h, hla]
  rw [Exec.run_bind_ok (run_applyLoop h a _ (by omega)), hmax, hdrop]
  exact run_onStorage (SQLiteStorage.run_setLastApplied (by simpa using h) _)

/-- The node after the commit index is set to `c` and the entries up to it are
applied. -/
def commitTo (n : RaftNode Id) (c : ℤ) : RaftNode Id :=
  (n.setStorage (n.storage.withCommitIndex c)).applied

/-- A commit index is stored, and everything up to it applied. -/
theorem run_commitTo (h : n.Healthy) (ha : 0 ≤ n.lastApplied) {c : ℤ} (hc : c ≤ n.log.length) :
    (do onStorage (SQLiteStorage.setCommitIndex c); applyCommittedEntries : Method Id Unit).run n
      = .ok () (n.commitTo c) := by
  rw [run_bind_setCommitIndex h]
  exact run_applyCommittedEntries (by simpa using h) (by simpa using ha) (by simpa using hc)

section CommitTo

variable (c : ℤ)

@[simp] theorem log_commitTo : (n.commitTo c).log = n.log := by simp [commitTo, applied]
@[simp] theorem commitIndex_commitTo : (n.commitTo c).commitIndex = c := by
  simp [commitTo, applied]
@[simp] theorem lastApplied_commitTo : (n.commitTo c).lastApplied = max n.lastApplied c := by
  simp [commitTo, applied]
@[simp] theorem kvStore_commitTo : (n.commitTo c).kvStore
    = replayLog n.kvStore ((n.log.take c.toNat).drop n.lastApplied.toNat) := by
  simp [commitTo, applied]
@[simp] theorem healthy_commitTo : (n.commitTo c).Healthy ↔ n.Healthy := by
  simp [commitTo, applied]
@[simp] theorem state_commitTo : (n.commitTo c).state = n.state := rfl
@[simp] theorem peers_commitTo : (n.commitTo c).peers = n.peers := rfl
@[simp] theorem nodeId_commitTo : (n.commitTo c).nodeId = n.nodeId := rfl
@[simp] theorem votedFor_commitTo : (n.commitTo c).votedFor = n.votedFor := rfl
@[simp] theorem nextIndex_commitTo : (n.commitTo c).nextIndex = n.nextIndex := rfl
@[simp] theorem matchIndex_commitTo : (n.commitTo c).matchIndex = n.matchIndex := rfl

end CommitTo

/-! ## `appendEntries` -/

/-- An entry that meets another one is skipped, or replaces it and what follows it. -/
theorem run_mergeEntry_of_some (h : n.Healthy) {p : ℕ} {e x : LogEntry}
    (hx : n.log[p]? = some x) :
    (mergeEntry ((p : ℤ) + 1) e).run n = .ok ()
      (if x.term = e.term then n
        else n.setStorage (n.storage.withLog (n.log.take p ++ [e]))) := by
  have hp : p < n.log.length := (List.getElem?_eq_some_iff.mp hx).1
  rw [mergeEntry, run_bind_getLastLogIndex h, if_pos (by omega)]
  rw [run_bind_getLogEntry h, entryAt_succ, hx]
  simp only [nonNull, pure_bind]
  by_cases hterm : x.term = e.term
  · rw [if_neg (not_not.mpr hterm), if_pos hterm]
    rfl
  · rw [if_pos hterm, if_neg hterm, run_bind_deleteLogEntriesFrom h,
      run_bind_appendLogEntry (by simpa using h)]
    simp

/-- An entry past the end is appended. -/
theorem run_mergeEntry_of_none (h : n.Healthy) {p : ℕ} {e : LogEntry} (hx : n.log[p]? = none) :
    (mergeEntry ((p : ℤ) + 1) e).run n
      = .ok () (n.setStorage (n.storage.withLog (n.log ++ [e]))) := by
  have hp : n.log.length ≤ p := List.getElem?_eq_none_iff.mp hx
  rw [mergeEntry, run_bind_getLastLogIndex h, if_neg (by omega), run_bind_appendLogEntry h]
  simp

/-- The log has no entry at index `0` or below: reading its term throws. -/
theorem run_mergeEntry_of_nonpos (h : n.Healthy) {i : ℤ} (hi : i ≤ 0) (e : LogEntry) :
    (mergeEntry i e).run n = .error .nullPointerException n := by
  rw [mergeEntry, run_bind_getLastLogIndex h, if_pos (by omega), run_bind_getLogEntry h,
    entryAt_of_nonpos _ hi]
  rfl

/-- **The merge loop is a splice.** -/
theorem run_mergeLoop (h : n.Healthy) (p : ℕ) (es : List LogEntry) :
    (mergeLoop ((p : ℤ) + 1) es).run n
      = .ok () (n.setStorage (n.storage.withLog (splice LogEntry.term n.log p es))) := by
  induction es generalizing n p with
  | nil =>
      rw [splice_nil, withLog_log]
      rfl
  | cons e es ih =>
      rw [mergeLoop, splice, show (p : ℤ) + 1 + 1 = ((p + 1 : ℕ) : ℤ) + 1 by push_cast; rfl]
      cases hx : n.log[p]? with
      | none =>
          rw [Exec.run_bind_ok (run_mergeEntry_of_none h hx), ih (by simpa using h)]
          simp
      | some x =>
          rw [Exec.run_bind_ok (run_mergeEntry_of_some h hx)]
          by_cases hterm : x.term = e.term
          · simp only [hterm, if_true]
            rw [ih h]
          · simp only [hterm, if_false]
            rw [ih (by simpa using h)]
            simp

/-- The answer `false` of `appendEntries`, on a log. -/
def mismatch (l : List LogEntry) (prevLogIndex prevLogTerm : ℤ) : Bool :=
  decide ((l.length : ℤ) < prevLogIndex) ||
    (decide (prevLogIndex > 0) &&
      decide ((SQLiteStorage.entryAt l prevLogIndex).map LogEntry.term ≠ some prevLogTerm))

/-- When the log check passes. -/
theorem mismatch_eq_false_iff {l : List LogEntry} {i t : ℤ} :
    mismatch l i t = false ↔
      i ≤ l.length ∧ (0 < i → (SQLiteStorage.entryAt l i).map LogEntry.term = some t) := by
  unfold mismatch
  rw [Bool.or_eq_false_iff, decide_eq_false_iff_not, not_lt, Bool.and_eq_false_imp,
    decide_eq_true_iff, decide_eq_false_iff_not, not_ne_iff]

/-- The log check, as a function of the log. -/
theorem run_logMismatch (h : n.Healthy) (i t : ℤ) :
    (logMismatch i t).run n = .ok (mismatch n.log i t) n := by
  rw [logMismatch, run_bind_getLastLogIndex h, mismatch]
  by_cases hlt : (n.log.length : ℤ) < i
  · rw [if_pos hlt]
    simp [hlt]
  · rw [if_neg hlt]
    by_cases hpos : i > 0
    · obtain ⟨p, rfl⟩ : ∃ p : ℕ, i = (p : ℤ) + 1 := ⟨(i - 1).toNat, by omega⟩
      have hp : p < n.log.length := by omega
      rw [if_pos hpos, run_bind_getLogEntry h, entryAt_succ, List.getElem?_eq_getElem hp]
      simp [nonNull, hlt, hpos]
    · rw [if_neg hpos]
      simp [hlt, hpos]

/-- The node after it has seen a message of term `t ≥ currentTerm`. -/
def observed (n : RaftNode Id) (t : ℤ) : RaftNode Id :=
  { n with
    state := if t > n.state.currentTerm then ⟨FOLLOWER, t, none⟩ else n.state
    votedFor := if t > n.state.currentTerm then none else n.votedFor
    electionTimer := true }

/-- The node sees the term and arms its timer. -/
theorem run_observeTerm (t : ℤ) (m : Method Id β) :
    (do observeTerm t; resetElectionTimer; m : Method Id β).run n = m.run (n.observed t) := by
  rw [observeTerm]
  by_cases ht : t > n.state.currentTerm
  · simp [ht, stepDown, resetElectionTimer, observed, RaftState.becomeFollower]
  · simp [ht, resetElectionTimer, observed]

section Observed

variable (t : ℤ)

@[simp] theorem storage_observed : (n.observed t).storage = n.storage := rfl
@[simp] theorem log_observed : (n.observed t).log = n.log := rfl
@[simp] theorem commitIndex_observed : (n.observed t).commitIndex = n.commitIndex := rfl
@[simp] theorem lastApplied_observed : (n.observed t).lastApplied = n.lastApplied := rfl
@[simp] theorem kvStore_observed : (n.observed t).kvStore = n.kvStore := rfl
@[simp] theorem healthy_observed : (n.observed t).Healthy ↔ n.Healthy := Iff.rfl
@[simp] theorem nodeId_observed : (n.observed t).nodeId = n.nodeId := rfl
@[simp] theorem peers_observed : (n.observed t).peers = n.peers := rfl
@[simp] theorem nextIndex_observed : (n.observed t).nextIndex = n.nextIndex := rfl
@[simp] theorem matchIndex_observed : (n.observed t).matchIndex = n.matchIndex := rfl
@[simp] theorem state_observed : (n.observed t).state
    = if t > n.state.currentTerm then ⟨FOLLOWER, t, none⟩ else n.state := rfl

end Observed

/-- The node after `followCommit`. -/
def commitFollowed (n : RaftNode Id) (leaderCommit : ℤ) : RaftNode Id :=
  if leaderCommit > n.commitIndex then n.commitTo (min leaderCommit n.log.length) else n

/-- The leader's commit index is followed. -/
theorem run_followCommit (h : n.Healthy) (ha : 0 ≤ n.lastApplied) (leaderCommit : ℤ) :
    (followCommit leaderCommit).run n = .ok () (n.commitFollowed leaderCommit) := by
  rw [followCommit, run_bind_getCommitIndex h, commitFollowed]
  by_cases hc : leaderCommit > n.commitIndex
  · rw [if_pos hc, if_pos hc, run_bind_getLastLogIndex h]
    exact run_commitTo h ha (min_le_right _ _)
  · rw [if_neg hc, if_neg hc]
    rfl

/-- The node after the merge and the commit of an accepted call. -/
def merged (n : RaftNode Id) (req : AppendEntriesRequest Id) : RaftNode Id :=
  (n.setStorage (n.storage.withLog
    (splice LogEntry.term n.log req.prevLogIndex.toNat req.entries))).commitFollowed
      req.leaderCommit

/-- **The four ways an `appendEntries` call ends.** -/
theorem run_appendEntries (h : n.Healthy) (ha : 0 ≤ n.lastApplied)
    (req : AppendEntriesRequest Id) :
    (appendEntries req).run n =
      if req.term < n.state.currentTerm then .ok false n
      else if mismatch n.log req.prevLogIndex req.prevLogTerm then
        .ok false (n.observed req.term)
      else if req.prevLogIndex < 0 ∧ req.entries ≠ [] then
        .error .nullPointerException (n.observed req.term)
      else .ok true ((n.observed req.term).merged req) := by
  have h' : (n.observed req.term).Healthy := h
  have hget : ∀ f : RaftNode Id → Method Id Bool, (get >>= f).run n = (f n).run n :=
    fun f => rfl
  rw [appendEntries, hget]
  by_cases hterm : req.term < n.state.currentTerm
  · rw [if_pos hterm, if_pos hterm]
    rfl
  rw [if_neg hterm, if_neg hterm, run_observeTerm, Exec.run_bind_ok (run_logMismatch h' _ _),
    log_observed]
  by_cases hmis : mismatch n.log req.prevLogIndex req.prevLogTerm = true
  · rw [if_pos hmis, if_pos hmis]
    rfl
  rw [if_neg hmis, if_neg hmis]
  by_cases hneg : req.prevLogIndex < 0 ∧ req.entries ≠ []
  · -- no entry is stored below index `1`, so the first comparison dereferences `null`
    obtain ⟨e, es, hes⟩ := List.exists_cons_of_ne_nil hneg.2
    rw [if_pos hneg, hes, mergeLoop]
    exact Exec.run_bind_error
      (Exec.run_bind_error (run_mergeEntry_of_nonpos h' (by omega) e))
  · rw [if_neg hneg]
    have hmerge : (mergeLoop (req.prevLogIndex + 1) req.entries).run (n.observed req.term)
        = .ok () ((n.observed req.term).setStorage ((n.observed req.term).storage.withLog
            (splice LogEntry.term n.log req.prevLogIndex.toNat req.entries))) := by
      by_cases hp : req.prevLogIndex < 0
      · have hes : req.entries = [] := by
          by_contra hne
          exact hneg ⟨hp, hne⟩
        rw [hes, splice_nil, ← log_observed req.term, withLog_log]
        rfl
      · have := run_mergeLoop h' req.prevLogIndex.toNat req.entries
        rwa [Int.toNat_of_nonneg (by omega)] at this
    rw [Exec.run_bind_ok hmerge, Exec.run_bind_ok (run_followCommit (by simpa using h)
      (by simpa using ha) _)]
    rfl

section Calls

variable (h : n.Healthy) (ha : 0 ≤ n.lastApplied) {req : AppendEntriesRequest Id}
include h ha

/-- A stale call is answered `false`, and nothing changes. -/
theorem run_appendEntries_of_stale (ht : req.term < n.state.currentTerm) :
    (appendEntries req).run n = .ok false n := by
  rw [run_appendEntries h ha, if_pos ht]

/-- A call that fails the log check is answered `false` once the node has seen its term. -/
theorem run_appendEntries_of_mismatch (ht : ¬ req.term < n.state.currentTerm)
    (hmis : mismatch n.log req.prevLogIndex req.prevLogTerm = true) :
    (appendEntries req).run n = .ok false (n.observed req.term) := by
  rw [run_appendEntries h ha, if_neg ht, if_pos hmis]

/-- Any other call merges its entries and is answered `true`. -/
theorem run_appendEntries_of_accept (ht : ¬ req.term < n.state.currentTerm)
    (hmis : mismatch n.log req.prevLogIndex req.prevLogTerm = false)
    (hp : 0 ≤ req.prevLogIndex) :
    (appendEntries req).run n = .ok true ((n.observed req.term).merged req) := by
  rw [run_appendEntries h ha, if_neg ht, if_neg (by simp [hmis]),
    if_neg (fun hc => not_lt.mpr hp hc.1)]

end Calls

end RaftNode

end KVStore
