/-
# The lock and the scheduler of one server

No call takes the lock twice or keeps it, so every call can be brought to an answer
(`calls_can_finish`); calls that are scheduled one after the other do what the model does
in which methods are atomic (`serial_is_interleaving`).  But a vote request holds the read
lock until its response is there, and a put on a node with peers needs the write lock
before it can answer `true` (`vote_request_blocks_puts`).
-/
import KVStore.Interleavings

namespace KVStore

open Role Threads

namespace Concurrent

variable {ι Id α β : Type}

/-! ## Methods that do not touch the lock -/

/-- A null check leaves the lock alone. -/
theorem lockFree_nonNull (a : Option α) : (nonNull a : Method ι Id α).LockFree := by
  cases a <;> trivial

/-- Stepping down takes no lock of its own. -/
theorem lockFree_stepDown (term : ℤ) : (stepDown term : Method ι Id Unit).LockFree := by
  unfold stepDown writeTerm writeRole
  iterate 4 refine (Prog.lockFree_atomic _).bind fun _ => ?_
  exact Prog.lockFree_atomic _

/-- Neither does applying committed entries. -/
theorem lockFree_applyCommittedEntries :
    (applyCommittedEntries : Method ι Id Unit).LockFree := by
  have hloop : ∀ (rounds : ℕ) (a : ℤ), (applyLoop a rounds : Method ι Id ℤ).LockFree := by
    intro rounds
    induction rounds with
    | zero => exact fun _ => trivial
    | succ rounds ih =>
        intro a
        refine (Prog.lockFree_atomic _).bind fun entry => .bind ?_ fun _ => ih (a + 1)
        exact (lockFree_nonNull entry).bind fun _ => Prog.lockFree_atomic _
  refine (Prog.lockFree_atomic _).bind fun a => (Prog.lockFree_atomic _).bind fun c => ?_
  exact (hloop _ a).bind fun _ => Prog.lockFree_atomic _

/-- The merge takes no lock of its own. -/
theorem lockFree_mergeLoop (es : List LogEntry) : ∀ index : ℤ,
    (mergeLoop index es : Method ι Id Unit).LockFree := by
  induction es with
  | nil => exact fun _ => trivial
  | cons e es ih =>
      intro index
      refine Prog.LockFree.bind ?_ fun _ => ih (index + 1)
      refine (Prog.lockFree_atomic _).bind fun last => ?_
      split_ifs
      · refine (Prog.lockFree_atomic _).bind fun own => (lockFree_nonNull own).bind fun own => ?_
        split_ifs
        · exact (Prog.lockFree_atomic _).bind fun _ =>
            (Prog.lockFree_atomic _).bind fun _ => trivial
        · trivial
      · exact (Prog.lockFree_atomic _).bind fun _ => trivial

/-- Neither does the log check. -/
theorem lockFree_logMismatch (i t : ℤ) : (logMismatch i t : Method ι Id Bool).LockFree := by
  refine (Prog.lockFree_atomic _).bind fun last => ?_
  split_ifs
  · trivial
  · exact (Prog.lockFree_atomic _).bind fun own => (lockFree_nonNull own).bind fun _ => trivial
  · trivial

/-- Following the leader's commit index takes no lock of its own. -/
theorem lockFree_followCommit (c : ℤ) : (followCommit c : Method ι Id Unit).LockFree := by
  refine (Prog.lockFree_atomic _).bind fun own => ?_
  split_ifs
  · refine (Prog.lockFree_atomic _).bind fun last => (Prog.lockFree_atomic _).bind fun _ => ?_
    exact lockFree_applyCommittedEntries
  · trivial

/-- The body of `appendEntries` never takes the lock that surrounds it. -/
theorem lockFree_appendEntriesBody (req : AppendEntriesRequest Id) :
    (appendEntriesBody req : Method ι Id Bool).LockFree := by
  refine (Prog.lockFree_atomic _).bind fun own => ?_
  split_ifs
  · trivial
  · refine Prog.LockFree.bind ?_ fun _ => Prog.LockFree.bind ?_ fun _ => ?_
    · refine (Prog.lockFree_atomic _).bind fun own => ?_
      split_ifs
      · exact lockFree_stepDown _
      · trivial
    · exact (Prog.lockFree_atomic _).bind fun _ => Prog.lockFree_atomic _
    · refine (lockFree_logMismatch _ _).bind fun refused => ?_
      split_ifs
      · trivial
      · refine (lockFree_mergeLoop _ _).bind fun _ => (lockFree_followCommit _).bind fun _ => ?_
        trivial

section Replication

variable [DecidableEq Id]

/-- The commit rule runs without the lock. -/
theorem lockFree_updateCommitIndex : (updateCommitIndex : Method ι Id Unit).LockFree := by
  have hcount : ∀ (n : ℤ) (fs : List Id) (count : ℕ),
      (countReplicas n fs count : Method ι Id ℕ).LockFree := by
    intro n fs
    induction fs with
    | nil => exact fun _ => trivial
    | cons f fs ih => exact fun _ => (Prog.lockFree_atomic _).bind fun _ => ih _
  have hloop : ∀ (rounds : ℕ) (n : ℤ), (commitLoop n rounds : Method ι Id Unit).LockFree := by
    intro rounds
    induction rounds with
    | zero => exact fun _ => trivial
    | succ rounds ih =>
        intro n
        refine Prog.LockFree.bind ?_ fun _ => ih (n + 1)
        refine (Prog.lockFree_atomic _).bind fun own => (lockFree_nonNull own).bind fun own => ?_
        refine (Prog.lockFree_atomic _).bind fun term => ?_
        split_ifs
        · refine Prog.LockFree.bind ?_ fun count => (Prog.lockFree_atomic _).bind fun peers => ?_
          · exact (Prog.lockFree_atomic _).bind fun keys => hcount n keys 1
          · split_ifs
            · exact (Prog.lockFree_atomic _).bind fun _ => lockFree_applyCommittedEntries
            · trivial
        · trivial
  exact (Prog.lockFree_atomic _).bind fun _ => (Prog.lockFree_atomic _).bind fun _ => hloop _ _

/-- A request is built without the lock. -/
theorem lockFree_buildAppendEntries (f : Id) :
    (buildAppendEntries f : Method ι Id (AppendEntriesRequest Id)).LockFree := by
  refine (Prog.lockFree_atomic _).bind fun j => (Prog.lockFree_atomic _).bind fun last => ?_
  refine (Prog.lockFree_atomic _).bind fun es => Prog.LockFree.bind ?_ fun t => ?_
  · unfold prevLogTerm
    split_ifs
    · exact (Prog.lockFree_atomic _).bind fun own => (lockFree_nonNull own).bind fun _ => trivial
    · trivial
  · exact (Prog.lockFree_atomic _).bind fun _ => (Prog.lockFree_atomic _).bind fun _ => trivial

/-- An answer is recorded without the lock. -/
theorem lockFree_recordAppendEntries (f : Id) (success : Bool) :
    (recordAppendEntries f success : Method ι Id Unit).LockFree := by
  unfold recordAppendEntries
  split_ifs
  · iterate 4 refine (Prog.lockFree_atomic _).bind fun _ => ?_
    exact lockFree_updateCommitIndex
  · exact (Prog.lockFree_atomic _).bind fun _ => Prog.lockFree_atomic _

/-! ## Every task keeps the discipline of the lock -/

/-- A send holds the write lock while the node handles its request, and gives it back. -/
theorem disciplined_sendAppendEntries (f : Id) :
    (sendAppendEntries f : Method ι Id Unit).Disciplined none := by
  refine (lockFree_buildAppendEntries f).disciplined.bind fun req => ?_
  refine ((lockFree_appendEntriesBody req).disciplined_locked .write).bind fun success => ?_
  exact (lockFree_recordAppendEntries f success).disciplined

/-- A proposal is its sends, one after the other, and the commit rule. -/
theorem disciplined_proposeEntry (i : ι) (key value : String) :
    (proposeEntry i key value : Method ι Id Bool).Disciplined none := by
  have hsends : ∀ fs : List Id, (sendAll fs : Method ι Id Unit).Disciplined none := by
    intro fs
    induction fs with
    | nil => rfl
    | cons f fs ih => exact (disciplined_sendAppendEntries f).bind fun _ => ih
  refine (Prog.lockFree_atomic _).disciplined.bind fun role => ?_
  split_ifs
  · rfl
  · iterate 4 refine (Prog.lockFree_atomic _).disciplined.bind fun _ => ?_
    refine (hsends _).bind fun _ => lockFree_updateCommitIndex.disciplined.bind fun _ => ?_
    rfl

omit [DecidableEq Id] in
/-- An election takes no lock. -/
theorem lockFree_startElection : (startElection : Method ι Id (ℤ × ℤ)).LockFree := by
  unfold startElection writeRole writeTerm
  iterate 5 refine (Prog.lockFree_atomic _).bind fun _ => ?_
  refine Prog.LockFree.bind ?_ fun _ => trivial
  refine (Prog.lockFree_atomic _).bind fun last => ?_
  split_ifs
  · refine (Prog.lockFree_atomic _).bind fun entry => ?_
    cases entry <;> trivial
  · trivial

/-- `becomeLeader` takes no lock. -/
theorem lockFree_becomeLeader : (becomeLeader : Method ι Id Unit).LockFree := by
  have hreset : ∀ (last : ℤ) (fs : List Id),
      (resetIndices last fs : Method ι Id Unit).LockFree := by
    intro last fs
    induction fs with
    | nil => trivial
    | cons f fs ih =>
        exact (Prog.lockFree_atomic _).bind fun _ => (Prog.lockFree_atomic _).bind fun _ => ih
  unfold becomeLeader writeRole
  iterate 3 refine (Prog.lockFree_atomic _).bind fun _ => ?_
  exact hreset _ _

/-- Every task gives back what it takes. -/
theorem disciplined_body (i : ι) (task : Task Id) : (task.body i).Disciplined none := by
  cases task with
  | put key value => exact (disciplined_proposeEntry i key value).bind fun _ => rfl
  | get key => exact (Prog.lockFree_atomic _).disciplined.bind fun _ => rfl
  | sendAppendEntries f => exact (disciplined_sendAppendEntries f).bind fun _ => rfl
  | startElection => exact lockFree_startElection.disciplined.bind fun _ => rfl
  | leaderElectionTask =>
      refine Prog.Disciplined.bind (Prog.LockFree.disciplined ?_) fun _ => rfl
      refine (Prog.lockFree_atomic _).bind fun role => ?_
      split_ifs
      · exact lockFree_startElection.bind fun _ => trivial
      · trivial
  | requestVote response =>
      refine Prog.Disciplined.bind (Prog.LockFree.disciplined_locked ?_ .read) fun _ => rfl
      refine (Prog.lockFree_atomic _).bind fun term => ?_
      cases response with
      | none => trivial
      | some r =>
          refine (Prog.lockFree_atomic _).bind fun own => ?_
          split_ifs
          · exact (lockFree_stepDown r.term).bind fun _ => trivial
          · trivial
  | becomeLeader => exact lockFree_becomeLeader.disciplined.bind fun _ => rfl

variable [DecidableEq ι]

/-- At every moment the lock is held by those whose code says so. -/
theorem locked_after (n : RaftNode Id) (tasks : ι → Task Id) (sched : List ι) :
    (Run.run System.step (boot n tasks) sched).Locked :=
  (System.locked_start _ fun i => disciplined_body i (tasks i)).run sched

/-- **No call is ever stuck for good.**  From every moment of every interleaving some
order of steps brings any number of calls to their answers. -/
theorem calls_can_finish (nodeId : Id) (peerIds : List Id) (lives : List (Lifetime ι Id))
    (tasks : ι → Task Id) (sched : List ι) (is : List ι) :
    let S := Run.run System.step (boot (rebooted nodeId peerIds lives) tasks) sched
    ∃ later, ∀ i ∈ is, ∃ a, ((Run.run System.step S later).prog i).returned = some a := by
  intro S
  obtain ⟨later, hlater⟩ := System.exists_finish (locked_after _ tasks sched) is
  refine ⟨later, fun i hi => ?_⟩
  have hready := ready_rebooted nodeId peerIds lives
  obtain ⟨hsound, -⟩ := sound_after hready tasks sched
  rcases hlater i hi with ⟨a, ha⟩ | ⟨e, he⟩
  · exact ⟨a, by rw [ha]; rfl⟩
  · exact absurd trivial ((Sharing.sound_run hsound later).1.of_throw he).1

/-! ## Calls one after the other -/

/-- The node after the tasks of the given threads, one after the other, in the model in
which methods are atomic. -/
def serial (n : RaftNode Id) (tasks : ι → Task Id) (is : List ι) : RaftNode Id :=
  Run.run (fun n i => Exec.finalState (tasks i).method n) n is

omit [DecidableEq ι] in
/-- One more call at the end of a serial run. -/
theorem serial_snoc (n : RaftNode Id) (tasks : ι → Task Id) (is : List ι) (i : ι) :
    serial n tasks (is ++ [i]) = Exec.finalState (tasks i).method (serial n tasks is) :=
  Run.run_snoc _ _ _ _

omit [DecidableEq Id] in
/-- The system in which thread `i` has run alone. -/
theorem FollowsAt.settle {S : System ι JavaException (Shared ι Id) Answer} {i : ι}
    {p : Method ι Id Answer} {m : RaftNode.Method Id Answer} (h : FollowsAt S.state p m) :
    ∃ authors, { S.settle i (p.alone.run S.state) with lock := RWLock.free }
      = (⟨⟨Exec.finalState m S.state.node, authors⟩, RWLock.free,
          Function.update S.prog i (Prog.ended (m.run S.state.node))⟩ : System ι _ _ _) := by
  obtain ⟨authors, hrun⟩ := h
  refine ⟨authors, ?_⟩
  rw [hrun]
  rcases hm : m.run S.state.node with ⟨a, n⟩ | ⟨e, n⟩
  · rw [Exec.finalState_ok hm]
    rfl
  · rw [Exec.finalState_error hm]
    rfl

/-- Some schedule runs the tasks one after the other; then the lock is free and the other
threads have not begun. -/
theorem exists_serial (n : RaftNode Id) (tasks : ι → Task Id) {is : List ι} (his : is.Nodup) :
    ∃ sched, (Run.run System.step (boot n tasks) sched).state.node = serial n tasks is ∧
      (Run.run System.step (boot n tasks) sched).lock = RWLock.free ∧
      (∀ i ∉ is, (Run.run System.step (boot n tasks) sched).prog i = (tasks i).body i) ∧
      ∀ before i after, is = before ++ i :: after →
        (Run.run System.step (boot n tasks) sched).prog i
          = Prog.ended ((tasks i).method.run (serial n tasks before)) := by
  induction is using List.reverseRecOn with
  | nil => exact ⟨[], rfl, rfl, fun _ _ => rfl, fun before i after h => by simp at h⟩
  | append_singleton is i ih =>
      obtain ⟨hnodup, -, hdisj⟩ := List.nodup_append.mp his
      have hi : i ∉ is := fun hc => hdisj i hc i List.mem_cons_self rfl
      obtain ⟨sched, hnode, hfree, hbegun, hprog⟩ := ih hnodup
      obtain ⟨k, hk⟩ := System.run_alone (locked_after n tasks sched) (i := i)
        fun j _ => by rw [hfree]; rfl
      obtain ⟨authors, hsettle⟩ := FollowsAt.settle (i := i) (follows_body i (tasks i)
        (Run.run System.step (boot n tasks) sched).state)
      rw [hbegun i hi] at hk
      have hend := hk.trans hsettle
      rw [← Run.run_append, hnode] at hend
      refine ⟨sched ++ List.replicate k i, ?_⟩
      rw [hend]
      refine ⟨(serial_snoc n tasks is i).symm, rfl, fun j hj => ?_, fun before j after hsplit => ?_⟩
      · have hji : j ≠ i := fun hc => hj (hc ▸ List.mem_append_right _ List.mem_cons_self)
        rw [← hbegun j fun hc => hj (List.mem_append_left _ hc)]
        exact Function.update_of_ne hji _ _
      · show Function.update _ i _ j = _
        rcases List.eq_nil_or_concat after with rfl | ⟨after, x, rfl⟩
        · obtain ⟨rfl, hx⟩ := List.append_inj' hsplit rfl
          obtain rfl := List.singleton_inj.mp hx
          exact Function.update_self ..
        · -- an earlier call
          rw [List.concat_eq_append, ← List.cons_append, ← List.append_assoc] at hsplit
          obtain ⟨hrest, -⟩ := List.append_inj' hsplit rfl
          have hji : j ≠ i := by
            rintro rfl
            exact hi (hrest ▸ List.mem_append_right _ List.mem_cons_self)
          rw [Function.update_of_ne hji]
          exact hprog before j after hrest

/-- **The model with atomic methods is what the scheduler does when it runs one call after
the other**: some interleaving ends in the same node, and each call in it has been
answered, or has thrown, as its method does. -/
theorem serial_is_interleaving (n : RaftNode Id) (tasks : ι → Task Id) {is : List ι}
    (his : is.Nodup) :
    ∃ sched, (Run.run System.step (boot n tasks) sched).state.node = serial n tasks is ∧
      ∀ before i after, is = before ++ i :: after →
        (Run.run System.step (boot n tasks) sched).prog i
          = Prog.ended ((tasks i).method.run (serial n tasks before)) := by
  obtain ⟨sched, hnode, -, -, hprog⟩ := exists_serial n tasks his
  exact ⟨sched, hnode, hprog⟩

/-- The theorem at an election and two puts to one key: the get after them answers the
second. -/
theorem serial_is_interleaving_twoPuts :
    ∃ sched, ((Run.run System.step (boot (RaftNode.fresh 0 []) twoPuts) sched).prog 3).returned
      = some (.get ⟨"b", true⟩) := by
  obtain ⟨sched, -, hprog⟩ := serial_is_interleaving (RaftNode.fresh 0 []) twoPuts
    (show [0, 1, 2, 3].Nodup by decide)
  refine ⟨sched, ?_⟩
  rw [hprog [0, 1, 2] 3 [] rfl]
  decide +kernel

/-! ## A vote request keeps puts waiting -/

omit [DecidableEq Id] [DecidableEq ι] in
/-- Reading a field of a node with `I`. -/
theorem needsWrite_read_bind {I : RaftNode Id → Prop} {Q : β → Prop} {f : RaftNode Id → α}
    {k : α → Method ι Id β}
    (h : ∀ n, I n → (k (f n)).NeedsWrite (fun s : Shared ι Id => I s.node) Q) :
    (read f >>= k).NeedsWrite (fun s => I s.node) Q :=
  fun s hs => h s.node hs

omit [DecidableEq ι] in
/-- A put on a node with peers needs the write lock before it can be answered `true`. -/
theorem needsWrite_put (i : ι) (key value : String) :
    ((Task.put key value).body i : Method ι Id Answer).NeedsWrite
      (fun s => s.node.peers ≠ []) (fun a => a = .put ⟨true⟩) := by
  have hpropose : (proposeEntry i key value : Method ι Id Bool).NeedsWrite
      (fun s => s.node.peers ≠ []) (fun b => b = true) := by
    refine Prog.needsWrite_bind _ fun role => ?_
    split_ifs
    · exact Bool.false_ne_true
    · refine Prog.needsWrite_bind _ fun term => Prog.needsWrite_bind _ fun _ =>
        Prog.needsWrite_bind _ fun last => ?_
      refine needsWrite_read_bind (I := fun n => n.peers ≠ []) fun n hpeers => ?_
      obtain ⟨peer, peers, hcons⟩ := List.exists_cons_of_ne_nil hpeers
      rw [hcons]
      -- the first send calls `appendEntries`, which takes the lock
      have hsend : (sendAppendEntries peer : Method ι Id Unit).NeedsWrite
          (fun s => s.node.peers ≠ []) (fun _ => True) :=
        Prog.needsWrite_bind (buildAppendEntries peer) fun req => trivial
      have hsends : (sendAll (peer :: peers) : Method ι Id Unit).NeedsWrite
          (fun s => s.node.peers ≠ []) (fun _ => True) :=
        hsend.bind fun _ h => absurd trivial h
      exact hsends.bind fun _ h => absurd trivial h
  exact hpropose.bind fun b hb hc => hb (PutResponse.mk.inj (Answer.put.inj hc))

/-- A process that died leaves the peers of the configuration as they are. -/
theorem peers_rebooted (nodeId : Id) {peerIds : List Id} (h : peerIds ≠ [])
    (lives : List (Lifetime ι Id)) : (rebooted nodeId peerIds lives).peers ≠ [] := by
  have hready := fun lives => ready_rebooted (ι := ι) nodeId peerIds lives
  induction lives using List.reverseRecOn with
  | nil => exact fun hc => h ((List.dedup_eq_nil _).mp hc)
  | append_singleton lives life ih =>
      rw [rebooted, Run.run_snoc]
      intro hc
      have hpeers := (sound_after (hready lives) life.tasks life.sched).1.inv.peers
      exact ih (hpeers.symm.trans ((List.dedup_eq_nil _).mp hc))

/-- **A vote request keeps puts waiting.**  While a vote request holds the read lock,
waiting for its response, no put that begins on a node with peers is answered `true`. -/
theorem vote_request_blocks_puts (nodeId : Id) {peerIds : List Id} (hpeers : peerIds ≠ [])
    (lives : List (Lifetime ι Id)) (tasks : ι → Task Id) {before after : List ι} {i j : ι}
    {key value : String} (htask : tasks i = .put key value) (hi : i ∉ before) :
    let S := Run.run System.step (boot (rebooted nodeId peerIds lives) tasks) before
    j ∈ S.lock.readers → j ∉ after →
      ((Run.run System.step S after).prog i).returned ≠ some (.put ⟨true⟩) := by
  intro S hj hafter hreturned
  have hprog : S.prog i = (Task.put key value).body i := by
    rw [← htask]
    exact System.prog_run_of_notMem hi
  have hneeds : (S.prog i).NeedsWrite (fun s => s.node.peers ≠ []) (fun a => a = .put ⟨true⟩) := by
    rw [hprog]
    exact needsWrite_put i key value
  have hend := System.needsWrite_run hj hneeds (fun sched => ?_) hafter
  · rw [Prog.eq_ret_of_returned hreturned] at hend
    exact hend rfl
  · show (Run.run System.step S sched).state.node.peers ≠ []
    rw [← Run.run_append, (sound_after (ready_rebooted nodeId peerIds lives) tasks
      (before ++ sched)).1.inv.peers]
    exact peers_rebooted nodeId hpeers lives

/-- A vote request on a node that leads, and a put. -/
def votesAndPuts : Fin 3 → Concurrent.Task ℕ
  | 0 => .becomeLeader
  | 1 => .requestVote none
  | 2 => .put "k" "a"

/-- The theorem at a leader whose vote request gets no response: the put waits. -/
theorem vote_request_blocks_puts_waiting :
    (Run.run System.step (boot (rebooted 0 [1] ([] : List (Lifetime (Fin 3) ℕ))) votesAndPuts)
      [0, 0, 0, 0, 0, 1]).state.node.state.currentRole = .LEADER ∧
    ((Run.run System.step (Run.run System.step
      (boot (rebooted 0 [1] ([] : List (Lifetime (Fin 3) ℕ))) votesAndPuts) [0, 0, 0, 0, 0, 1])
        (List.replicate 100 2)).prog 2).returned ≠ some (.put ⟨true⟩) := by
  refine ⟨by decide +kernel, ?_⟩
  exact vote_request_blocks_puts 0 (List.cons_ne_nil 1 []) ([] : List (Lifetime (Fin 3) ℕ))
    votesAndPuts (i := 2) (j := 1) rfl (by decide) (by decide +kernel) (by decide +kernel)

end Replication

end Concurrent

end KVStore
