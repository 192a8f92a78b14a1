/-
# A deployed server (`KVStoreServer.java`, `ServerConfig.java`)

A server process as `main` starts it: the node with its scheduler and its worker pool,
reached through `KVStoreServiceImpl` and nothing else.  No service answers the calls of
other nodes, so `appendEntries` is called by the node itself only.  The vote futures are
the objects they are in the source: what the callback of an election joins are the futures
that `requestVote` returned.

Each call, task and callback is one step: no two of them overlap (`Concurrent.lean` has
calls that do).  The database is one whose tables could be created, `index` taken for the
name of a column.

`deployed_server` : such a server is a correct map, but it acknowledges a put only if it
has no peers and an election has run; `acknowledges_iff` : no configuration but one whose
`peers` are commas and nothing else gives a server that ever does.
-/
import Mathlib.Data.List.DropRight
import KVStore.Election
import KVStore.SingleNode
import KVStore.Terms
import KVStore.VoteFutures

namespace KVStore

open Role RaftNode

/-! ## The configuration -/

/-- The characters of a string. -/
abbrev Text : Type := List Char

/-- `s.split(sep)`: a string without the separator is its own only part; otherwise the
empty parts at the end are dropped. -/
def Text.split (sep : Char) (s : Text) : List Text :=
  if sep ∈ s then (s.splitOn sep).rdropWhile List.isEmpty else [s]

structure ServerConfig where
  /-- `null` when the property is missing. -/
  nodeId : Option Text
  peers : List Text
  storagePath : Option Text
  deriving DecidableEq, Repr

/-- `new ServerConfig(configPath)`, on the properties of the file. -/
def ServerConfig.load (getProperty : String → Option Text) :
    Except JavaException ServerConfig :=
  match getProperty "peers" with
  | some peers => .ok ⟨getProperty "node.id", Text.split ',' peers, getProperty "storage.path"⟩
  | none => .error .nullPointerException

/-- Splitting `k` separators leaves `k + 1` empty parts. -/
theorem splitOn_replicate (sep : Char) (k : ℕ) :
    (List.replicate k sep).splitOn sep = List.replicate (k + 1) [] := by
  induction k with
  | zero => rfl
  | succ k ih =>
      have hsplit : ([] ++ sep :: List.replicate k sep).splitOn sep
          = [] :: (List.replicate k sep).splitOn sep :=
        List.splitOn_append_cons_self_of_not_mem List.not_mem_nil _
      rw [List.replicate_succ, List.replicate_succ, ← ih]
      exact hsplit

/-- Another character stands in some part. -/
theorem eq_of_splitOn_empty {sep : Char} {s : Text} (h : ∀ part ∈ s.splitOn sep, part = []) :
    ∀ c ∈ s, c = sep := by
  induction s with
  | nil => exact fun _ hc => nomatch hc
  | cons c s ih =>
      rw [List.splitOn_cons_eq_if_modifyHead] at h
      split_ifs at h with hc
      · intro d hd
        rcases List.mem_cons.mp hd with rfl | hd
        · exact beq_iff_eq.mp hc
        · exact ih (fun part hpart => h part (List.mem_cons_of_mem _ hpart)) d hd
      · obtain ⟨part, parts, hparts⟩ := List.exists_cons_of_ne_nil (List.splitOn_ne_nil sep s)
        rw [hparts, List.modifyHead_cons] at h
        exact absurd (h _ List.mem_cons_self) (List.cons_ne_nil c part)

/-- **Nothing is left of a string of separators**, and something of every other. -/
theorem split_eq_nil_iff (sep : Char) (s : Text) :
    Text.split sep s = [] ↔ s ≠ [] ∧ ∀ c ∈ s, c = sep := by
  unfold Text.split
  split_ifs with hmem
  · rw [List.rdropWhile_eq_nil_iff]
    constructor
    · intro hempty
      refine ⟨List.ne_nil_of_mem hmem, eq_of_splitOn_empty fun part hpart => ?_⟩
      exact List.isEmpty_iff.mp (hempty part hpart)
    · rintro ⟨-, hall⟩ part hpart
      rw [List.eq_replicate_of_mem hall, splitOn_replicate] at hpart
      rw [List.eq_of_mem_replicate hpart]
      rfl
  · refine iff_of_false (fun hc => nomatch hc) ?_
    rintro ⟨hne, hall⟩
    obtain ⟨c, hc⟩ := List.exists_mem_of_ne_nil s hne
    exact hmem (hall c hc ▸ hc)

/-! ## The process -/

/-- What one call of `startElection` leaves behind. -/
structure Campaign (Id : Type) where
  lastLogIndex : ℤ
  lastLogTerm : ℤ
  /-- Whether the supplier of the peer's vote future has run: the future is then completed,
  with the future that `requestVote` returned. -/
  supplied : Id → Bool
  /-- That future. -/
  requestVote : Id → VoteFuture Id
  /-- Whether the callback of `allOf` has run. -/
  called : Bool

variable {Id : Type}

/-- All vote futures are completed, and the callback has not run. -/
def Campaign.Complete (c : Campaign Id) (n : RaftNode Id) : Prop :=
  c.called = false ∧ ∀ f ∈ n.peers, c.supplied f = true

instance (c : Campaign Id) (n : RaftNode Id) : Decidable (c.Complete n) :=
  inferInstanceAs (Decidable (_ ∧ _))

/-- The vote futures as the callback finds them.  It never gets to the value of the inner
future, whether that has one yet or not. -/
def Campaign.voteFutures (c : Campaign Id) (n : RaftNode Id) : List JavaObject :=
  n.peers.map fun f =>
    .completableFuture (.completableFuture (.boolean (c.requestVote f).granted))

structure Deployment (Id : Type) where
  node : RaftNode Id
  campaigns : List (Campaign Id)
  /-- The sends the worker pool has not run yet. -/
  sends : List Id
  /-- Whether the scheduler still runs `leaderElectionTask`. -/
  electionTask : Bool

inductive DeploymentStep (Id : Type) : Type where
  | leaderElectionTask
  /-- The task of `electionTimer` fires, if one is armed. -/
  | electionTimer
  | heartbeatTask
  | runTask (k : ℕ)
  /-- The worker pool runs the supplier of a vote future. -/
  | supplyAsync (e : ℕ) (peer : Id)
  | sendVoteRequest (e : ℕ) (peer : Id)
  | voteResponse (e : ℕ) (peer : Id) (response : Option RequestVoteResponse)
  /-- The callback of `allOf` runs, if all vote futures are completed. -/
  | thenAccept (e : ℕ)
  | put (key value : String)
  | get (key : String)
  | restart
  deriving DecidableEq

namespace Deployment

variable [DecidableEq Id]

/-- Replace campaign `e`. -/
def setCampaign (d : Deployment Id) (e : ℕ) (c : Campaign Id) : Deployment Id :=
  { d with campaigns := d.campaigns.set e c }

/-- An exception of the callback ends in the future that `thenAccept` returns, which
nobody reads. -/
def thenAccept (d : Deployment Id) (e : ℕ) : Deployment Id :=
  match d.campaigns[e]? with
  | none => d
  | some c =>
      if c.Complete d.node then
        { d with node := Exec.finalState (tallyFutures (c.voteFutures d.node)) d.node }.setCampaign
          e { c with called := true }
      else d

/-- Without peers `allOf` is complete at once, and the callback runs in the call. -/
def startElection (d : Deployment Id) : Deployment Id :=
  match RaftNode.startElection.run d.node with
  | .ok (lastLogIndex, lastLogTerm) n =>
      thenAccept { d with
        node := n
        campaigns := d.campaigns
          ++ [⟨lastLogIndex, lastLogTerm, fun _ => false, fun _ => .queued, false⟩] }
        d.campaigns.length
  | .error _ n => { d with node := n }

/-- `scheduleAtFixedRate` runs a task no more once it has thrown. -/
def leaderElectionTask (d : Deployment Id) : Deployment Id :=
  if d.electionTask = true ∧ d.node.state.currentRole ≠ LEADER then
    { d.startElection with electionTask := (d.node.answer .startElection).isSome }
  else d

/-- `scheduler.schedule(this::startElection, …)`: no look at the role. -/
def electionTimer (d : Deployment Id) : Deployment Id :=
  if d.node.electionTimer then
    { d with node := { d.node with electionTimer := false } }.startElection
  else d

/-- A leader queues a send for each peer. -/
def heartbeatTask (d : Deployment Id) : Deployment Id :=
  if d.node.state.currentRole = LEADER then { d with sends := d.sends ++ d.node.peers } else d

def runTask (d : Deployment Id) (k : ℕ) : Deployment Id :=
  match d.sends[k]? with
  | some f => { d with
      node := Exec.finalState (sendAppendEntries f) d.node
      sends := d.sends.eraseIdx k }
  | none => d

/-- `requestVote` returns at once, with a future that the worker pool completes later. -/
def supplyAsync (d : Deployment Id) (e : ℕ) (peer : Id) : Deployment Id :=
  match d.campaigns[e]? with
  | none => d
  | some c =>
      if peer ∈ d.node.peers then
        d.setCampaign e { c with supplied := Function.update c.supplied peer true }
      else d

def sendVoteRequest (d : Deployment Id) (e : ℕ) (peer : Id) : Deployment Id :=
  match d.campaigns[e]? with
  | none => d
  | some c =>
      match c.supplied peer, c.requestVote peer with
      | true, .queued =>
          let request := d.node.requestVoteRequest c.lastLogIndex c.lastLogTerm
          d.setCampaign e
            { c with requestVote := Function.update c.requestVote peer (.sent request) }
      | _, _ => d

def voteResponse (d : Deployment Id) (e : ℕ) (peer : Id) (response : Option RequestVoteResponse) :
    Deployment Id :=
  match d.campaigns[e]? with
  | none => d
  | some c =>
      match c.requestVote peer with
      | .sent request =>
          match (requestVoteResponse response).run d.node with
          | .ok granted n =>
              { d with node := n }.setCampaign e
                { c with requestVote := Function.update c.requestVote peer (.done request granted) }
          | .error _ n => { d with node := n }
      | _ => d

def step (d : Deployment Id) : DeploymentStep Id → Deployment Id
  | .leaderElectionTask => d.leaderElectionTask
  | .electionTimer => d.electionTimer
  | .heartbeatTask => d.heartbeatTask
  | .runTask k => d.runTask k
  | .supplyAsync e peer => d.supplyAsync e peer
  | .sendVoteRequest e peer => d.sendVoteRequest e peer
  | .voteResponse e peer response => d.voteResponse e peer response
  | .thenAccept e => d.thenAccept e
  | .put key value => { d with node := d.node.step (.put key value) }
  | .get key => { d with node := d.node.step (.get key) }
  | .restart => ⟨d.node.restart, [], [], true⟩

/-- A new process on an empty database. -/
def start (nodeId : Id) (peerIds : List Id) : Deployment Id :=
  ⟨fresh nodeId peerIds, [], [], true⟩

def after (nodeId : Id) (peerIds : List Id) (as : List (DeploymentStep Id)) : Deployment Id :=
  Run.run step (start nodeId peerIds) as

/-- The put a step acknowledges, if it does. -/
def acknowledged (d : Deployment Id) : DeploymentStep Id → List (String × String)
  | .put key value => d.node.acknowledged (.put key value)
  | _ => []

/-- The acknowledged puts of a run, in order. -/
def acknowledgedPuts : Deployment Id → List (DeploymentStep Id) → List (String × String)
  | _, [] => []
  | d, a :: as => d.acknowledged a ++ acknowledgedPuts (d.step a) as

/-! ## What the database cannot touch

The role, the peers and the election timer of a node do not depend on what becomes of
its statements. -/

section OffStorage

open Exec

omit [DecidableEq Id]

variable {P : RaftNode Id → Prop} (hP : ∀ n s, P n → P (n.setStorage s))
include hP

/-- Applying committed entries touches the storage alone. -/
theorem triple_offStorage_applyCommittedEntries :
    Triple P applyCommittedEntries (fun _ => P) P := by
  rw [applyCommittedEntries]
  refine Triple.bind (triple_offStorage hP _) fun lastApplied => ?_
  refine Triple.bind (triple_offStorage hP _) fun commitIndex => ?_
  exact Triple.bind (triple_offStorage_applyLoop hP _ _) fun _ => triple_offStorage hP _

/-- So does the commit rule. -/
theorem triple_offStorage_updateCommitIndex :
    Triple P (updateCommitIndex : Method Id Unit) (fun _ => P) P := by
  have htry : ∀ i : ℤ, Triple P (tryCommit i) (fun _ => P) P := by
    intro i
    rw [tryCommit]
    refine Triple.bind (triple_offStorage hP _) fun entry => ?_
    refine Triple.bind (triple_offStorage_nonNull entry) fun own => ?_
    refine Triple.bind_get fun m hm => ?_
    refine Triple.pre (P := P) ?_ fun t ht => ht ▸ hm
    split_ifs
    · exact Triple.bind (triple_offStorage hP _) fun _ =>
        triple_offStorage_applyCommittedEntries hP
    · exact Triple.pure fun _ hn => hn
    · exact Triple.pure fun _ hn => hn
  have hloop : ∀ (rounds : ℕ) (i : ℤ), Triple P (commitLoop i rounds) (fun _ => P) P := by
    intro rounds
    induction rounds with
    | zero => exact fun i => Triple.pure fun _ hn => hn
    | succ rounds ih => exact fun i => Triple.bind (htry i) fun _ => ih (i + 1)
  rw [updateCommitIndex]
  refine Triple.bind (triple_offStorage hP _) fun last => ?_
  exact Triple.bind (triple_offStorage hP _) fun c => hloop _ _

end OffStorage

section Steps

variable {n m : RaftNode Id}

omit [DecidableEq Id] in
/-- The nodes differ in their storage only. -/
def OffStorage (n m : RaftNode Id) : Prop := ∃ s, m = n.setStorage s

omit [DecidableEq Id] in
/-- A node differs from itself in nothing. -/
theorem OffStorage.refl (n : RaftNode Id) : OffStorage n n := ⟨n.storage, rfl⟩

omit [DecidableEq Id] in
/-- A change of the storage is such a difference. -/
theorem OffStorage.setStorage (m : RaftNode Id) (s : SQLiteStorage) (h : OffStorage n m) :
    OffStorage n (m.setStorage s) := by
  obtain ⟨t, rfl⟩ := h
  exact ⟨s, rfl⟩

/-- A put on a node without peers. -/
theorem offStorage_put (h : n.peers = []) (key value : String) :
    OffStorage n (n.step (.put key value)) := by
  rw [step_put]
  refine Exec.Triple.finalState (P := OffStorage n) ?_ (OffStorage.refl n)
  rw [proposeEntry]
  refine Exec.Triple.bind_get fun m hm => ?_
  refine Exec.Triple.pre (P := OffStorage n) ?_ fun t ht => ht ▸ hm
  split_ifs
  · exact Exec.Triple.pure fun _ hn => hn
  · refine Exec.Triple.bind_get fun m' hm' => ?_
    refine Exec.Triple.pre (P := OffStorage n) ?_ fun t ht => ht ▸ hm'
    refine Exec.Triple.bind (triple_offStorage OffStorage.setStorage _) fun _ => ?_
    refine Exec.Triple.bind (triple_offStorage OffStorage.setStorage _) fun index => ?_
    rw [replicateEntry]
    refine Exec.Triple.bind_get fun x hx => ?_
    -- there is nobody to send to
    have hnobody : x.peers = [] := by
      obtain ⟨s, rfl⟩ := hx
      exact h
    rw [hnobody]
    refine Exec.Triple.pre (P := OffStorage n) ?_ fun t ht => ht ▸ hx
    refine Exec.Triple.bind (R := fun _ => OffStorage n) (Exec.Triple.pure fun _ hn => hn)
      fun _ => ?_
    refine Exec.Triple.bind (triple_offStorage_updateCommitIndex OffStorage.setStorage) fun _ => ?_
    exact Exec.Triple.pure fun _ hn => hn

/-- A get touches the storage alone. -/
theorem offStorage_get (key : String) : OffStorage n (n.step (.get key)) := by
  have hread := triple_offStorage OffStorage.setStorage (P := OffStorage n)
    (SQLiteStorage.get key)
  have hget : Exec.Triple (OffStorage n) (KVStoreServiceImpl.get key) (fun _ => OffStorage n)
      (OffStorage n) :=
    Exec.Triple.bind hread fun _ => Exec.Triple.pure fun _ hn => hn
  rw [RaftNode.step, handle, Exec.finalState_bind_pure]
  exact hget.finalState (OffStorage.refl n)

omit [DecidableEq Id] in
/-- Past its first assignments an election touches the storage alone. -/
theorem offStorage_startElection :
    OffStorage n.candidate (Exec.finalState RaftNode.startElection n) := by
  have hreads : Exec.Triple (OffStorage n.candidate)
      (do
        let lastLogIndex ← onStorage SQLiteStorage.getLastLogIndex
        let lastLogTerm ← onStorage SQLiteStorage.getLastLogTerm
        return (lastLogIndex, lastLogTerm))
      (fun _ => OffStorage n.candidate) (OffStorage n.candidate) := by
    refine Exec.Triple.bind (triple_offStorage OffStorage.setStorage _) fun _ => ?_
    refine Exec.Triple.bind (triple_offStorage OffStorage.setStorage _) fun _ => ?_
    exact Exec.Triple.pure fun _ h => h
  exact hreads.finalState (s := n.candidate) (OffStorage.refl _)

/-- A node without peers leads even if the read of its last index fails. -/
theorem offStorage_becomeLeader (h : n.peers = []) :
    OffStorage { n with state := n.state.becomeLeader } (n.step .becomeLeader) := by
  set l : RaftNode Id := { n with state := n.state.becomeLeader }
  have hread : Exec.Triple (OffStorage l)
      (do
        let lastLogIndex ← onStorage SQLiteStorage.getLastLogIndex
        modify fun n => resetIndices lastLogIndex n n.peers)
      (fun _ => OffStorage l) (OffStorage l) := by
    refine Exec.Triple.bind (triple_offStorage OffStorage.setStorage _) fun last => ?_
    refine Exec.Triple.modify ?_
    rintro m ⟨t, rfl⟩
    refine ⟨t, ?_⟩
    show resetIndices last _ n.peers = _
    rw [h]
    rfl
  rw [RaftNode.step, handle, Exec.finalState_bind_pure]
  exact hread.finalState (s := l) (OffStorage.refl l)

end Steps

/-! ## The node of a server -/

/-- The node has come to `n'` by events of its own that acknowledge `puts`. -/
def Comes (n n' : RaftNode Id) (puts : List (String × String)) : Prop :=
  ∃ evs : List (Event Id), (∀ ev ∈ evs, ev.isLocal = true) ∧ n' = n.after evs ∧
    n.acknowledgedPuts evs = puts

/-- No event has taken place. -/
theorem Comes.refl (n : RaftNode Id) : Comes n n [] := by
  exact ⟨[], fun _ h => absurd h List.not_mem_nil, rfl, rfl⟩

/-- One event. -/
theorem comes_step (n : RaftNode Id) (ev : Event Id) (h : ev.isLocal = true) :
    Comes n (n.step ev) (n.acknowledged ev) := by
  refine ⟨[ev], fun ev' hev' => ?_, rfl, List.append_nil _⟩
  rwa [List.mem_singleton.mp hev']

/-- What two runs in a row acknowledge. -/
theorem acknowledgedPuts_append (n : RaftNode Id) (evs evs' : List (Event Id)) :
    n.acknowledgedPuts (evs ++ evs')
      = n.acknowledgedPuts evs ++ (n.after evs).acknowledgedPuts evs' := by
  induction evs generalizing n with
  | nil => rfl
  | cons ev evs ih =>
      rw [List.cons_append, RaftNode.acknowledgedPuts, RaftNode.acknowledgedPuts, ih,
        List.append_assoc]
      rfl

/-- One run after the other. -/
theorem Comes.trans {n n' n'' : RaftNode Id} {puts puts' : List (String × String)}
    (h : Comes n n' puts) (h' : Comes n' n'' puts') : Comes n n'' (puts ++ puts') := by
  obtain ⟨evs, hlocal, rfl, rfl⟩ := h
  obtain ⟨evs', hlocal', rfl, rfl⟩ := h'
  refine ⟨evs ++ evs', fun ev hev => ?_, (Run.run_append _ _ _ _).symm,
    acknowledgedPuts_append n evs evs'⟩
  rcases List.mem_append.mp hev with hev | hev
  · exact hlocal ev hev
  · exact hlocal' ev hev

/-- **The callback makes a node leader only if it has no peers.**  On every other it throws
and changes nothing. -/
theorem finalState_callback (n : RaftNode Id) (c : Campaign Id) :
    Exec.finalState (tallyFutures (c.voteFutures n)) n
      = if n.peers = [] then n.step .becomeLeader else n := by
  unfold Campaign.voteFutures
  cases hpeers : n.peers with
  | nil =>
      have hlt : voteCount [] > n.peers.length / 2 := by
        simp [hpeers, voteCount]
      have hrun : (tallyFutures []).run n
          = (if voteCount [] > n.peers.length / 2 then becomeLeader else pure () :
              Method Id Unit).run n := run_tallyFutures []
      rw [if_pos hlt] at hrun
      rw [List.map_nil, if_pos rfl, RaftNode.step, handle, Exec.finalState_bind_pure,
        Exec.finalState, hrun, Exec.finalState]
  | cons f fs =>
      rw [List.map_cons, if_neg (List.cons_ne_nil f fs)]
      exact Exec.finalState_error (run_tallyFutures_nested _ _)

/-- A callback makes no event that acknowledges anything. -/
theorem comes_thenAccept (d : Deployment Id) (e : ℕ) : Comes d.node (d.thenAccept e).node [] := by
  unfold thenAccept
  split
  · exact Comes.refl _
  · split_ifs
    · show Comes d.node (Exec.finalState _ d.node) []
      rw [finalState_callback]
      split_ifs
      · exact comes_step d.node _ rfl
      · exact Comes.refl _
    · exact Comes.refl _

/-- Neither does an election. -/
theorem comes_startElection (d : Deployment Id) : Comes d.node d.startElection.node [] := by
  have hstep : d.node.step .startElection = Exec.finalState RaftNode.startElection d.node := by
    rw [RaftNode.step, handle, Exec.finalState_bind_pure]
  have hcomes : Comes d.node (Exec.finalState RaftNode.startElection d.node) [] := by
    rw [← hstep]
    exact comes_step d.node _ rfl
  unfold startElection
  rcases hrun : RaftNode.startElection.run d.node with ⟨⟨last, term⟩, n⟩ | ⟨err, n⟩
  · rw [Exec.finalState_ok hrun] at hcomes
    exact hcomes.trans (comes_thenAccept _ _)
  · rwa [Exec.finalState_error hrun] at hcomes

/-! ## Where a server can get to -/

/-- Nobody but the peers is asked, nothing is sent, and the node leads only if it has no
peers to ask.  Once the election task has thrown, the node does not lead. -/
structure Layout (d : Deployment Id) (ps : List Id) : Prop where
  peers : d.node.peers = ps
  asked : ∀ c ∈ d.campaigns, ∀ f, c.supplied f = true ∨ c.requestVote f ≠ .queued → f ∈ ps
  sends : d.sends = []
  timer : d.node.electionTimer = false
  role : d.node.state.currentRole = LEADER ↔ ps = [] ∧ d.campaigns ≠ []
  task : d.electionTask = false → d.node.state.currentRole ≠ LEADER

variable {d : Deployment Id} {ps : List Id} {puts : List (String × String)}

/-- **A server does to its node what the node's own events do.** -/
theorem Layout.comes (h : d.Layout ps) (a : DeploymentStep Id) :
    Comes d.node (d.step a).node (d.acknowledged a) := by
  cases a with
  | leaderElectionTask =>
      show Comes d.node d.leaderElectionTask.node []
      unfold leaderElectionTask
      split_ifs
      · exact comes_startElection d
      · exact Comes.refl _
  | electionTimer =>
      show Comes d.node d.electionTimer.node []
      rw [Deployment.electionTimer, h.timer, if_neg Bool.false_ne_true]
      exact Comes.refl _
  | heartbeatTask =>
      show Comes d.node d.heartbeatTask.node []
      unfold heartbeatTask
      split_ifs <;> exact Comes.refl _
  | runTask k =>
      show Comes d.node (d.runTask k).node []
      rw [runTask, h.sends, List.getElem?_nil]
      exact Comes.refl _
  | supplyAsync e peer =>
      show Comes d.node (d.supplyAsync e peer).node []
      unfold supplyAsync
      split
      · exact Comes.refl _
      · split_ifs <;> exact Comes.refl _
  | sendVoteRequest e peer =>
      show Comes d.node (d.sendVoteRequest e peer).node []
      unfold sendVoteRequest
      split
      · exact Comes.refl _
      · split <;> exact Comes.refl _
  | voteResponse e peer response =>
      show Comes d.node (d.voteResponse e peer response).node []
      have hstep : d.node.step (.voteResponse response)
          = Exec.finalState (requestVoteResponse response) d.node := by
        rw [RaftNode.step, handle, Exec.finalState_bind_pure]
      have hcomes : Comes d.node (Exec.finalState (requestVoteResponse response) d.node) [] := by
        rw [← hstep]
        exact comes_step d.node _ rfl
      unfold voteResponse
      split
      · exact Comes.refl _
      · split
        · rcases hrun : (requestVoteResponse response).run d.node with ⟨granted, n⟩ | ⟨err, n⟩
          · rwa [Exec.finalState_ok hrun] at hcomes
          · rwa [Exec.finalState_error hrun] at hcomes
        · exact Comes.refl _
  | thenAccept e => exact comes_thenAccept d e
  | put key value => exact comes_step d.node _ rfl
  | get key => exact comes_step d.node _ rfl
  | restart => exact comes_step d.node .restart rfl

/-- A server that has just started. -/
theorem layout_start (nodeId : Id) (peerIds : List Id) :
    (start nodeId peerIds).Layout peerIds.dedup where
  peers := rfl
  asked := fun _ hc => absurd hc List.not_mem_nil
  sends := rfl
  timer := rfl
  role := iff_of_false Role.noConfusion fun h => h.2 rfl
  task := fun _ => Role.noConfusion

omit [DecidableEq Id] in
/-- A change of the node that keeps its peers, its timer and whether it leads. -/
theorem Layout.setNode (h : d.Layout ps) {n : RaftNode Id} (hpeers : n.peers = d.node.peers)
    (htimer : n.electionTimer = d.node.electionTimer)
    (hrole : n.state.currentRole = LEADER ↔ d.node.state.currentRole = LEADER) :
    ({ d with node := n } : Deployment Id).Layout ps :=
  ⟨hpeers.trans h.peers, h.asked, h.sends, htimer.trans h.timer, hrole.trans h.role,
    fun htask => mt hrole.mp (h.task htask)⟩

omit [DecidableEq Id] in
/-- A change of one campaign that asks nobody but peers. -/
theorem Layout.setCampaign (h : d.Layout ps) {e : ℕ} {c : Campaign Id}
    (hc : ∀ f, c.supplied f = true ∨ c.requestVote f ≠ .queued → f ∈ ps) :
    (d.setCampaign e c).Layout ps := by
  refine ⟨h.peers, fun c' hc' => ?_, h.sends, h.timer, ?_, h.task⟩
  · rcases List.mem_or_eq_of_mem_set hc' with hc' | rfl
    · exact h.asked c' hc'
    · exact hc
  · show d.node.state.currentRole = LEADER ↔ ps = [] ∧ d.campaigns.set e c ≠ []
    rw [h.role, Ne, Ne, List.set_eq_nil_iff]

/-- A change of what one peer has been asked. -/
theorem Layout.setAsked (h : d.Layout ps) {e : ℕ} {c c' : Campaign Id} (hc : c ∈ d.campaigns)
    {peer : Id} (hpeer : peer ∈ ps) (hsame : ∀ f ≠ peer, c'.supplied f = c.supplied f ∧
      c'.requestVote f = c.requestVote f) : (d.setCampaign e c').Layout ps := by
  refine h.setCampaign fun f hf => ?_
  by_cases hfp : f = peer
  · rw [hfp]
    exact hpeer
  · obtain ⟨hsupplied, hvote⟩ := hsame f hfp
    rw [hsupplied, hvote] at hf
    exact h.asked c hc f hf

/-- The callback of a campaign that has begun changes nobody's role. -/
theorem Layout.thenAccept (h : d.Layout ps) (e : ℕ) : (d.thenAccept e).Layout ps := by
  unfold Deployment.thenAccept
  cases hc : d.campaigns[e]? with
  | none => exact h
  | some c =>
      have hmem := List.mem_of_getElem? hc
      dsimp only
      split_ifs
      · rw [finalState_callback]
        split_ifs with hpeers
        · -- it led before
          have hleads := h.role.mpr ⟨h.peers ▸ hpeers, List.ne_nil_of_mem hmem⟩
          obtain ⟨s, hs⟩ := offStorage_becomeLeader hpeers
          have hrole : (d.node.step .becomeLeader).state.currentRole = LEADER := by
            rw [hs]
            rfl
          refine Layout.setCampaign (h.setNode ?_ ?_ (iff_of_true hrole hleads)) (h.asked c hmem)
          · rw [hs]
            rfl
          · rw [hs]
            rfl
        · exact h.setCampaign (h.asked c hmem)
      · exact h

/-- An election whose statements succeed. -/
theorem startElection_ok {last term : ℤ} {n : RaftNode Id}
    (hrun : RaftNode.startElection.run d.node = .ok (last, term) n) :
    d.startElection = { d with
      node := if n.peers = [] then n.step .becomeLeader else n
      campaigns := d.campaigns ++ [⟨last, term, fun _ => false, fun _ => .queued,
        decide (n.peers = [])⟩] } := by
  unfold startElection
  rw [hrun]
  set c : Campaign Id := ⟨last, term, fun _ => false, fun _ => .queued, false⟩ with hc
  show Deployment.thenAccept { d with node := n, campaigns := d.campaigns ++ [c] }
    d.campaigns.length = _
  rw [Deployment.thenAccept, show (d.campaigns ++ [c])[d.campaigns.length]? = some c from
    List.getElem?_concat_length]
  have hnode := finalState_callback n c
  by_cases hpeers : n.peers = []
  · have hcomplete : c.Complete n := by
      refine ⟨rfl, fun f hf => ?_⟩
      rw [hpeers] at hf
      cases hf
    dsimp only
    rw [if_pos hcomplete, hnode, if_pos hpeers, decide_eq_true hpeers]
    unfold Deployment.setCampaign
    rw [List.set_append_right _ _ le_rfl, Nat.sub_self]
    rfl
  · have hcomplete : ¬ c.Complete n := by
      rintro ⟨-, hall⟩
      obtain ⟨f, hf⟩ := List.exists_mem_of_ne_nil _ hpeers
      exact Bool.false_ne_true (hall f hf)
    dsimp only
    rw [if_neg hcomplete, if_neg hpeers, decide_eq_false hpeers]

/-- An election that ends in an exception. -/
theorem startElection_error {err : JavaException} {n : RaftNode Id}
    (hrun : RaftNode.startElection.run d.node = .error err n) :
    d.startElection = { d with node := n } := by
  unfold startElection
  rw [hrun]

/-- **An election of a node that does not lead.** -/
theorem Layout.startElection (h : d.Layout ps) (halive : d.electionTask = true)
    (hrole : d.node.state.currentRole ≠ LEADER) : d.startElection.Layout ps := by
  have hoff := offStorage_startElection (n := d.node)
  rcases hrun : RaftNode.startElection.run d.node with ⟨⟨last, term⟩, n⟩ | ⟨err, n⟩
  · rw [Exec.finalState_ok hrun] at hoff
    obtain ⟨s, rfl⟩ := hoff
    rw [startElection_ok hrun]
    have hps : (d.node.candidate.setStorage s).peers = ps := h.peers
    -- nobody has been asked in the new campaign
    have hasked : ∀ c ∈ d.campaigns ++ [⟨last, term, fun _ => false, fun _ => .queued,
        decide ((d.node.candidate.setStorage s).peers = [])⟩], ∀ f,
        c.supplied f = true ∨ c.requestVote f ≠ .queued → f ∈ ps := by
      intro c hc f hf
      rcases List.mem_append.mp hc with hc | hc
      · exact h.asked c hc f hf
      · rw [List.mem_singleton.mp hc] at hf
        rcases hf with hf | hf
        · exact absurd hf Bool.false_ne_true
        · exact absurd rfl hf
    split_ifs with hpeers
    · obtain ⟨s', hs'⟩ := offStorage_becomeLeader hpeers
      refine ⟨?_, hasked, h.sends, ?_, iff_of_true ?_ ⟨hps ▸ hpeers, ?_⟩, ?_⟩
      · rw [hs']
        exact hps
      · rw [hs']
        exact h.timer
      · rw [hs']
        rfl
      · exact List.append_ne_nil_of_right_ne_nil _ (List.cons_ne_nil _ _)
      · exact fun htask => absurd (halive.symm.trans htask) Bool.noConfusion
    · refine ⟨hps, hasked, h.sends, h.timer, ?_, fun _ => Role.noConfusion⟩
      exact iff_of_false Role.noConfusion fun hc => hpeers (hps.trans hc.1)
  · rw [Exec.finalState_error hrun] at hoff
    obtain ⟨s, rfl⟩ := hoff
    rw [startElection_error hrun]
    refine ⟨h.peers, h.asked, h.sends, h.timer, ?_, fun _ => Role.noConfusion⟩
    exact iff_of_false Role.noConfusion fun hc => hrole (h.role.mpr hc)

/-- The election task, also where it throws. -/
theorem Layout.leaderElectionTask (h : d.Layout ps) : d.leaderElectionTask.Layout ps := by
  unfold Deployment.leaderElectionTask
  split_ifs with hruns
  · have hnext := h.startElection hruns.1 hruns.2
    refine ⟨hnext.peers, hnext.asked, hnext.sends, hnext.timer, hnext.role, fun hthrown => ?_⟩
    -- an election that has thrown has not won
    have hoff := offStorage_startElection (n := d.node)
    rcases hrun : RaftNode.startElection.run d.node with ⟨a, n⟩ | ⟨err, n⟩
    · have hanswer : d.node.answer .startElection = some .done := by
        rw [answer, handle, Exec.run_bind_ok hrun]
        rfl
      simp [hanswer] at hthrown
    · rw [Exec.finalState_error hrun] at hoff
      obtain ⟨s, rfl⟩ := hoff
      rw [startElection_error hrun]
      exact Role.noConfusion
  · exact h

/-- The worker thread that starts a request. -/
theorem Layout.supplyAsync (h : d.Layout ps) (e : ℕ) (peer : Id) :
    (d.supplyAsync e peer).Layout ps := by
  unfold Deployment.supplyAsync
  cases hc : d.campaigns[e]? with
  | none => exact h
  | some c =>
      dsimp only
      split_ifs with hpeer
      · refine h.setAsked (List.mem_of_getElem? hc) (h.peers ▸ hpeer) fun f hf => ⟨?_, rfl⟩
        exact Function.update_of_ne hf _ _
      · exact h

/-- A request that is sent. -/
theorem Layout.sendVoteRequest (h : d.Layout ps) (e : ℕ) (peer : Id) :
    (d.sendVoteRequest e peer).Layout ps := by
  unfold Deployment.sendVoteRequest
  cases hc : d.campaigns[e]? with
  | none => exact h
  | some c =>
      have hmem := List.mem_of_getElem? hc
      dsimp only
      split
      · rename_i hsupplied _
        refine h.setAsked hmem (h.asked c hmem peer (Or.inl hsupplied)) fun f hf => ⟨rfl, ?_⟩
        exact Function.update_of_ne hf _ _
      · exact h

/-- Only a node with peers gets a response, and such a node does not lead. -/
theorem Layout.voteResponse (h : d.Layout ps) (e : ℕ) (peer : Id)
    (response : Option RequestVoteResponse) : (d.voteResponse e peer response).Layout ps := by
  unfold Deployment.voteResponse
  cases hc : d.campaigns[e]? with
  | none => exact h
  | some c =>
      have hmem := List.mem_of_getElem? hc
      dsimp only
      split
      · rename_i request hsent
        have hpeer : peer ∈ ps := by
          refine h.asked c hmem peer (Or.inr ?_)
          rw [hsent]
          simp
        have hother : d.node.state.currentRole ≠ LEADER := fun hleads =>
          List.ne_nil_of_mem hpeer (h.role.mp hleads).1
        have hset : ∀ {n : RaftNode Id} {granted : Bool}, n.peers = d.node.peers →
            n.electionTimer = d.node.electionTimer → n.state.currentRole ≠ LEADER →
            (({ d with node := n } : Deployment Id).setCampaign e { c with
              requestVote := Function.update c.requestVote peer (.done request granted) }).Layout
                ps := by
          intro n granted hpeers htimer hrole
          refine (h.setNode hpeers htimer (iff_of_false hrole hother)).setAsked hmem hpeer
            fun f hf => ⟨rfl, ?_⟩
          exact Function.update_of_ne hf _ _
        cases response with
        | none => exact hset rfl rfl hother
        | some r =>
            rw [run_requestVoteResponse]
            unfold responded
            split_ifs
            · exact hset rfl rfl Role.noConfusion
            · exact hset rfl rfl hother
      · exact h

omit [DecidableEq Id] in
/-- A change of the storage. -/
theorem Layout.offStorage (h : d.Layout ps) {n : RaftNode Id} (hn : OffStorage d.node n) :
    ({ d with node := n } : Deployment Id).Layout ps := by
  obtain ⟨s, rfl⟩ := hn
  exact h.setNode rfl rfl Iff.rfl

/-- **One step of a server**, whatever becomes of its statements. -/
theorem Layout.step (h : d.Layout ps) (a : DeploymentStep Id) : (d.step a).Layout ps := by
  cases a with
  | leaderElectionTask => exact h.leaderElectionTask
  | electionTimer =>
      show d.electionTimer.Layout ps
      rw [Deployment.electionTimer, h.timer, if_neg Bool.false_ne_true]
      exact h
  | heartbeatTask =>
      show d.heartbeatTask.Layout ps
      unfold Deployment.heartbeatTask
      split_ifs with hleads
      · -- a leader has nobody to send to
        refine ⟨h.peers, h.asked, ?_, h.timer, h.role, h.task⟩
        rw [h.sends, h.peers, (h.role.mp hleads).1]
        rfl
      · exact h
  | runTask k =>
      show (d.runTask k).Layout ps
      rw [runTask, h.sends, List.getElem?_nil]
      exact h
  | supplyAsync e peer => exact h.supplyAsync e peer
  | sendVoteRequest e peer => exact h.sendVoteRequest e peer
  | voteResponse e peer response => exact h.voteResponse e peer response
  | thenAccept e => exact h.thenAccept e
  | put key value =>
      by_cases hrole : d.node.state.currentRole = LEADER
      · exact h.offStorage (offStorage_put (h.peers.trans (h.role.mp hrole).1) key value)
      · have hstep : d.node.step (.put key value) = d.node :=
          step_of_run (run_put_other hrole key value)
        show ({ d with node := d.node.step (.put key value) } : Deployment Id).Layout ps
        rw [hstep]
        exact h
  | get key => exact h.offStorage (offStorage_get key)
  | restart =>
      refine ⟨d.node.peersNodup.dedup.trans h.peers, ?_, rfl, rfl, ?_, fun _ => Role.noConfusion⟩
      · exact fun _ hc => absurd hc List.not_mem_nil
      · exact iff_of_false Role.noConfusion fun hc => hc.2 rfl

/-! ## Servers whose statements succeed -/

/-- The node of the server holds the acknowledged puts. -/
structure Inv (d : Deployment Id) (ps : List Id) (puts : List (String × String)) : Prop where
  layout : d.Layout ps
  map : MapInv d.node puts

/-- A server that has just started has acknowledged nothing. -/
theorem inv_start (nodeId : Id) (peerIds : List Id) :
    (start nodeId peerIds).Inv peerIds.dedup [] :=
  ⟨layout_start nodeId peerIds, mapInv_fresh nodeId peerIds⟩

/-- **One step of the process.** -/
theorem Inv.step (h : d.Inv ps puts) (a : DeploymentStep Id) :
    (d.step a).Inv ps (puts ++ d.acknowledged a) := by
  refine ⟨h.layout.step a, ?_⟩
  obtain ⟨evs, hlocal, hnode, hputs⟩ := h.layout.comes a
  rw [hnode, ← hputs]
  exact h.map.run hlocal

/-- **A run of the process.** -/
theorem Inv.run (h : d.Inv ps puts) (as : List (DeploymentStep Id)) :
    (Run.run Deployment.step d as).Inv ps (puts ++ acknowledgedPuts d as) := by
  induction as generalizing d puts with
  | nil =>
      rw [acknowledgedPuts, List.append_nil]
      exact h
  | cons a as ih =>
      rw [acknowledgedPuts, ← List.append_assoc, Run.run_cons]
      exact ih (h.step a)

/-! ## Main results -/

/-- The server after a run from an empty database. -/
theorem inv_after (nodeId : Id) (peerIds : List Id) (as : List (DeploymentStep Id)) :
    (after nodeId peerIds as).Inv peerIds.dedup
      (acknowledgedPuts (start nodeId peerIds) as) := by
  have hrun := (inv_start nodeId peerIds).run as
  rwa [List.nil_append] at hrun

/-- Who is answered `true`. -/
theorem answer_put_after (nodeId : Id) (peerIds : List Id) (as : List (DeploymentStep Id))
    (key value : String) :
    (after nodeId peerIds as).node.answer (.put key value)
      = some (.put ⟨peerIds.isEmpty && !(after nodeId peerIds as).campaigns.isEmpty⟩) := by
  have hinv := inv_after nodeId peerIds as
  set d := after nodeId peerIds as
  have hleads : (peerIds.isEmpty && !d.campaigns.isEmpty)
      = decide (d.node.state.currentRole = LEADER) := by
    rw [Bool.eq_iff_iff, decide_eq_true_iff, hinv.layout.role, List.dedup_eq_nil]
    simp
  rw [hleads]
  by_cases hrole : d.node.state.currentRole = LEADER
  · obtain ⟨n', hrun, -⟩ := hinv.map.inStep.put_leader hrole key value
    simp [answer, hrun, hrole]
  · simp [answer, run_put_other hrole key value, hrole]

/-- **A deployed server is a correct map that acknowledges puts only without peers**, if its
calls come one after the other.  After every run from an empty database a put is answered
`true` exactly when the server was given no peers and has begun an election since it was
started last, and a get is answered with the most recent acknowledged put of its key. -/
theorem deployed_server (nodeId : Id) (peerIds : List Id) (as : List (DeploymentStep Id)) :
    let d := after nodeId peerIds as
    let puts := acknowledgedPuts (start nodeId peerIds) as
    (∀ key value, d.node.answer (.put key value)
      = some (.put ⟨peerIds.isEmpty && !d.campaigns.isEmpty⟩)) ∧
    ∀ key, d.node.answer (.get key) = some (.get (getAnswer (mostRecent puts key))) := by
  intro d puts
  have hinv := inv_after nodeId peerIds as
  refine ⟨answer_put_after nodeId peerIds as, fun key => ?_⟩
  rw [answer, run_get hinv.map.inStep.sane, hinv.map.kvStore_eq]

/-! ## Servers and their configurations -/

/-- What a server meets when it starts. -/
structure Environment where
  /-- `Integer.parseInt`, where it does not throw. -/
  parseInt : Text → Option ℤ
  /-- The connection to `dbUrl` is made, and every statement that creates a table succeeds.
  (SQLite itself takes `index` for a keyword and refuses the table `logs`.) -/
  opens : Option Text → Bool
  /-- gRPC gets hold of the port. -/
  binds : ℤ → Bool

/-- `new KVStoreServer(config)` and `start()`, on an empty database; none where one of them
throws. -/
def create (env : Environment) (config : ServerConfig) : Option (Deployment Text) := do
  let nodeId ← config.nodeId
  let port ← env.parseInt (← (Text.split ':' nodeId)[1]?)
  if env.opens config.storagePath && env.binds port then
    return start nodeId config.peers
  else
    none

/-- When a server comes up. -/
theorem create_eq_some_iff {env : Environment} {config : ServerConfig} {d : Deployment Text} :
    create env config = some d ↔ ∃ nodeId text port, config.nodeId = some nodeId ∧
      (Text.split ':' nodeId)[1]? = some text ∧ env.parseInt text = some port ∧
      (env.opens config.storagePath && env.binds port) = true ∧ d = start nodeId config.peers := by
  unfold create
  constructor
  · intro h
    obtain ⟨nodeId, hnode, h⟩ := Option.bind_eq_some_iff.mp h
    obtain ⟨text, htext, h⟩ := Option.bind_eq_some_iff.mp h
    obtain ⟨port, hport, h⟩ := Option.bind_eq_some_iff.mp h
    split_ifs at h with hcomes
    exact ⟨nodeId, text, port, hnode, htext, hport, hcomes, (Option.some.inj h).symm⟩
  · rintro ⟨nodeId, text, port, hnode, htext, hport, hcomes, rfl⟩
    refine Option.bind_eq_some_iff.mpr ⟨nodeId, hnode, ?_⟩
    refine Option.bind_eq_some_iff.mpr ⟨text, htext, ?_⟩
    refine Option.bind_eq_some_iff.mpr ⟨port, hport, ?_⟩
    rw [if_pos hcomes]
    rfl

/-- **Only commas make a server that acknowledges anything.**  A server that comes up from a
configuration file acknowledges some put in some run, its calls coming one after the other,
exactly when the property `peers` is not empty and consists of commas. -/
theorem acknowledges_iff {env : Environment} {getProperty : String → Option Text}
    {config : ServerConfig} {d : Deployment Text}
    (hload : ServerConfig.load getProperty = .ok config)
    (hcreate : create env config = some d) :
    (∃ (as : List (DeploymentStep Text)) (key value : String),
      (Run.run step d as).node.answer (.put key value) = some (.put ⟨true⟩)) ↔
    ∃ peers, getProperty "peers" = some peers ∧ peers ≠ [] ∧ ∀ c ∈ peers, c = ',' := by
  obtain ⟨nodeId, -, -, -, -, -, -, rfl⟩ := create_eq_some_iff.mp hcreate
  -- the file names a list of peers
  obtain ⟨peers, hpeers, hconfig⟩ : ∃ peers, getProperty "peers" = some peers ∧
      config.peers = Text.split ',' peers := by
    unfold ServerConfig.load at hload
    cases hget : getProperty "peers" with
    | none =>
        rw [hget] at hload
        cases hload
    | some peers =>
        rw [hget] at hload
        injection hload with hload
        exact ⟨peers, rfl, hload ▸ rfl⟩
  have hanswer := answer_put_after nodeId config.peers
  have hempty : config.peers = [] ↔ peers ≠ [] ∧ ∀ c ∈ peers, c = ',' := by
    rw [hconfig, split_eq_nil_iff]
  constructor
  · rintro ⟨as, key, value, hput⟩
    have hnone := (hanswer as key value).symm.trans hput
    simp only [Option.some.injEq, Answer.put.injEq, PutResponse.mk.injEq, Bool.and_eq_true,
      List.isEmpty_iff] at hnone
    exact ⟨peers, hpeers, hempty.mp hnone.1⟩
  · rintro ⟨peers', hpeers', hcommas⟩
    obtain rfl : peers = peers' := Option.some.inj (hpeers.symm.trans hpeers')
    have hnil := hempty.mpr hcommas
    refine ⟨[.leaderElectionTask], "", "", (hanswer [.leaderElectionTask] "" "").trans ?_⟩
    rw [hnil]
    rfl

/-- The properties of a server with two peers. -/
def twoPeers : String → Option Text
  | "node.id" => some "127.0.0.1:50051".toList
  | "peers" => some "127.0.0.1:50052,127.0.0.1:50053".toList
  | "storage.path" => some "jdbc:sqlite:kv.db".toList
  | _ => none

/-- What they say. -/
def twoPeersConfig : ServerConfig :=
  ⟨some "127.0.0.1:50051".toList, ["127.0.0.1:50052".toList, "127.0.0.1:50053".toList],
    some "jdbc:sqlite:kv.db".toList⟩

/-- A machine on which they make a server. -/
def machine : Environment where
  parseInt text := if text = "50051".toList then some 50051 else none
  opens dbUrl := dbUrl.any ("jdbc:sqlite:".toList.isPrefixOf ·)
  binds port := decide (0 ≤ port ∧ port < 65536)

/-- The theorem at a server with two peers: no run makes it acknowledge a put. -/
theorem acknowledges_iff_twoPeers :
    ¬ ∃ (as : List (DeploymentStep Text)) (key value : String),
      (Run.run step (start "127.0.0.1:50051".toList twoPeersConfig.peers) as).node.answer
        (.put key value) = some (.put ⟨true⟩) := by
  have hload : ServerConfig.load twoPeers = .ok twoPeersConfig := by
    decide +kernel
  have hcreate : create machine twoPeersConfig
      = some (start "127.0.0.1:50051".toList twoPeersConfig.peers) := by
    refine create_eq_some_iff.mpr ⟨_, "50051".toList, 50051, rfl, ?_, rfl, ?_, rfl⟩
    · decide +kernel
    · decide +kernel
  intro hacks
  obtain ⟨peers, hpeers, -, hcommas⟩ := (acknowledges_iff hload hcreate).mp hacks
  obtain rfl := Option.some.inj hpeers
  exact absurd (hcommas '1' (by decide)) (by decide)

end Deployment

end KVStore
