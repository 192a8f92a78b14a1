/-
# The futures of an election

`startElection` wraps each call of `requestVote` in a `supplyAsync`, but
`requestVote` itself returns a future: the value of the outer future is the inner
future, not a vote.  The array that holds the outer futures is created with an
unchecked type, so nothing notices until the callback asks the joined object for
its `booleanValue`.

Here the futures are kept as the objects they are.  An election then ends as its
votes say only on a node without peers (`decided_iff`); on every other node the
callback throws and the votes are never counted.
-/
import KVStore.Events

namespace KVStore

open Role RaftNode

/-- A Java object, as far as the callback of the election sees it. -/
inductive JavaObject : Type where
  | boolean (b : Bool)
  /-- A future that is completed with the given object. -/
  | completableFuture (value : JavaObject)
  deriving DecidableEq, Repr

namespace RaftNode

variable {Id : Type}

/-! ## The methods -/

/-- The future of a supplier, once the supplier has run. -/
def supplyAsync (supplier : Method Id JavaObject) : Method Id JavaObject := do
  return .completableFuture (← supplier)

/-- `CompletableFuture::join` on a completed future. -/
def join : JavaObject → Method Id JavaObject
  | .completableFuture value => return value
  | .boolean _ => throw .classCastException

/-- `Boolean::booleanValue`, after the cast its receiver type asks for. -/
def booleanValue : JavaObject → Method Id Bool
  | .boolean b => return b
  | .completableFuture _ => throw .classCastException

/-- The whole method: it returns the future of its own `supplyAsync`. -/
def requestVote (response : Option RequestVoteResponse) : Method Id JavaObject :=
  supplyAsync (do return .boolean (← requestVoteResponse response))

/-- `voteFutures`, for the given peers and what each of them answers. -/
def voteFutures (responses : Id → Option RequestVoteResponse) :
    List Id → Method Id (List JavaObject)
  | [] => return []
  | peer :: peers => do
      let future ← supplyAsync (requestVote (responses peer))
      let futures ← voteFutures responses peers
      return future :: futures

/-- `Arrays.stream(voteFutures).map(join).filter(booleanValue).count()` -/
def countVotes : List JavaObject → Method Id ℕ
  | [] => return 0
  | future :: futures => do
      let granted ← booleanValue (← join future)
      let count ← countVotes futures
      return if granted then count + 1 else count

variable [DecidableEq Id]

/-- The callback of `CompletableFuture.allOf`. -/
def tallyFutures (futures : List JavaObject) : Method Id Unit := do
  let voteCount := (← countVotes futures) + 1
  if voteCount > (← get).peers.length / 2 then
    becomeLeader

/-- One election with nothing in between: the requests are sent and answered, and
the callback runs when all of them have finished. -/
def election (responses : Id → Option RequestVoteResponse) : Method Id Unit := do
  let _ ← startElection
  let futures ← voteFutures responses (← get).peers
  tallyFutures futures

/-! ## What they compute -/

variable {n : RaftNode Id}

/-- What the peer answered, as a vote. -/
def voteOf (responses : Id → Option RequestVoteResponse) (peer : Id) : Bool :=
  match responses peer with
  | some response => response.voteGranted
  | none => false

omit [DecidableEq Id] in
/-- A response of no higher term changes nothing. -/
theorem run_requestVote {responses : Id → Option RequestVoteResponse} {peer : Id}
    (h : ∀ r ∈ responses peer, r.term ≤ n.state.currentTerm) :
    (requestVote (responses peer)).run n
      = .ok (.completableFuture (.boolean (voteOf responses peer))) n := by
  have hresponse : (requestVoteResponse (responses peer)).run n
      = .ok (voteOf responses peer) n := by
    unfold voteOf
    cases hr : responses peer with
    | none => rfl
    | some r =>
        have hle : ¬ r.term > n.state.currentTerm := not_lt.mpr (h r hr)
        rw [run_requestVoteResponse, responded, if_neg hle, if_neg hle]
  rw [requestVote, supplyAsync, bind_assoc, Exec.run_bind_ok hresponse]
  rfl

omit [DecidableEq Id] in
/-- **The value of each future is a future.** -/
theorem run_voteFutures {responses : Id → Option RequestVoteResponse} {peers : List Id}
    (h : ∀ f ∈ peers, ∀ r ∈ responses f, r.term ≤ n.state.currentTerm) :
    (voteFutures responses peers).run n
      = .ok (peers.map fun f =>
          .completableFuture (.completableFuture (.boolean (voteOf responses f)))) n := by
  induction peers with
  | nil => rfl
  | cons f fs ih =>
      have hf : (supplyAsync (requestVote (responses f))).run n
          = .ok (.completableFuture (.completableFuture (.boolean (voteOf responses f)))) n :=
        Exec.run_bind_ok (run_requestVote (h f List.mem_cons_self))
      rw [voteFutures, Exec.run_bind_ok hf,
        Exec.run_bind_ok (ih fun g hg => h g (List.mem_cons_of_mem _ hg))]
      rfl

omit [DecidableEq Id] in
/-- Futures of votes are counted. -/
theorem run_countVotes (vs : List Bool) :
    (countVotes (vs.map fun b => .completableFuture (.boolean b))).run n
      = .ok (vs.filter id).length n := by
  induction vs with
  | nil => rfl
  | cons b vs ih =>
      have hjoin : (do booleanValue (← join (.completableFuture (.boolean b))) :
          Method Id Bool).run n = .ok b n := rfl
      rw [List.map_cons, countVotes, ← bind_assoc, Exec.run_bind_ok hjoin, Exec.run_bind_ok ih]
      cases b <;> rfl

/-- On futures of votes the callback is `tally`. -/
theorem run_tallyFutures (vs : List Bool) :
    (tallyFutures (vs.map fun b => .completableFuture (.boolean b))).run n
      = (tally vs).run n := by
  rw [tallyFutures, Exec.run_bind_ok (run_countVotes vs)]
  rfl

/-- On a future of a future it throws. -/
theorem run_tallyFutures_nested (value : JavaObject) (futures : List JavaObject) :
    (tallyFutures (.completableFuture (.completableFuture value) :: futures)).run n
      = .error .classCastException n := rfl

/-! ## An election and its votes -/

theorem run_election (h : n.Healthy) {responses : Id → Option RequestVoteResponse}
    (hterm : ∀ f ∈ n.peers, ∀ r ∈ responses f, r.term ≤ n.candidate.state.currentTerm) :
    (election responses).run n =
      (tallyFutures (n.peers.map fun f =>
        .completableFuture (.completableFuture (.boolean (voteOf responses f))))).run
        n.candidate := by
  have hget : ∀ f : RaftNode Id → Method Id Unit,
      (get >>= f).run n.candidate = (f n.candidate).run n.candidate := fun f => rfl
  have hfutures : (voteFutures responses n.candidate.peers).run n.candidate = _ :=
    run_voteFutures hterm
  rw [election, Exec.run_bind_ok (run_startElection h), hget, Exec.run_bind_ok hfutures]
  rfl

/-- The votes granted to the node, its own included. -/
def grantedVotes (n : RaftNode Id) (responses : Id → Option RequestVoteResponse) : ℕ :=
  (n.peers.filter (voteOf responses)).length + 1

/-- The election ends as its votes say: without an exception, and with the node as
leader if the granted votes are a strict majority of all nodes, as candidate
otherwise. -/
def Decided (n : RaftNode Id) (responses : Id → Option RequestVoteResponse) : Prop :=
  ∃ n', (election responses).run n = .ok () n' ∧
    n'.state.currentRole =
      if 2 * n.grantedVotes responses > n.peers.length + 1 then LEADER else CANDIDATE

/-- **An election is decided by its votes exactly when there is no peer to ask.** -/
theorem decided_iff (n : RaftNode Id) (h : n.Healthy)
    (responses : Id → Option RequestVoteResponse)
    (hterm : ∀ f ∈ n.peers, ∀ r ∈ responses f, r.term ≤ n.candidate.state.currentTerm) :
    n.Decided responses ↔ n.peers = [] := by
  constructor
  · rintro ⟨n', hrun, -⟩
    rw [run_election h hterm] at hrun
    -- the first future already has a future for its value
    cases hpeers : n.peers with
    | nil => rfl
    | cons f fs =>
        rw [hpeers, List.map_cons, run_tallyFutures_nested] at hrun
        cases hrun
  · intro hpeers
    have hrun := run_election h hterm
    rw [hpeers, List.map_nil] at hrun
    have htally : (tallyFutures []).run n.candidate = becomeLeader.run n.candidate := by
      have hlt : voteCount [] > n.candidate.peers.length / 2 := by
        show 1 > n.peers.length / 2
        simp [hpeers]
      have hbody : (tally []).run n.candidate
          = (if voteCount [] > n.candidate.peers.length / 2 then becomeLeader else pure () :
              Method Id Unit).run n.candidate := rfl
      rw [← List.map_nil, run_tallyFutures, hbody, if_pos hlt]
    refine ⟨n.candidate.elected, ?_, ?_⟩
    · rw [hrun, htally]
      exact run_becomeLeader h
    · rw [state_elected, if_pos]
      · rfl
      · simp [grantedVotes, hpeers]

/-- Both peers grant their vote. -/
def allGrant (_ : ℕ) : Option RequestVoteResponse := some ⟨1, true⟩

theorem not_decided_allGrant :
    (election allGrant).run (fresh 0 [1, 2])
        = .error .classCastException (fresh 0 [1, 2]).candidate ∧
      ¬ (fresh 0 [1, 2]).Decided allGrant := by
  have hrun : (election allGrant).run (fresh 0 [1, 2])
      = .error .classCastException (fresh 0 [1, 2]).candidate := by
    rw [run_election (sane_fresh 0 [1, 2]).healthy (by decide)]
    exact run_tallyFutures_nested _ _
  refine ⟨hrun, ?_⟩
  rintro ⟨n', hok, -⟩
  rw [hrun] at hok
  cases hok

theorem decided_alone : (fresh 0 ([] : List ℕ)).Decided allGrant :=
  (decided_iff (fresh 0 []) (sane_fresh 0 []).healthy allGrant (by decide)).mpr rfl

end RaftNode

end KVStore
