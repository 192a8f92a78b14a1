/-
# Elections

A server process and its elections.  `startElection` queues one vote future for
each peer; later each future sends its request, which reads the node's term at
that moment, and later still its response arrives; when all futures of an
election are done the tally runs, at any later time.  In between the node may
start further elections, see higher terms and follow other leaders.

The handler of a vote request is not part of the source: responses are inputs,
and the votes cast in a run are recorded (`ElectionCluster.votes`) so that "one
vote per voter and term" can be stated.

`tally` does not look at the node's term or role.  Where every tally that passes
the test counts a majority of votes of the node's current term, its own among
them (`SoundTally`), no two nodes lead in the same term.
-/
import KVStore.Quorum
import KVStore.Cluster

namespace KVStore

open Role RaftNode

variable {Id : Type}

/-! ## Processes -/

/-- One vote future of an election; the request is the one it sent. -/
inductive VoteFuture (Id : Type) : Type where
  | queued
  | sent (request : RequestVoteRequest Id)
  | done (request : RequestVoteRequest Id) (granted : Bool)

namespace VoteFuture

def isDone : VoteFuture Id → Bool
  | .done _ _ => true
  | _ => false

/-- The Boolean the future completes with. -/
def granted : VoteFuture Id → Bool
  | .done _ granted => granted
  | _ => false

/-- The request of a completed future carried term `t`. -/
def CarriedTerm (t : ℤ) : VoteFuture Id → Prop
  | .done request _ => request.term = t
  | _ => False

instance (t : ℤ) : ∀ f : VoteFuture Id, Decidable (f.CarriedTerm t)
  | .done request _ => inferInstanceAs (Decidable (request.term = t))
  | .queued | .sent _ => inferInstanceAs (Decidable False)

/-- The request has been sent and not been answered. -/
def isSent : VoteFuture Id → Bool
  | .sent _ => true
  | _ => false

end VoteFuture

/-- What one call of `startElection` leaves behind. -/
structure Election (Id : Type) where
  lastLogIndex : ℤ
  lastLogTerm : ℤ
  futures : Id → VoteFuture Id
  /-- Whether the callback of `allOf` has run. -/
  tallied : Bool

/-- The futures are all done and the callback has not run yet. -/
def Election.Ready (el : Election Id) (n : RaftNode Id) : Prop :=
  el.tallied = false ∧ ∀ f ∈ n.peers, (el.futures f).isDone = true

instance (el : Election Id) (n : RaftNode Id) : Decidable (el.Ready n) :=
  inferInstanceAs (Decidable (_ ∧ _))

/-- What the callback reads from the futures, in the order of the peers. -/
def Election.results (el : Election Id) (n : RaftNode Id) : List Bool :=
  n.peers.map fun f => (el.futures f).granted

structure Process (Id : Type) where
  node : RaftNode Id
  elections : List (Election Id)

namespace Process

variable [DecidableEq Id]

def startElection (p : Process Id) : Process Id :=
  match RaftNode.startElection.run p.node with
  | .ok (lastLogIndex, lastLogTerm) n =>
      ⟨n, p.elections ++ [⟨lastLogIndex, lastLogTerm, fun _ => .queued, false⟩]⟩
  | .error _ n => ⟨n, p.elections⟩

/-- Replace the future of `peer` in election `e`. -/
def setFuture (p : Process Id) (e : ℕ) (el : Election Id) (peer : Id) (f : VoteFuture Id) :
    List (Election Id) :=
  p.elections.set e { el with futures := Function.update el.futures peer f }

/-- The future of `peer` in election `e` sends its request. -/
def sendVoteRequest (p : Process Id) (e : ℕ) (peer : Id) : Process Id :=
  match p.elections[e]? with
  | none => p
  | some el =>
      match el.futures peer with
      | .queued =>
          if peer ∈ p.node.peers then
            let request := p.node.requestVoteRequest el.lastLogIndex el.lastLogTerm
            { p with elections := p.setFuture e el peer (.sent request) }
          else p
      | _ => p

/-- The response to that request arrives. -/
def voteResponse (p : Process Id) (e : ℕ) (peer : Id) (response : Option RequestVoteResponse) :
    Process Id :=
  match p.elections[e]? with
  | none => p
  | some el =>
      match el.futures peer with
      | .sent request =>
          match (requestVoteResponse response).run p.node with
          | .ok granted n => ⟨n, p.setFuture e el peer (.done request granted)⟩
          | .error _ n => { p with node := n }
      | _ => p

/-- The callback of election `e` runs. -/
def tally (p : Process Id) (e : ℕ) : Process Id :=
  match p.elections[e]? with
  | none => p
  | some el =>
      if el.Ready p.node then
        ⟨Exec.finalState (RaftNode.tally (el.results p.node)) p.node,
          p.elections.set e { el with tallied := true }⟩
      else p

end Process

/-! ### What a response and a tally do -/

section

variable [DecidableEq Id]

/-- The node after the callback of an election. -/
theorem finalState_tally {n : RaftNode Id} (h : n.Healthy) (votes : List Bool) :
    Exec.finalState (RaftNode.tally votes) n
      = if voteCount votes > n.peers.length / 2 then n.elected else n := by
  have hget : (RaftNode.tally votes).run n
      = (if voteCount votes > n.peers.length / 2 then becomeLeader else pure () :
          Method Id Unit).run n := rfl
  unfold Exec.finalState
  rw [hget]
  split_ifs
  · rw [run_becomeLeader h]
  · rfl

end

namespace Process

/-- The request of `peer` in election `e` is out. -/
def Awaits (p : Process Id) (e : ℕ) (peer : Id) : Prop :=
  ∃ el ∈ p.elections[e]?, (el.futures peer).isSent = true

instance (p : Process Id) (e : ℕ) (peer : Id) : Decidable (p.Awaits e peer) :=
  inferInstanceAs (Decidable (∃ el ∈ p.elections[e]?, _))

/-- The tally of election `e` passes the test of the source. -/
def Passes (p : Process Id) (e : ℕ) : Prop :=
  ∃ el ∈ p.elections[e]?, el.Ready p.node ∧
    voteCount (el.results p.node) > p.node.peers.length / 2

instance (p : Process Id) (e : ℕ) : Decidable (p.Passes e) :=
  inferInstanceAs (Decidable (∃ el ∈ p.elections[e]?, _ ∧ _))

variable [DecidableEq Id] {p : Process Id}

omit [DecidableEq Id] in
/-- An election queues a request to every peer. -/
theorem startElection_eq (h : p.node.Healthy) :
    p.startElection = ⟨p.node.candidate, p.elections ++ [⟨(p.node.log.length : ℤ),
      (p.node.log.getLast?.map LogEntry.term).getD 0, fun _ => .queued, false⟩]⟩ := by
  rw [startElection, run_startElection h]

/-- The response of a future that waits for none is not read. -/
theorem voteResponse_of_not_awaits {e : ℕ} {peer : Id} (ha : ¬ p.Awaits e peer)
    (response : Option RequestVoteResponse) : p.voteResponse e peer response = p := by
  unfold voteResponse
  cases hel : p.elections[e]? with
  | none => rfl
  | some el =>
      dsimp only
      cases hvf : el.futures peer with
      | queued => rfl
      | done request granted => rfl
      | sent request => exact absurd ⟨el, hel, by rw [hvf]; rfl⟩ ha

omit [DecidableEq Id] in
/-- An awaited answer has its request. -/
theorem Awaits.exists_sent {e : ℕ} {peer : Id} (ha : p.Awaits e peer) :
    ∃ el request, p.elections[e]? = some el ∧ el.futures peer = .sent request := by
  obtain ⟨el, hel, hsent⟩ := ha
  cases hvf : el.futures peer with
  | queued =>
      rw [hvf] at hsent
      cases hsent
  | done request granted =>
      rw [hvf] at hsent
      cases hsent
  | sent request => exact ⟨el, request, hel, hvf⟩

section Response

variable {e : ℕ} {el : Election Id} {peer : Id} {request : RequestVoteRequest Id}

/-- The call of the peer has failed. -/
theorem voteResponse_none (hel : p.elections[e]? = some el)
    (hvf : el.futures peer = .sent request) :
    p.voteResponse e peer none
      = { p with elections := p.setFuture e el peer (.done request false) } := by
  unfold voteResponse
  rw [hel]
  dsimp only
  rw [hvf]
  rfl

/-- The peer has answered. -/
theorem voteResponse_some (hel : p.elections[e]? = some el)
    (hvf : el.futures peer = .sent request) (r : RequestVoteResponse) :
    p.voteResponse e peer (some r)
      = ⟨p.node.responded r.term, p.setFuture e el peer (.done request
          (if r.term > p.node.state.currentTerm then false else r.voteGranted))⟩ := by
  unfold voteResponse
  rw [hel]
  dsimp only
  rw [hvf]
  dsimp only
  rw [run_requestVoteResponse]

end Response

/-- A tally that passes makes the node leader; any other changes no node. -/
theorem node_tally (h : p.node.Healthy) (e : ℕ) :
    (p.tally e).node = if p.Passes e then p.node.elected else p.node := by
  unfold tally
  cases hel : p.elections[e]? with
  | none => rw [if_neg (by rintro ⟨el, hel', -⟩; rw [hel] at hel'; cases hel')]
  | some el =>
      have hiff : p.Passes e ↔ el.Ready p.node ∧
          voteCount (el.results p.node) > p.node.peers.length / 2 := by
        unfold Passes
        rw [hel]
        simp
      dsimp only
      by_cases hready : el.Ready p.node
      · rw [if_pos hready, finalState_tally h]
        by_cases hpass : voteCount (el.results p.node) > p.node.peers.length / 2
        · rw [if_pos hpass, if_pos (hiff.mpr ⟨hready, hpass⟩)]
        · rw [if_neg hpass, if_neg fun hp => hpass (hiff.mp hp).2]
      · rw [if_neg hready, if_neg fun hp => hready (hiff.mp hp).1]

end Process

/-! ## The cluster -/

/-- `voter` votes for `candidate` in `term`. -/
structure Vote (Id : Type) where
  voter : Id
  term : ℤ
  candidate : Id
  deriving DecidableEq

structure ElectionCluster (Id : Type) where
  processes : Id → Process Id
  /-- The votes cast so far. -/
  votes : List (Vote Id)

/-- One atomic step of the processes. -/
inductive ElectionStep (Id : Type) : Type where
  | startElection (i : Id)
  | sendVoteRequest (i : Id) (e : ℕ) (peer : Id)
  | voteResponse (i : Id) (e : ℕ) (peer : Id) (response : Option RequestVoteResponse)
  | tally (i : Id) (e : ℕ)
  | appendEntries (i : Id) (req : AppendEntriesRequest Id)

namespace ElectionCluster

variable [DecidableEq Id]

def init (M : Members Id) : ElectionCluster Id :=
  ⟨fun i => ⟨fresh i (M.peersOf i), []⟩, []⟩

/-- Process `i` becomes `p`, and the votes `vs` are cast. -/
def set (s : ElectionCluster Id) (i : Id) (p : Process Id) (vs : List (Vote Id)) :
    ElectionCluster Id :=
  ⟨Function.update s.processes i p, s.votes ++ vs⟩

/-- The vote a granted response stands for: the peer's, for the candidate and the
term of the request. -/
def granted (p : Process Id) (e : ℕ) (peer : Id) :
    Option RequestVoteResponse → List (Vote Id)
  | none => []
  | some response =>
      match p.elections[e]? with
      | none => []
      | some el =>
          match el.futures peer with
          | .sent request =>
              if response.voteGranted then [⟨peer, request.term, request.candidateId⟩] else []
          | _ => []

def step (s : ElectionCluster Id) : ElectionStep Id → ElectionCluster Id
  | .startElection i =>
      -- the node votes for itself in its new term
      let p := (s.processes i).startElection
      s.set i p [⟨i, p.node.state.currentTerm, i⟩]
  | .sendVoteRequest i e peer => s.set i ((s.processes i).sendVoteRequest e peer) []
  | .voteResponse i e peer response =>
      s.set i ((s.processes i).voteResponse e peer response)
        (granted (s.processes i) e peer response)
  | .tally i e => s.set i ((s.processes i).tally e) []
  | .appendEntries i req =>
      let p := s.processes i
      s.set i ⟨p.node.step (.appendEntries req), p.elections⟩ []

def after (s : ElectionCluster Id) (as : List (ElectionStep Id)) : ElectionCluster Id :=
  Run.run ElectionCluster.step s as

/-- No voter has voted for two candidates in one term. -/
def OneVotePerTerm (s : ElectionCluster Id) : Prop :=
  ∀ v ∈ s.votes, ∀ w ∈ s.votes, v.voter = w.voter → v.term = w.term → v.candidate = w.candidate

instance (s : ElectionCluster Id) : Decidable s.OneVotePerTerm :=
  inferInstanceAs (Decidable (∀ v ∈ s.votes, _))

/-- A tally that passes the test of the source counts votes of the node's current
term only, more than half of the cluster, and the node has voted for itself in
that term: it is not a follower. -/
def SoundTally (s : ElectionCluster Id) : ElectionStep Id → Prop
  | .tally i e => ∀ el ∈ (s.processes i).elections[e]?,
      let n := (s.processes i).node
      el.Ready n → voteCount (el.results n) > n.peers.length / 2 →
        n.state.currentRole ≠ FOLLOWER ∧
        (∀ f ∈ n.peers, (el.futures f).granted = true →
          (el.futures f).CarriedTerm n.state.currentTerm) ∧
        n.peers.length + 1 < 2 * voteCount (el.results n)
  | _ => True

instance (s : ElectionCluster Id) : ∀ a : ElectionStep Id, Decidable (s.SoundTally a)
  | .tally i e => inferInstanceAs (Decidable (∀ el ∈ (s.processes i).elections[e]?, _ → _ → _))
  | .startElection _ | .sendVoteRequest _ _ _ | .voteResponse _ _ _ _ | .appendEntries _ _ =>
      inferInstanceAs (Decidable True)

end ElectionCluster

/-! ## The invariant of a process -/

/-- A future sends the request of its own process, and completes with `true` only
after its peer voted so. -/
def VoteFuture.Honest (votes : List (Vote Id)) (i f : Id) : VoteFuture Id → Prop
  | .queued => True
  | .sent request => request.candidateId = i
  | .done request granted => granted = true → ⟨f, request.term, i⟩ ∈ votes

/-- More votes keep a future honest. -/
theorem VoteFuture.Honest.mono {votes votes' : List (Vote Id)} (hsub : votes ⊆ votes') {i f : Id}
    {vf : VoteFuture Id} (h : vf.Honest votes i f) : vf.Honest votes' i f := by
  cases vf with
  | queued => trivial
  | sent request => exact h
  | done request granted => exact fun hg => hsub (h hg)

/-- A granted vote on a request of term `t` was cast in that term. -/
theorem VoteFuture.Honest.vote_mem {votes : List (Vote Id)} {i f : Id} {vf : VoteFuture Id}
    (h : vf.Honest votes i f) {t : ℤ} (hgranted : vf.granted = true) (hterm : vf.CarriedTerm t) :
    ⟨f, t, i⟩ ∈ votes := by
  cases vf with
  | queued => cases hgranted
  | sent request => cases hgranted
  | done request granted =>
      obtain rfl : request.term = t := hterm
      exact h hgranted

/-- A majority of the cluster voted for `i` in term `t`. -/
def Elected [Fintype Id] (votes : List (Vote Id)) (i : Id) (t : ℤ) : Prop :=
  ∃ Q : Finset Id, Fintype.card Id < 2 * Q.card ∧ ∀ v ∈ Q, ⟨v, t, i⟩ ∈ votes

/-- More votes keep a node elected. -/
theorem Elected.mono [Fintype Id] {votes votes' : List (Vote Id)} (hsub : votes ⊆ votes') {i : Id}
    {t : ℤ} (h : Elected votes i t) : Elected votes' i t := by
  obtain ⟨Q, hcard, hQ⟩ := h
  exact ⟨Q, hcard, fun v hv => hsub (hQ v hv)⟩

variable [DecidableEq Id] [Fintype Id]

/-- A node that is not a follower voted for itself in its term, and a leader has a
majority of the votes of its term. -/
structure ProcInv (votes : List (Vote Id)) (i : Id) (p : Process Id) : Prop where
  sane : p.node.Sane
  nodeId_eq : p.node.nodeId = i
  belongs : p.node.Belongs
  selfVote : p.node.state.currentRole ≠ FOLLOWER → ⟨i, p.node.state.currentTerm, i⟩ ∈ votes
  futures : ∀ el ∈ p.elections, ∀ f, (el.futures f).Honest votes i f
  quorum : p.node.state.currentRole = LEADER → Elected votes i p.node.state.currentTerm

variable {votes votes' : List (Vote Id)} {i : Id} {p : Process Id}

/-- More votes keep the invariant of a process. -/
theorem ProcInv.mono (h : ProcInv votes i p) (hsub : votes ⊆ votes') : ProcInv votes' i p where
  sane := h.sane
  nodeId_eq := h.nodeId_eq
  belongs := h.belongs
  selfVote := fun hrole => hsub (h.selfVote hrole)
  futures := fun el hel f => (h.futures el hel f).mono hsub
  quorum := fun hrole => (h.quorum hrole).mono hsub

/-- A process whose node at most saw a term. -/
theorem ProcInv.of_seen (h : ProcInv votes i p) {n : RaftNode Id} (hsane : n.Sane)
    (hid : n.nodeId = p.node.nodeId) (hpeers : n.peers = p.node.peers) {t : ℤ}
    (hstate : n.state = stateSeen p.node.state t) {els : List (Election Id)}
    (hels : ∀ el ∈ els, ∀ f, (el.futures f).Honest votes i f) : ProcInv votes i ⟨n, els⟩ := by
  -- above its term the node is a follower, and nothing is asked of it
  have hkeep : n.state.currentRole ≠ FOLLOWER → n.state = p.node.state := by
    intro hrole
    rw [hstate] at hrole ⊢
    unfold stateSeen at hrole ⊢
    by_cases ht : t > p.node.state.currentTerm
    · rw [if_pos ht] at hrole
      exact absurd rfl hrole
    · rw [if_neg ht]
  constructor
  · exact hsane
  · exact hid.trans h.nodeId_eq
  · intro f
    rw [hpeers, hid]
    exact h.belongs f
  · intro hrole
    have hsame : n.state = p.node.state := hkeep hrole
    show ⟨i, n.state.currentTerm, i⟩ ∈ votes
    rw [hsame]
    exact h.selfVote (hsame ▸ hrole)
  · exact hels
  · intro hrole
    have hrole' : n.state.currentRole = LEADER := hrole
    have hsame : n.state = p.node.state := hkeep (by rw [hrole']; decide)
    show Elected votes i n.state.currentTerm
    rw [hsame]
    exact h.quorum (hsame ▸ hrole')

/-- A future may be set to an honest one. -/
theorem ProcInv.setFuture (h : ProcInv votes i p) {e : ℕ} {el : Election Id}
    (hel : p.elections[e]? = some el) {peer : Id} {vf : VoteFuture Id}
    (hvf : vf.Honest votes i peer) :
    ∀ el' ∈ p.setFuture e el peer vf, ∀ f, (el'.futures f).Honest votes i f := by
  intro el' hel' f
  rcases List.mem_or_eq_of_mem_set hel' with hold | rfl
  · exact h.futures el' hold f
  · by_cases hf : f = peer
    · subst hf
      show (Function.update el.futures f vf f).Honest votes i f
      rw [Function.update_self]
      exact hvf
    · show (Function.update el.futures peer vf f).Honest votes i f
      rw [Function.update_of_ne hf]
      exact h.futures el (List.mem_of_getElem? hel) f

/-! ### The steps of a process -/

/-- A new election, with the node's vote for itself. -/
theorem ProcInv.startElection (h : ProcInv votes i p)
    (hvote : ⟨i, p.startElection.node.state.currentTerm, i⟩ ∈ votes) :
    ProcInv votes i p.startElection := by
  rw [Process.startElection_eq h.sane.healthy] at hvote ⊢
  constructor
  · exact h.sane.candidate
  · exact h.nodeId_eq
  · exact h.belongs
  · intro _
    exact hvote
  · intro el hel f
    rcases List.mem_append.mp hel with hold | hnew
    · exact h.futures el hold f
    · obtain rfl := List.mem_singleton.mp hnew
      trivial
  · intro hrole
    cases hrole

/-- Sending a request keeps the invariant. -/
theorem ProcInv.sendVoteRequest (h : ProcInv votes i p) (e : ℕ) (peer : Id) :
    ProcInv votes i (p.sendVoteRequest e peer) := by
  unfold Process.sendVoteRequest
  split
  · exact h
  · next el hel =>
      split
      · split_ifs
        · exact { h with futures := h.setFuture hel h.nodeId_eq }
        · exact h
      · exact h

/-- So does an answer whose vote is counted. -/
theorem ProcInv.voteResponse (h : ProcInv votes i p) {e : ℕ} {peer : Id}
    {response : Option RequestVoteResponse}
    (hvotes : ElectionCluster.granted p e peer response ⊆ votes) :
    ProcInv votes i (p.voteResponse e peer response) := by
  by_cases hawaits : p.Awaits e peer
  · obtain ⟨el, request, hel, hvf⟩ := hawaits.exists_sent
    have hcand : request.candidateId = i := by
      have := h.futures el (List.mem_of_getElem? hel) peer
      rwa [hvf] at this
    cases response with
    | none =>
        rw [Process.voteResponse_none hel hvf]
        exact { h with futures := h.setFuture hel (fun hg => Bool.noConfusion hg) }
    | some r =>
        rw [Process.voteResponse_some hel hvf, ← step_voteResponse]
        have hframe := nodeId_step h.sane (.voteResponse (some r))
        refine h.of_seen (h.sane.step _) hframe.1 hframe.2 (state_step h.sane _)
          (h.setFuture hel ?_)
        -- the future completes with the peer's answer, or with `false`
        intro hg
        apply hvotes
        have hr : r.voteGranted = true := by
          split_ifs at hg
          exact hg
        unfold ElectionCluster.granted
        simp [hel, hvf, hr, hcand]
  · rw [Process.voteResponse_of_not_awaits hawaits]
    exact h

/-- The voters a sound tally counts elect the node in its term. -/
theorem ProcInv.elected_of_tally (h : ProcInv votes i p) {el : Election Id}
    (hel : el ∈ p.elections) (hrole : p.node.state.currentRole ≠ FOLLOWER)
    (hterm : ∀ f ∈ p.node.peers, (el.futures f).granted = true →
      (el.futures f).CarriedTerm p.node.state.currentTerm)
    (hmajority : p.node.peers.length + 1 < 2 * voteCount (el.results p.node)) :
    Elected votes i p.node.state.currentTerm := by
  refine ⟨p.node.voters fun f => (el.futures f).granted, ?_, ?_⟩
  · rw [card_voters h.belongs, ← h.belongs.length_peers]
    exact hmajority
  · intro v hv
    rw [voters, withPeers, Finset.mem_insert, List.mem_toFinset, List.mem_filter] at hv
    rcases hv with rfl | ⟨hmem, hgranted⟩
    · rw [h.nodeId_eq]
      exact h.selfVote hrole
    · exact (h.futures el hel v).vote_mem hgranted (hterm v hmem hgranted)

/-- A process whose node becomes leader of a term it was elected in. -/
theorem ProcInv.becomeLeader (h : ProcInv votes i p)
    (hself : ⟨i, p.node.state.currentTerm, i⟩ ∈ votes)
    (hquorum : Elected votes i p.node.state.currentTerm) {els : List (Election Id)}
    (hels : ∀ el ∈ els, ∀ f, (el.futures f).Honest votes i f) :
    ProcInv votes i ⟨p.node.elected, els⟩ := by
  have hterm : p.node.elected.state.currentTerm = p.node.state.currentTerm := by
    rw [state_elected]
    rfl
  constructor
  · exact h.sane.elected
  · exact nodeId_elected.trans h.nodeId_eq
  · intro f
    show f ∈ p.node.elected.peers ↔ f ≠ p.node.elected.nodeId
    rw [peers_elected, nodeId_elected]
    exact h.belongs f
  · intro _
    show ⟨i, p.node.elected.state.currentTerm, i⟩ ∈ votes
    rw [hterm]
    exact hself
  · exact hels
  · intro _
    show Elected votes i p.node.elected.state.currentTerm
    rw [hterm]
    exact hquorum

/-- A sound tally that passes makes the node leader of a term in which it has a
majority of the votes. -/
theorem ProcInv.tally (h : ProcInv votes i p) (e : ℕ)
    (hsound : ∀ el ∈ p.elections[e]?, el.Ready p.node →
      voteCount (el.results p.node) > p.node.peers.length / 2 →
      p.node.state.currentRole ≠ FOLLOWER ∧
      (∀ f ∈ p.node.peers, (el.futures f).granted = true →
        (el.futures f).CarriedTerm p.node.state.currentTerm) ∧
      p.node.peers.length + 1 < 2 * voteCount (el.results p.node)) :
    ProcInv votes i (p.tally e) := by
  unfold Process.tally
  cases hel : p.elections[e]? with
  | none => exact h
  | some el =>
      have hmem : el ∈ p.elections := List.mem_of_getElem? hel
      -- marking the election as tallied touches no future
      have hfutures : ∀ el' ∈ p.elections.set e { el with tallied := true }, ∀ f,
          (el'.futures f).Honest votes i f := by
        intro el' hel' f
        rcases List.mem_or_eq_of_mem_set hel' with hold | rfl
        · exact h.futures el' hold f
        · exact h.futures el hmem f
      dsimp only
      split_ifs with hready
      · rw [finalState_tally h.sane.healthy]
        split_ifs with hpass
        · obtain ⟨hrole, hterm, hmajority⟩ := hsound el hel hready hpass
          exact h.becomeLeader (h.selfVote hrole)
            (h.elected_of_tally hmem hrole hterm hmajority) hfutures
        · exact { h with futures := hfutures }
      · exact h

/-! ## Whole runs -/

namespace ElectionCluster

variable {s : ElectionCluster Id}

/-- Every process satisfies its invariant. -/
def Inv (s : ElectionCluster Id) : Prop := ∀ i, ProcInv s.votes i (s.processes i)

/-- Nobody has voted yet. -/
theorem inv_init (M : Members Id) : (init M).Inv := by
  intro i
  constructor
  · exact sane_fresh i (M.peersOf i)
  · rfl
  · exact belongs_fresh (M.mem_peersOf i)
  · intro hrole
    exact absurd rfl hrole
  · intro el hel
    cases hel
  · intro hrole
    cases hrole

/-- One process moves on, and votes may be added. -/
theorem Inv.set (h : s.Inv) {i : Id} {p : Process Id} {vs : List (Vote Id)}
    (hp : ProcInv (s.votes ++ vs) i p) : (s.set i p vs).Inv := by
  apply (Function.forall_update_iff s.processes (ProcInv (s.votes ++ vs))).mpr
  refine ⟨hp, ?_⟩
  intro j _
  exact (h j).mono (List.subset_append_left _ _)

/-- **One step keeps the invariant.** -/
theorem Inv.step (h : s.Inv) {a : ElectionStep Id} (hsound : s.SoundTally a) :
    (s.step a).Inv := by
  have hmono : ∀ {i vs}, ProcInv (s.votes ++ vs) i (s.processes i) :=
    fun {i vs} => (h i).mono (List.subset_append_left _ _)
  cases a with
  | startElection i =>
      apply h.set
      apply hmono.startElection
      exact List.mem_append_right _ List.mem_cons_self
  | sendVoteRequest i e peer =>
      apply h.set
      exact hmono.sendVoteRequest e peer
  | voteResponse i e peer response =>
      apply h.set
      exact hmono.voteResponse (List.subset_append_right _ _)
  | tally i e =>
      apply h.set
      exact hmono.tally e hsound
  | appendEntries i req =>
      apply h.set
      have hi : ProcInv (s.votes ++ []) i (s.processes i) := hmono
      have hframe := nodeId_step hi.sane (.appendEntries req)
      exact hi.of_seen (hi.sane.step _) hframe.1 hframe.2 (state_step hi.sane _) hi.futures

omit [Fintype Id] in
/-- Votes once cast stay cast. -/
theorem votes_subset_after (s : ElectionCluster Id) (as : List (ElectionStep Id)) :
    s.votes ⊆ (s.after as).votes := by
  refine Run.run_invariant (P := fun s' : ElectionCluster Id => s.votes ⊆ s'.votes) ?_
    (List.Subset.refl _) as
  intro s' a hs'
  cases a <;> exact List.Subset.trans hs' (List.subset_append_left _ _)

/-- Two nodes elected in one term share a voter. -/
theorem elected_unique (hone : s.OneVotePerTerm) {i j : Id} {t : ℤ} (hi : Elected s.votes i t)
    (hj : Elected s.votes j t) : i = j := by
  obtain ⟨Q, hQcard, hQ⟩ := hi
  obtain ⟨R, hRcard, hR⟩ := hj
  obtain ⟨v, hv⟩ := inter_nonempty_of_majority hQcard hRcard
  obtain ⟨hvQ, hvR⟩ := Finset.mem_inter.mp hv
  exact hone _ (hQ v hvQ) _ (hR v hvR) rfl rfl

/-- A node that leads at some moment of a run with sound tallies was elected, by
the votes of the whole run. -/
theorem elected_of_leader (M : Members Id) {p q : List (ElectionStep Id)}
    (hsound : Run.Along ElectionCluster.step SoundTally (init M) (p ++ q)) {i : Id}
    (hi : (((init M).after p).processes i).node.state.currentRole = LEADER) :
    Elected ((init M).after (p ++ q)).votes i
      (((init M).after p).processes i).node.state.currentTerm := by
  have hinv : ((init M).after p).Inv :=
    Run.along_invariant (P := ElectionCluster.Inv) (fun _ _ hs ha => hs.step ha) (inv_init M)
      (Run.along_append.mp hsound).1
  have hsub := votes_subset_after ((init M).after p) q
  rw [show ((init M).after p).after q = (init M).after (p ++ q) from
    (Run.run_append _ _ _ _).symm] at hsub
  exact ((hinv i).quorum hi).mono hsub

/-- **Election safety, for sound tallies.**  In every run whose tallies are all
sound and in which no voter votes for two candidates in a term, no two nodes ever
lead in the same term. -/
theorem election_safety (M : Members Id) (as : List (ElectionStep Id))
    (hsound : Run.Along ElectionCluster.step SoundTally (init M) as)
    (hone : ((init M).after as).OneVotePerTerm) (p q : List (ElectionStep Id)) (hp : p <+: as)
    (hq : q <+: as) (i j : Id)
    (hi : (((init M).after p).processes i).node.state.currentRole = LEADER)
    (hj : (((init M).after q).processes j).node.state.currentRole = LEADER)
    (hterm : (((init M).after p).processes i).node.state.currentTerm
      = (((init M).after q).processes j).node.state.currentTerm) : i = j := by
  obtain ⟨p', rfl⟩ := hp
  obtain ⟨q', hq'⟩ := hq
  have hi' := elected_of_leader M hsound hi
  have hj' := elected_of_leader M (hq' ▸ hsound) hj
  rw [hq', ← hterm] at hj'
  exact elected_unique hone hi' hj'

/-- The theorem at a run in which node `0` is elected by itself and node `1` while
node `2` campaigns in the same term and loses. -/
theorem election_safety_run :
    let as : List (ElectionStep (Fin 3)) := [.startElection 0, .startElection 2,
      .sendVoteRequest 0 0 1, .sendVoteRequest 2 0 1, .sendVoteRequest 0 0 2,
      .sendVoteRequest 2 0 0, .voteResponse 0 0 1 (some ⟨1, true⟩), .voteResponse 0 0 2 none,
      .voteResponse 2 0 1 (some ⟨1, false⟩), .voteResponse 2 0 0 (some ⟨1, false⟩), .tally 2 0,
      .tally 0 0]
    let s := (init (Members.ofFin 2)).after as
    (s.processes 0).node.state = ⟨LEADER, 1, none⟩ ∧
      ∀ j, (s.processes j).node.state = ⟨LEADER, 1, none⟩ → 0 = j := by
  intro as s
  have h0 : (s.processes 0).node.state = ⟨LEADER, 1, none⟩ := by decide +kernel
  refine ⟨h0, ?_⟩
  intro j hj
  refine election_safety (Members.ofFin 2) as (by decide +kernel) (by decide +kernel) as as
    List.prefix_rfl List.prefix_rfl 0 j (congrArg RaftState.currentRole h0)
    (congrArg RaftState.currentRole hj) ?_
  exact (congrArg RaftState.currentTerm h0).trans (congrArg RaftState.currentTerm hj).symm

/-- With one peer, two candidates of term `1` both become leader without a single
granted vote. -/
theorem two_leaders_in_one_term :
    let as : List (ElectionStep (Fin 2)) := [.startElection 0, .startElection 1,
      .sendVoteRequest 0 0 1, .sendVoteRequest 1 0 0, .voteResponse 0 0 1 (some ⟨1, false⟩),
      .voteResponse 1 0 0 (some ⟨1, false⟩), .tally 0 0, .tally 1 0]
    let s := (init (Members.ofFin 1)).after as
    s.OneVotePerTerm ∧ (s.processes 0).node.state = ⟨LEADER, 1, none⟩ ∧
      (s.processes 1).node.state = ⟨LEADER, 1, none⟩ := by
  decide +kernel

end ElectionCluster

end KVStore
