/-
# Tallies and their elections

The callback of an election runs at any time after its last future is done, and
`tally` asks neither for the role nor for the term.  Beside a process we keep, for
each of its elections, the term it began and whether it was *disturbed* since: by
a further `startElection`, or by a message of a term above the node's.

Where every tally that passes the test belongs to an undisturbed election, it is
bound to that election: the node is still CANDIDATE in the term the election
began, and every vote counted was granted to a request of that term.  A leader
has then voted for itself.  Below the overflow of the term these are the only
runs with that property.
-/
import KVStore.Election

namespace KVStore

open Role RaftNode

variable {Id : Type}

/-! ## The steps -/

/-- One atomic step of a process. -/
inductive TallyStep (Id : Type) : Type where
  | startElection
  | sendVoteRequest (e : ℕ) (peer : Id)
  | voteResponse (e : ℕ) (peer : Id) (response : Option RequestVoteResponse)
  | tally (e : ℕ)
  | appendEntries (req : AppendEntriesRequest Id)

namespace Process

/-- The step begins an election, or shows the node a term above its own. -/
def Disturbs (p : Process Id) : TallyStep Id → Prop
  | .startElection => True
  | .voteResponse e peer (some response) =>
      p.Awaits e peer ∧ response.term > p.node.state.currentTerm
  | .appendEntries req => req.term > p.node.state.currentTerm
  | .voteResponse _ _ none | .sendVoteRequest _ _ | .tally _ => False

instance (p : Process Id) : ∀ a : TallyStep Id, Decidable (p.Disturbs a)
  | .startElection => inferInstanceAs (Decidable True)
  | .voteResponse _ _ (some _) => inferInstanceAs (Decidable (_ ∧ _))
  | .appendEntries _ => inferInstanceAs (Decidable (_ > _))
  | .voteResponse _ _ none | .sendVoteRequest _ _ | .tally _ => inferInstanceAs (Decidable False)

variable [DecidableEq Id]

def next (p : Process Id) : TallyStep Id → Process Id
  | .startElection => p.startElection
  | .sendVoteRequest e peer => p.sendVoteRequest e peer
  | .voteResponse e peer response => p.voteResponse e peer response
  | .tally e => p.tally e
  | .appendEntries req => ⟨p.node.step (.appendEntries req), p.elections⟩

end Process

/-- What we remember of a `startElection`. -/
structure Ballot where
  /-- The term it began. -/
  term : ℤ
  /-- Whether a step has disturbed it since. -/
  disturbed : Bool

/-- A process with one ballot for each of its elections. -/
structure Polls (Id : Type) where
  process : Process Id
  ballots : List Ballot

namespace Polls

/-- A process that has started no election yet. -/
def init (n : RaftNode Id) : Polls Id := ⟨⟨n, []⟩, []⟩

/-- The ballots after a step that disturbs them. -/
def disturb (bs : List Ballot) : List Ballot := bs.map fun b => { b with disturbed := true }

/-- The tally of election `e` is bound to it: the node is candidate in the term the
election began, and every vote that counts was granted to a request of that term. -/
def Bound (s : Polls Id) (e : ℕ) : Prop :=
  ∃ b ∈ s.ballots[e]?, s.process.node.state.currentRole = CANDIDATE ∧
    s.process.node.state.currentTerm = b.term ∧
    ∀ el ∈ s.process.elections[e]?, ∀ f ∈ s.process.node.peers,
      (el.futures f).granted = true → (el.futures f).CarriedTerm b.term

instance (s : Polls Id) (e : ℕ) : Decidable (s.Bound e) :=
  inferInstanceAs (Decidable (∃ b ∈ s.ballots[e]?, _ ∧ _ ∧ _))

/-- A tally that passes the test belongs to an undisturbed election. -/
def Undisturbed (s : Polls Id) : TallyStep Id → Prop
  | .tally e => s.process.Passes e → ∀ b ∈ s.ballots[e]?, b.disturbed = false
  | _ => True

instance (s : Polls Id) : ∀ a : TallyStep Id, Decidable (s.Undisturbed a)
  | .tally e => inferInstanceAs (Decidable (s.process.Passes e → ∀ b ∈ s.ballots[e]?, _))
  | .startElection | .sendVoteRequest _ _ | .voteResponse _ _ _ | .appendEntries _ =>
      inferInstanceAs (Decidable True)

variable [DecidableEq Id]

def step (s : Polls Id) (a : TallyStep Id) : Polls Id :=
  let p := s.process.next a
  let kept := if s.process.Disturbs a then disturb s.ballots else s.ballots
  match a with
  | .startElection => ⟨p, kept ++ [⟨p.node.state.currentTerm, false⟩]⟩
  | _ => ⟨p, kept⟩

def after (n : RaftNode Id) (as : List (TallyStep Id)) : Polls Id := Run.run step (init n) as

/-- Every tally of the run that calls `becomeLeader` is bound to its election, and
in every state reached a leader has voted for itself. -/
def TalliesBound (n : RaftNode Id) (as : List (TallyStep Id)) : Prop :=
  (∀ p e, p ++ [.tally e] <+: as → (after n p).process.Passes e → (after n p).Bound e) ∧
  (∀ p, p <+: as → (after n p).process.node.state.currentRole = LEADER →
    (after n p).process.node.votedFor = some n.nodeId)

end Polls

/-! ## What a step can do to a process -/

/-- The future has sent no request yet, or one of term `t`. -/
def VoteFuture.SentAt (t : ℤ) : VoteFuture Id → Prop
  | .queued => True
  | .sent request | .done request _ => request.term = t

/-- A vote granted to a request of a term carried that term. -/
theorem VoteFuture.SentAt.carriedTerm {t : ℤ} {vf : VoteFuture Id} (h : vf.SentAt t)
    (hgranted : vf.granted = true) : vf.CarriedTerm t := by
  cases vf with
  | queued => cases hgranted
  | sent request => cases hgranted
  | done request granted => exact h

variable [DecidableEq Id]

namespace RaftNode

variable {n : RaftNode Id}

/-- A new leader keeps its vote. -/
theorem votedFor_elected : n.elected.votedFor = n.votedFor := by
  rw [elected, resetIndices_eq]

/-- A call of a greater term clears the vote. -/
theorem votedFor_appendEntries (h : n.Sane) (req : AppendEntriesRequest Id) :
    (n.step (.appendEntries req)).votedFor =
      if req.term > n.state.currentTerm then none else n.votedFor := by
  rw [step_appendEntries, finalState_appendEntries h]
  by_cases hacc : n.accepts req = true
  · rw [if_pos hacc, votedFor_merged]
    rfl
  · rw [if_neg hacc]
    by_cases hstale : req.term < n.state.currentTerm
    · rw [if_pos hstale, if_neg (by omega)]
    · rw [if_neg hstale]
      rfl

end RaftNode

namespace Process

variable {p p' : Process Id}

/-- Nothing but the futures moves, and a future that moves stays at the node's
term if it was there. -/
structure Quiet (p p' : Process Id) : Prop where
  sane : p'.node.Sane
  nodeId_eq : p'.node.nodeId = p.node.nodeId
  state_eq : p'.node.state = p.node.state
  votedFor_eq : p'.node.votedFor = p.node.votedFor
  length_eq : p'.elections.length = p.elections.length
  futures : ∀ (e : ℕ) (el' : Election Id), p'.elections[e]? = some el' →
    ∃ el : Election Id, p.elections[e]? = some el ∧ el'.tallied = el.tallied ∧
      ∀ f, (el.futures f).SentAt p.node.state.currentTerm →
        (el'.futures f).SentAt p.node.state.currentTerm

/-- Nothing happened. -/
theorem Quiet.refl (h : p.node.Sane) : Quiet p p :=
  ⟨h, rfl, rfl, rfl, rfl, fun _ el hel => ⟨el, hel, rfl, fun _ hf => hf⟩⟩

/-- One future of one election moves. -/
theorem quiet_setFuture (h : p.node.Sane) {e : ℕ} {el : Election Id}
    (hel : p.elections[e]? = some el) {peer : Id} {vf : VoteFuture Id}
    (hvf : (el.futures peer).SentAt p.node.state.currentTerm →
      vf.SentAt p.node.state.currentTerm) :
    Quiet p { p with elections := p.setFuture e el peer vf } := by
  refine ⟨h, rfl, rfl, rfl, List.length_set, ?_⟩
  intro k el' hk
  rw [setFuture, List.getElem?_set] at hk
  split_ifs at hk with hke hlt
  · subst hke
    obtain rfl := Option.some.inj hk
    refine ⟨el, hel, rfl, ?_⟩
    intro f hf
    by_cases hpeer : f = peer
    · subst hpeer
      show (Function.update el.futures f vf f).SentAt _
      rw [Function.update_self]
      exact hvf hf
    · show (Function.update el.futures peer vf f).SentAt _
      rw [Function.update_of_ne hpeer]
      exact hf
  · exact ⟨el', hk, rfl, fun _ hf => hf⟩

/-- Sending a request is quiet. -/
theorem quiet_sendVoteRequest (h : p.node.Sane) (e : ℕ) (peer : Id) :
    Quiet p (p.sendVoteRequest e peer) := by
  unfold sendVoteRequest
  split
  · exact Quiet.refl h
  · next el hel =>
      split
      · split_ifs
        · -- the request reads the node's term now
          exact quiet_setFuture h hel fun _ => rfl
        · exact Quiet.refl h
      · exact Quiet.refl h

/-- A future whose response arrives keeps the request it sent. -/
theorem quiet_done (h : p.node.Sane) {e : ℕ} {el : Election Id}
    (hel : p.elections[e]? = some el) {peer : Id} {request : RequestVoteRequest Id}
    (hvf : el.futures peer = .sent request) (granted : Bool) :
    Quiet p { p with elections := p.setFuture e el peer (.done request granted) } := by
  apply quiet_setFuture h hel
  intro hsent
  rw [hvf] at hsent
  exact hsent

/-- **A step that disturbs no election and tallies none is quiet.** -/
theorem quiet_next (h : p.node.Sane) {a : TallyStep Id} (ha : ¬ p.Disturbs a)
    (htally : ∀ e, a ≠ .tally e) : Quiet p (p.next a) := by
  cases a with
  | startElection => exact absurd trivial ha
  | sendVoteRequest e peer => exact quiet_sendVoteRequest h e peer
  | tally e => exact absurd rfl (htally e)
  | voteResponse e peer response =>
      show Quiet p (p.voteResponse e peer response)
      by_cases hawaits : p.Awaits e peer
      · obtain ⟨el, request, hel, hvf⟩ := hawaits.exists_sent
        cases response with
        | none =>
            rw [voteResponse_none hel hvf]
            exact quiet_done h hel hvf false
        | some r =>
            have hold : p.node.responded r.term = p.node := if_neg fun hr => ha ⟨hawaits, hr⟩
            rw [voteResponse_some hel hvf, hold]
            exact quiet_done h hel hvf _
      · rw [voteResponse_of_not_awaits hawaits]
        exact Quiet.refl h
  | appendEntries req =>
      have hterm : ¬ req.term > p.node.state.currentTerm := ha
      constructor
      · exact h.step _
      · exact (nodeId_step h _).1
      · show (p.node.step (.appendEntries req)).state = _
        rw [state_step h]
        exact if_neg hterm
      · show (p.node.step (.appendEntries req)).votedFor = _
        rw [votedFor_appendEntries h, if_neg hterm]
      · rfl
      · exact fun _ el hel => ⟨el, hel, rfl, fun _ hf => hf⟩

/-- The node follows, in a term above the one it had. -/
structure SteppedDown (p p' : Process Id) : Prop where
  sane : p'.node.Sane
  nodeId_eq : p'.node.nodeId = p.node.nodeId
  role_eq : p'.node.state.currentRole = FOLLOWER
  term_lt : p.node.state.currentTerm < p'.node.state.currentTerm
  length_eq : p'.elections.length = p.elections.length

/-- A node that has seen a higher term. -/
theorem steppedDown_of_stateSeen (h : p.node.Sane) {ev : Event Id} {t : ℤ}
    (ht : t > p.node.state.currentTerm)
    (hstate : stateAfter p.node.state ev = stateSeen p.node.state t) {els : List (Election Id)}
    (hlen : els.length = p.elections.length) : SteppedDown p ⟨p.node.step ev, els⟩ := by
  have hseen : (p.node.step ev).state = ⟨FOLLOWER, t, none⟩ := by
    rw [state_step h, hstate]
    exact if_pos ht
  constructor
  · exact h.step ev
  · exact (nodeId_step h ev).1
  · exact congrArg RaftState.currentRole hseen
  · show _ < (p.node.step ev).state.currentTerm
    rw [hseen]
    exact ht
  · exact hlen

/-- **A message of a higher term makes the node step down.** -/
theorem steppedDown_next (h : p.node.Sane) {a : TallyStep Id} (ha : p.Disturbs a)
    (hstart : a ≠ .startElection) : SteppedDown p (p.next a) := by
  cases a with
  | startElection => exact absurd rfl hstart
  | sendVoteRequest e peer => cases ha
  | tally e => cases ha
  | voteResponse e peer response =>
      cases response with
      | none => cases ha
      | some r =>
          obtain ⟨hawaits, hterm⟩ := ha
          obtain ⟨el, request, hel, hvf⟩ := hawaits.exists_sent
          show SteppedDown p (p.voteResponse e peer (some r))
          rw [voteResponse_some hel hvf, ← step_voteResponse]
          exact steppedDown_of_stateSeen h hterm rfl List.length_set
  | appendEntries req => exact steppedDown_of_stateSeen h ha rfl rfl

/-- A tally keeps the node sane. -/
theorem sane_tally (h : p.node.Sane) (e : ℕ) : (p.tally e).node.Sane := by
  rw [node_tally h.healthy]
  split_ifs
  · exact h.elected
  · exact h

/-- It keeps the term. -/
theorem currentTerm_tally (h : p.node.Sane) (e : ℕ) :
    (p.tally e).node.state.currentTerm = p.node.state.currentTerm := by
  rw [node_tally h.healthy]
  split_ifs
  · rw [state_elected]
    rfl
  · rfl

/-- It keeps the node's id. -/
theorem nodeId_tally (h : p.node.Sane) (e : ℕ) : (p.tally e).node.nodeId = p.node.nodeId := by
  rw [node_tally h.healthy]
  split_ifs
  · exact nodeId_elected
  · rfl

/-- A tally marks its own election at most, and does so when it passes. -/
theorem elections_tally (e : ℕ) {k : ℕ} {el' : Election Id}
    (hk : (p.tally e).elections[k]? = some el') :
    ∃ el, p.elections[k]? = some el ∧ el'.futures = el.futures ∧
      (el'.tallied = false → el.tallied = false) ∧
      (k = e → p.Passes e → el'.tallied = true) := by
  unfold tally at hk
  cases hel : p.elections[e]? with
  | none =>
      rw [hel] at hk
      refine ⟨el', hk, rfl, id, ?_⟩
      rintro rfl -
      rw [hel] at hk
      cases hk
  | some el =>
      rw [hel] at hk
      dsimp only at hk
      split_ifs at hk with hready
      · rw [List.getElem?_set] at hk
        split_ifs at hk with hke hlt
        · subst hke
          obtain rfl := Option.some.inj hk
          exact ⟨el, hel, rfl, fun hf => Bool.noConfusion hf, fun _ _ => rfl⟩
        · exact ⟨el', hk, rfl, id, fun hek => absurd hek.symm hke⟩
      · refine ⟨el', hk, rfl, id, ?_⟩
        rintro rfl ⟨el₁, hel₁, hready₁, -⟩
        obtain rfl : el = el₁ := Option.some.inj (hel.symm.trans hel₁)
        exact absurd hready₁ hready

/-- It starts no election. -/
theorem length_elections_tally (e : ℕ) : (p.tally e).elections.length = p.elections.length := by
  unfold tally
  split
  · rfl
  · split_ifs
    · exact List.length_set
    · rfl

end Process

/-! ## The invariant of undisturbed tallies -/

/-- The node is still in the term `t` of the election, as a candidate until the
tally, and every request of the election was sent in that term. -/
structure Election.Live (el : Election Id) (n : RaftNode Id) (t : ℤ) : Prop where
  term_eq : n.state.currentTerm = t
  candidate : el.tallied = false → n.state.currentRole = CANDIDATE
  requests : ∀ f, (el.futures f).SentAt t

namespace Polls

variable {i : Id} {s : Polls Id}

/-- An election disturbs the ballots before it and adds its own. -/
theorem step_startElection (s : Polls Id) : s.step .startElection
    = ⟨s.process.startElection, disturb s.ballots ++
        [⟨s.process.startElection.node.state.currentTerm, false⟩]⟩ := rfl

/-- A step that disturbs nothing leaves the ballots alone. -/
theorem step_of_not_disturbs {a : TallyStep Id} (ha : ¬ s.process.Disturbs a) :
    s.step a = ⟨s.process.next a, s.ballots⟩ := by
  unfold step
  rw [if_neg ha]
  cases a with
  | startElection => exact absurd trivial ha
  | _ => rfl

/-- Any other step disturbs them all. -/
theorem step_of_disturbs {a : TallyStep Id} (ha : s.process.Disturbs a)
    (hstart : a ≠ .startElection) : s.step a = ⟨s.process.next a, disturb s.ballots⟩ := by
  unfold step
  rw [if_pos ha]
  cases a with
  | startElection => exact absurd rfl hstart
  | _ => rfl

/-- A step begins an election, makes the node step down, tallies an election, or is
quiet. -/
theorem step_cases (h : s.process.node.Sane) (a : TallyStep Id) :
    a = .startElection ∨
    (∃ p, Process.SteppedDown s.process p ∧ s.step a = ⟨p, disturb s.ballots⟩) ∨
    (∃ e, a = .tally e ∧ s.step a = ⟨s.process.tally e, s.ballots⟩) ∨
    (∃ p, Process.Quiet s.process p ∧ s.step a = ⟨p, s.ballots⟩) := by
  by_cases hstart : a = .startElection
  · exact Or.inl hstart
  · apply Or.inr
    by_cases hdist : s.process.Disturbs a
    · apply Or.inl
      exact ⟨_, Process.steppedDown_next h hdist hstart, step_of_disturbs hdist hstart⟩
    · apply Or.inr
      have heq := step_of_not_disturbs hdist
      by_cases htally : ∃ e, a = .tally e
      · obtain ⟨e, rfl⟩ := htally
        exact Or.inl ⟨e, rfl, heq⟩
      · have hquiet := Process.quiet_next h hdist fun e he => htally ⟨e, he⟩
        exact Or.inr ⟨_, hquiet, heq⟩

omit [DecidableEq Id] in
/-- A disturbed ballot is marked. -/
theorem disturbed_of_mem_disturb {bs : List Ballot} {b : Ballot} (hb : b ∈ disturb bs) :
    b.disturbed = true := by
  obtain ⟨b', -, rfl⟩ := List.mem_map.mp hb
  rfl

/-- Only the last election is undisturbed, and it is live; a node that is not a
follower has voted for itself. -/
structure Inv (i : Id) (s : Polls Id) : Prop where
  sane : s.process.node.Sane
  nodeId_eq : s.process.node.nodeId = i
  length_eq : s.ballots.length = s.process.elections.length
  selfVote : s.process.node.state.currentRole ≠ FOLLOWER → s.process.node.votedFor = some i
  last : ∀ (e : ℕ) (b : Ballot), s.ballots[e]? = some b → b.disturbed = false →
    e + 1 = s.ballots.length
  live : ∀ (e : ℕ) (b : Ballot) (el : Election Id), s.ballots[e]? = some b →
    s.process.elections[e]? = some el → b.disturbed = false → el.Live s.process.node b.term

/-- A follower has no ballots to account for. -/
theorem inv_init {n : RaftNode Id} (h : n.Sane) (hrole : n.state.currentRole = FOLLOWER) :
    Inv n.nodeId (init n) := by
  refine ⟨h, rfl, rfl, fun hne => absurd hrole hne, ?_, ?_⟩
  · intro e b hb
    cases hb
  · intro e b el hb
    cases hb

/-- A new election has its ballot. -/
theorem Inv.startElection (h : Inv i s) : Inv i (s.step .startElection) := by
  rw [step_startElection, Process.startElection_eq h.sane.healthy]
  have hlen : (disturb s.ballots).length = s.process.elections.length := by
    rw [disturb, List.length_map, h.length_eq]
  -- an undisturbed ballot is the new one
  have hnew : ∀ {e : ℕ} {b : Ballot}, b.disturbed = false →
      (disturb s.ballots ++ [⟨s.process.node.candidate.state.currentTerm, false⟩])[e]? = some b →
      e = (disturb s.ballots).length ∧ b = ⟨s.process.node.candidate.state.currentTerm, false⟩ := by
    intro e b hb he
    rcases lt_trichotomy e (disturb s.ballots).length with hlt | rfl | hgt
    · rw [List.getElem?_append_left hlt] at he
      rw [disturbed_of_mem_disturb (List.mem_of_getElem? he)] at hb
      cases hb
    · rw [List.getElem?_concat_length] at he
      exact ⟨rfl, (Option.some.inj he).symm⟩
    · rw [List.getElem?_eq_none (by rw [List.length_append]; exact hgt)] at he
      cases he
  constructor
  · exact h.sane.candidate
  · exact h.nodeId_eq
  · simp [hlen]
  · intro _
    exact congrArg some h.nodeId_eq
  · intro e b he hb
    rw [(hnew hb he).1, List.length_append]
    rfl
  · intro e b el he hel hb
    obtain ⟨rfl, rfl⟩ := hnew hb he
    rw [hlen] at hel
    obtain rfl := Option.some.inj ((List.getElem?_concat_length).symm.trans hel)
    exact ⟨rfl, fun _ => rfl, fun _ => trivial⟩

/-- A quiet step keeps the invariant. -/
theorem Inv.quiet (h : Inv i s) {p : Process Id} (hq : Process.Quiet s.process p) :
    Inv i ⟨p, s.ballots⟩ := by
  constructor
  · exact hq.sane
  · exact hq.nodeId_eq.trans h.nodeId_eq
  · exact h.length_eq.trans hq.length_eq.symm
  · intro hrole
    show p.node.votedFor = some i
    rw [hq.votedFor_eq]
    apply h.selfVote
    rw [← hq.state_eq]
    exact hrole
  · exact h.last
  · intro e b el' he hel' hb
    obtain ⟨el, hel, htallied, hfutures⟩ := hq.futures e el' hel'
    have hlive := h.live e b el he hel hb
    constructor
    · show p.node.state.currentTerm = b.term
      rw [hq.state_eq]
      exact hlive.term_eq
    · intro hnot
      show p.node.state.currentRole = CANDIDATE
      rw [hq.state_eq]
      exact hlive.candidate (htallied ▸ hnot)
    · rw [← hlive.term_eq]
      intro f
      apply hfutures
      rw [hlive.term_eq]
      exact hlive.requests f

/-- So does stepping down, which disturbs the ballots. -/
theorem Inv.steppedDown (h : Inv i s) {p : Process Id}
    (hp : Process.SteppedDown s.process p) : Inv i ⟨p, disturb s.ballots⟩ := by
  -- every ballot is disturbed, and nothing is asked of a follower
  have hall : ∀ {e : ℕ} {b : Ballot}, (disturb s.ballots)[e]? = some b → b.disturbed = true :=
    fun he => disturbed_of_mem_disturb (List.mem_of_getElem? he)
  constructor
  · exact hp.sane
  · exact hp.nodeId_eq.trans h.nodeId_eq
  · exact (List.length_map _).trans (h.length_eq.trans hp.length_eq.symm)
  · intro hrole
    exact absurd hp.role_eq hrole
  · intro e b he hb
    rw [hall he] at hb
    cases hb
  · intro e b el he _ hb
    rw [hall he] at hb
    cases hb

/-- A tally that passes the test, of an undisturbed election, is bound to it. -/
theorem Inv.bound (h : Inv i s) {e : ℕ} (hund : s.Undisturbed (.tally e))
    (hpass : s.process.Passes e) : s.Bound e := by
  have hclear := hund hpass
  obtain ⟨el, hel, hready, -⟩ := hpass
  have hlt : e < s.ballots.length := by
    rw [h.length_eq]
    exact (List.getElem?_eq_some_iff.mp hel).1
  have hb : s.ballots[e]? = some s.ballots[e] := List.getElem?_eq_getElem hlt
  have hlive := h.live e _ el hb hel (hclear _ hb)
  refine ⟨_, hb, hlive.candidate hready.1, hlive.term_eq, ?_⟩
  intro el' hel' f _ hgranted
  obtain rfl : el = el' := Option.some.inj (hel.symm.trans hel')
  exact (hlive.requests f).carriedTerm hgranted

/-- So does the tally of an undisturbed ballot. -/
theorem Inv.tally (h : Inv i s) {e : ℕ} (hund : s.Undisturbed (.tally e)) :
    Inv i ⟨s.process.tally e, s.ballots⟩ := by
  have hnode := Process.node_tally h.sane.healthy e
  constructor
  · exact Process.sane_tally h.sane e
  · exact (Process.nodeId_tally h.sane e).trans h.nodeId_eq
  · exact h.length_eq.trans (Process.length_elections_tally e).symm
  · show (s.process.tally e).node.state.currentRole ≠ FOLLOWER →
      (s.process.tally e).node.votedFor = some i
    rw [hnode]
    split_ifs with hpass
    · -- the candidate that becomes leader has voted for itself
      intro _
      obtain ⟨b, hb, hrole, -⟩ := h.bound hund hpass
      rw [votedFor_elected]
      apply h.selfVote
      rw [hrole]
      decide
    · exact h.selfVote
  · exact h.last
  · intro k b' el' hk hel' hb'
    obtain ⟨el, hel, hfutures, hopen, hmarked⟩ := Process.elections_tally e hel'
    have hlive := h.live k b' el hk hel hb'
    constructor
    · exact (Process.currentTerm_tally h.sane e).trans hlive.term_eq
    · intro hnot
      show (s.process.tally e).node.state.currentRole = CANDIDATE
      rw [hnode]
      split_ifs with hpass
      · -- a tally that passes is the one of the last election
        obtain ⟨b, hb, -⟩ := h.bound hund hpass
        have hlast := h.last k b' hk hb'
        have hlast' := h.last e b hb (hund hpass b hb)
        rw [hmarked (by omega) hpass] at hnot
        cases hnot
      · exact hlive.candidate (hopen hnot)
    · rw [hfutures]
      exact hlive.requests

/-- **One step keeps the invariant.** -/
theorem Inv.step (h : Inv i s) {a : TallyStep Id} (hund : s.Undisturbed a) :
    Inv i (s.step a) := by
  rcases step_cases h.sane a with rfl | ⟨p, hdown, heq⟩ | ⟨e, rfl, heq⟩ | ⟨p, hquiet, heq⟩
  · exact h.startElection
  · rw [heq]
    exact h.steppedDown hdown
  · rw [heq]
    exact h.tally hund
  · rw [heq]
    exact h.quiet hquiet

/-! ## Whole runs -/

/-- **Undisturbed tallies are bound to their elections.**  In every run of a node,
whatever the order of its elections, requests, responses, tallies and calls: where
every tally that passes the test is of an undisturbed election, each of them finds
the node candidate in the term of that election, with votes of that term only, and
a leader has always voted for itself. -/
theorem talliesBound_of_undisturbed (n : RaftNode Id) (h : n.Sane)
    (hrole : n.state.currentRole = FOLLOWER) (as : List (TallyStep Id))
    (hund : Run.Along step Undisturbed (init n) as) : TalliesBound n as := by
  have hinv : ∀ p, p <+: as → Inv n.nodeId (after n p) := by
    rintro p ⟨q, rfl⟩
    exact Run.along_invariant (P := Inv n.nodeId) (fun _ _ hs ha => hs.step ha)
      (inv_init h hrole) (Run.along_append.mp hund).1
  constructor
  · intro p e hp hpass
    apply (hinv p ((List.prefix_append p _).trans hp)).bound _ hpass
    exact Run.along_iff.mp hund p _ hp
  · intro p hp hlead
    apply (hinv p hp).selfVote
    rw [hlead]
    decide

/-- An election of which all messages are of its own term. -/
theorem talliesBound_majority :
    let as : List (TallyStep ℕ) := [.startElection, .sendVoteRequest 0 1, .sendVoteRequest 0 2,
      .voteResponse 0 1 (some ⟨1, true⟩), .voteResponse 0 2 (some ⟨1, false⟩), .tally 0]
    (after (fresh 0 [1, 2]) as).process.node.state.currentRole = LEADER ∧
      TalliesBound (fresh 0 [1, 2]) as := by
  intro as
  refine ⟨by decide +kernel, ?_⟩
  exact talliesBound_of_undisturbed _ (sane_fresh 0 [1, 2]) rfl as (by decide +kernel)

/-- One peer answers with term `5`, the other grants its vote: the tally makes the
node, a follower of term `5` by then, leader of that term without a vote of its own. -/
theorem not_talliesBound_higherTerm :
    let as : List (TallyStep ℕ) := [.startElection, .sendVoteRequest 0 1, .sendVoteRequest 0 2,
      .voteResponse 0 1 (some ⟨5, false⟩), .voteResponse 0 2 (some ⟨1, true⟩), .tally 0]
    (after (fresh 0 [1, 2]) as).process.node.state = ⟨LEADER, 5, none⟩ ∧
      (after (fresh 0 [1, 2]) as).process.node.votedFor = none ∧
      ¬ TalliesBound (fresh 0 [1, 2]) as := by
  intro as
  have hvote : (after (fresh 0 [1, 2]) as).process.node.votedFor = none := by decide +kernel
  refine ⟨by decide +kernel, hvote, ?_⟩
  rintro ⟨-, hself⟩
  have hsome := hself as List.prefix_rfl (by decide +kernel)
  rw [hvote] at hsome
  cases hsome

/-! ### The other direction -/

/-- The election's increment does not wrap. -/
def BelowMax (s : Polls Id) : TallyStep Id → Prop
  | .startElection => s.process.node.state.currentTerm < longMax
  | _ => True

/-- No ballot is of a term the node has not reached, and a disturbed one is of a
term the node has left. -/
structure Dated (s : Polls Id) : Prop where
  sane : s.process.node.Sane
  nonneg : 0 ≤ s.process.node.state.currentTerm
  term_le : ∀ b ∈ s.ballots, b.term ≤ s.process.node.state.currentTerm
  term_lt : ∀ b ∈ s.ballots, b.disturbed = true → b.term < s.process.node.state.currentTerm

/-- A disturbed list of ballots, after the term went up. -/
theorem Dated.disturb (h : Dated s) {p : Process Id}
    (hlt : s.process.node.state.currentTerm < p.node.state.currentTerm) {b : Ballot}
    (hb : b ∈ disturb s.ballots) : b.term < p.node.state.currentTerm := by
  obtain ⟨b', hb', rfl⟩ := List.mem_map.mp hb
  exact (h.term_le b' hb').trans_lt hlt

/-- The ballots stay as they are while the term does. -/
theorem Dated.of_term_eq (h : Dated s) {p : Process Id} (hsane : p.node.Sane)
    (hterm : p.node.state.currentTerm = s.process.node.state.currentTerm) :
    Dated ⟨p, s.ballots⟩ := by
  constructor
  · exact hsane
  · exact hterm.symm ▸ h.nonneg
  · exact hterm.symm ▸ h.term_le
  · exact hterm.symm ▸ h.term_lt

/-- Below the greatest term a new ballot has a greater term than any before. -/
theorem Dated.startElection (h : Dated s) (hmax : s.process.node.state.currentTerm < longMax) :
    Dated (s.step .startElection) := by
  have hnode : s.process.startElection.node = s.process.node.candidate := by
    rw [Process.startElection_eq h.sane.healthy]
  have hnonneg := h.nonneg
  have hterm : s.process.startElection.node.state.currentTerm
      = s.process.node.state.currentTerm + 1 := by
    rw [hnode]
    exact longSucc_of_lt hnonneg hmax
  have hlt : ∀ b ∈ Polls.disturb s.ballots,
      b.term < s.process.startElection.node.state.currentTerm :=
    fun b hb => h.disturb (by omega) hb
  rw [step_startElection]
  constructor
  · show s.process.startElection.node.Sane
    rw [hnode]
    exact h.sane.candidate
  · show 0 ≤ s.process.startElection.node.state.currentTerm
    omega
  · intro b hb
    rcases List.mem_append.mp hb with hold | hnew
    · exact le_of_lt (hlt b hold)
    · obtain rfl := List.mem_singleton.mp hnew
      exact le_rfl
  · intro b hb hdist
    rcases List.mem_append.mp hb with hold | hnew
    · exact hlt b hold
    · obtain rfl := List.mem_singleton.mp hnew
      cases hdist

/-- While no election overflows the term, one step keeps the ballots dated. -/
theorem Dated.step (h : Dated s) {a : TallyStep Id} (hmax : s.BelowMax a) : Dated (s.step a) := by
  rcases step_cases h.sane a with rfl | ⟨p, hdown, heq⟩ | ⟨e, rfl, heq⟩ | ⟨p, hquiet, heq⟩
  · exact h.startElection hmax
  · rw [heq]
    constructor
    · exact hdown.sane
    · exact h.nonneg.trans (le_of_lt hdown.term_lt)
    · exact fun b hb => le_of_lt (h.disturb hdown.term_lt hb)
    · exact fun b hb _ => h.disturb hdown.term_lt hb
  · rw [heq]
    exact h.of_term_eq (Process.sane_tally h.sane e) (Process.currentTerm_tally h.sane e)
  · rw [heq]
    exact h.of_term_eq hquiet.sane (congrArg RaftState.currentTerm hquiet.state_eq)

/-- **And no others.**  While no election overflows the term, a run whose tallies
are bound to their elections has only undisturbed ones. -/
theorem undisturbed_of_talliesBound (n : RaftNode Id) (h : n.Sane)
    (h0 : 0 ≤ n.state.currentTerm) (as : List (TallyStep Id))
    (hmax : Run.Along step BelowMax (init n) as) (hbound : TalliesBound n as) :
    Run.Along step Undisturbed (init n) as := by
  rw [Run.along_iff]
  intro p a hp
  cases a with
  | tally e =>
      intro hpass b hb
      obtain ⟨q, rfl⟩ := (List.prefix_append p _).trans hp
      have hdated : Dated (after n p) :=
        Run.along_invariant (P := Dated) (fun _ _ hs ha => hs.step ha)
          ⟨h, h0, fun b hb => absurd hb List.not_mem_nil, fun b hb => absurd hb List.not_mem_nil⟩
          (Run.along_append.mp hmax).1
      obtain ⟨b', hb', -, hterm, -⟩ := hbound.1 p e hp hpass
      obtain rfl : b = b' := Option.some.inj (hb.symm.trans hb')
      -- a disturbed ballot would be of an earlier term
      cases hdist : b.disturbed with
      | false => rfl
      | true =>
          have hlt := hdated.term_lt b (List.mem_of_getElem? hb) hdist
          omega
  | startElection => trivial
  | sendVoteRequest e peer => trivial
  | voteResponse e peer response => trivial
  | appendEntries req => trivial

end Polls

end KVStore
