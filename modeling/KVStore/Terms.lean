/-
# Terms across restarts and within a process

`currentTerm` and `votedFor` live in memory: the columns the `state` table has
for them are written once, by `initializeDatabase`, and read by nobody.  So a
restart sets the term back to `0`, and a node that had reached a positive term
campaigns again in terms it has campaigned in before.  The only other way down
is the wrap-around of the `long`.

`TermsSurvive` says what a run should satisfy and `KeepsTerm` which events cannot
break it; the two agree on every run (`termsSurvive_iff`).

Within one process the wrap-around is the only way down, and it is in reach: a
term is taken over from the wire as it comes, so a single message can put the
node at the largest `long`, and the next election starts at the smallest.  The
term is written before any statement of the database is issued, so this needs no
assumption on the database (`termsGrow_iff`).
-/
import KVStore.Hoare
import KVStore.Events

namespace KVStore

open Role

namespace RaftNode

variable {Id : Type} [DecidableEq Id] {n : RaftNode Id}

/-- The node campaigned in term `t` during the run. -/
def CampaignedIn (n : RaftNode Id) (evs : List (Event Id)) (t : ℤ) : Prop :=
  ∃ p, p ++ [.startElection] <+: evs ∧ (n.after (p ++ [.startElection])).state.currentTerm = t

/-- The node held a vote in term `t` at some moment of the run. -/
def VotedIn (n : RaftNode Id) (evs : List (Event Id)) (t : ℤ) : Prop :=
  ∃ p, p <+: evs ∧ (n.after p).state.currentTerm = t ∧ (n.after p).votedFor ≠ none

/-- Terms never go down during the run, and every election is held in a new term,
with the node's vote for itself. -/
def TermsSurvive (n : RaftNode Id) (evs : List (Event Id)) : Prop :=
  (∀ p q, p <+: q → q <+: evs →
    (n.after p).state.currentTerm ≤ (n.after q).state.currentTerm) ∧
  (∀ p, p ++ [.startElection] <+: evs →
    let n' := n.after (p ++ [.startElection])
    n'.votedFor = some n.nodeId ∧ ¬ n.CampaignedIn p n'.state.currentTerm ∧
      ¬ n.VotedIn p n'.state.currentTerm)

/-- A restart finds the node at the initial term, an election below the largest
`long`; every other event is fine. -/
def KeepsTerm (n : RaftNode Id) : Event Id → Prop
  | .restart => n.state.currentTerm ≤ 0
  | .startElection => n.state.currentTerm < longMax
  | _ => True

instance : ∀ ev : Event Id, Decidable (n.KeepsTerm ev)
  | .restart => inferInstanceAs (Decidable (_ ≤ _))
  | .startElection => inferInstanceAs (Decidable (_ < longMax))
  | .put _ _ | .get _ | .becomeLeader | .voteResponse _ | .sendAppendEntries _
  | .appendEntries _ => inferInstanceAs (Decidable True)

/-! ## One event -/

/-- An event that keeps the term does not lower it. -/
theorem currentTerm_le_step (h : n.Sane) (h0 : 0 ≤ n.state.currentTerm) {ev : Event Id}
    (hk : n.KeepsTerm ev) : n.state.currentTerm ≤ (n.step ev).state.currentTerm := by
  rw [state_step h]
  cases ev with
  | startElection =>
      have hsucc := longSucc_of_lt h0 hk
      show _ ≤ longSucc n.state.currentTerm
      omega
  | restart => exact hk
  | voteResponse response =>
      cases response with
      | none => exact le_rfl
      | some r => exact currentTerm_le_stateSeen _ _
  | appendEntries req => exact currentTerm_le_stateSeen _ _
  | put key value => exact le_rfl
  | get key => exact le_rfl
  | becomeLeader => exact le_rfl
  | sendAppendEntries f => exact le_rfl

/-- An event outside the condition lowers the term. -/
theorem step_currentTerm_lt (h : n.Sane) {ev : Event Id} (hk : ¬ n.KeepsTerm ev) :
    (n.step ev).state.currentTerm < n.state.currentTerm := by
  rw [state_step h]
  cases ev with
  | startElection => exact longSucc_lt_of_ge (not_lt.mp hk)
  | restart => exact not_le.mp hk
  | put key value => exact absurd trivial hk
  | get key => exact absurd trivial hk
  | becomeLeader => exact absurd trivial hk
  | voteResponse response => exact absurd trivial hk
  | sendAppendEntries f => exact absurd trivial hk
  | appendEntries req => exact absurd trivial hk

/-! ## Whole runs -/

/-- Within the condition every prefix of the run is at or below every later one. -/
theorem currentTerm_mono (h : n.Sane) (h0 : 0 ≤ n.state.currentTerm) {evs : List (Event Id)}
    (hk : Run.Along RaftNode.step KeepsTerm n evs) {p q : List (Event Id)} (hpq : p <+: q)
    (hq : q <+: evs) : (n.after p).state.currentTerm ≤ (n.after q).state.currentTerm := by
  refine hk.mono (P := fun m => m.Sane ∧ 0 ≤ m.state.currentTerm)
    (f := fun m => m.state.currentTerm) ?_ ⟨h, h0⟩ hpq hq
  rintro m ev ⟨hm, hm0⟩ hev
  have hle := currentTerm_le_step hm hm0 hev
  exact ⟨⟨hm.step ev, hm0.trans hle⟩, hle⟩

/-- **Exactly the runs within the condition keep their terms.** -/
theorem termsSurvive_iff (nodeId : Id) (peerIds : List Id) (evs : List (Event Id)) :
    TermsSurvive (fresh nodeId peerIds) evs ↔
      Run.Along RaftNode.step KeepsTerm (fresh nodeId peerIds) evs := by
  have hsane := sane_fresh nodeId peerIds
  have h0 : 0 ≤ (fresh nodeId peerIds).state.currentTerm := le_rfl
  constructor
  · rintro ⟨hmono, -⟩
    rw [Run.along_iff]
    intro p ev hp
    by_contra hk
    -- the step from `p` to `p ++ [ev]` goes down
    have hle := hmono p (p ++ [ev]) (List.prefix_append p [ev]) hp
    have hlt := step_currentTerm_lt (hsane.after p) hk
    rw [after_snoc] at hle
    omega
  · intro hk
    refine ⟨fun p q hpq hq => currentTerm_mono hsane h0 hk hpq hq, ?_⟩
    intro p hp n'
    have hp' : p <+: evs := (List.prefix_append p _).trans hp
    have hcond := Run.along_iff.mp hk p _ hp
    have hnonneg : 0 ≤ ((fresh nodeId peerIds).after p).state.currentTerm :=
      currentTerm_mono hsane h0 hk List.nil_prefix hp'
    have hcand : n' = ((fresh nodeId peerIds).after p).candidate := by
      rw [← step_startElection (hsane.after p).healthy]
      exact after_snoc p _
    -- the new term is above every earlier one
    have hterm : n'.state.currentTerm
        = ((fresh nodeId peerIds).after p).state.currentTerm + 1 := by
      rw [hcand]
      exact longSucc_of_lt hnonneg hcond
    have hearlier : ∀ q, q <+: p →
        ((fresh nodeId peerIds).after q).state.currentTerm ≠ n'.state.currentTerm := by
      intro q hq heq
      have hle := currentTerm_mono hsane h0 hk hq hp'
      omega
    refine ⟨?_, ?_, ?_⟩
    · rw [hcand]
      exact congrArg some (nodeId_after hsane p)
    · rintro ⟨q, hq, ht⟩
      exact hearlier _ hq ht
    · rintro ⟨q, hq, ht, -⟩
      exact hearlier q hq ht

/-- A restart between two elections: the node campaigns twice in term `1`. -/
theorem not_termsSurvive_restart :
    ¬ TermsSurvive (fresh 0 [1]) [.startElection, .restart, .startElection] := by
  rintro ⟨-, hnew⟩
  have h := (hnew [.startElection, .restart] (by decide)).2.1
  apply h
  exact ⟨[], by decide, by decide +kernel⟩

/-! ## What the database cannot touch -/

section OffStorage

open Exec

omit [DecidableEq Id]

variable {P : RaftNode Id → Prop} (hP : ∀ n s, P n → P (n.setStorage s))
include hP

/-- A call of the storage keeps what does not depend on the storage, whether it
returns or throws. -/
theorem triple_offStorage {α : Type} (m : EStateM JavaException SQLiteStorage α) :
    Triple P (onStorage m) (fun _ => P) P := by
  intro n hn
  rw [onStorage, run_zoom]
  rcases m.run n.storage with ⟨a, s⟩ | ⟨e, s⟩
  · exact hP n s hn
  · exact hP n s hn

omit hP in
/-- A null check changes nothing. -/
theorem triple_offStorage_nonNull {α : Type} (a : Option α) :
    Triple P (nonNull a : Method Id α) (fun _ => P) P := by
  cases a with
  | none => exact Triple.throw fun _ hn => hn
  | some a => exact Triple.pure fun _ hn => hn

/-- The log check touches the storage alone. -/
theorem triple_offStorage_logMismatch (i t : ℤ) :
    Triple P (logMismatch i t) (fun _ => P) P := by
  rw [logMismatch]
  refine Triple.bind (triple_offStorage hP _) fun last => ?_
  split_ifs
  · exact Triple.pure fun _ hn => hn
  · refine Triple.bind (triple_offStorage hP _) fun entry => ?_
    refine Triple.bind (triple_offStorage_nonNull entry) fun own => ?_
    exact Triple.pure fun _ hn => hn
  · exact Triple.pure fun _ hn => hn

/-- So does a round of the merge. -/
theorem triple_offStorage_mergeEntry (index : ℤ) (e : LogEntry) :
    Triple P (mergeEntry index e) (fun _ => P) P := by
  have happend : Triple P (do let _ ← onStorage (SQLiteStorage.appendLogEntry e) : Method Id Unit)
      (fun _ => P) P :=
    Triple.bind (triple_offStorage hP _) fun _ => Triple.pure fun _ hn => hn
  rw [mergeEntry]
  refine Triple.bind (triple_offStorage hP _) fun last => ?_
  split_ifs
  · refine Triple.bind (triple_offStorage hP _) fun entry => ?_
    refine Triple.bind (triple_offStorage_nonNull entry) fun own => ?_
    split_ifs
    · exact Triple.bind (triple_offStorage hP _) fun _ => happend
    · exact Triple.pure fun _ hn => hn
  · exact happend

/-- So does the whole merge. -/
theorem triple_offStorage_mergeLoop (index : ℤ) (es : List LogEntry) :
    Triple P (mergeLoop index es) (fun _ => P) P := by
  induction es generalizing index with
  | nil => exact Triple.pure fun _ hn => hn
  | cons e es ih =>
      exact Triple.bind (triple_offStorage_mergeEntry hP index e) fun _ => ih (index + 1)

/-- So does the apply loop. -/
theorem triple_offStorage_applyLoop (i : ℤ) (rounds : ℕ) :
    Triple P (applyLoop i rounds) (fun _ => P) P := by
  induction rounds generalizing i with
  | zero => exact Triple.pure fun _ hn => hn
  | succ rounds ih =>
      rw [applyLoop]
      refine Triple.bind (triple_offStorage hP _) fun entry => ?_
      refine Triple.bind (R := fun _ => P) ?_ fun _ => ih (i + 1)
      rw [applyToStateMachine]
      exact Triple.bind (triple_offStorage_nonNull entry) fun e => triple_offStorage hP _

/-- So does following a leader's commit index. -/
theorem triple_offStorage_followCommit (c : ℤ) :
    Triple P (followCommit c) (fun _ => P) P := by
  rw [followCommit]
  refine Triple.bind (triple_offStorage hP _) fun own => ?_
  split_ifs
  · refine Triple.bind (triple_offStorage hP _) fun last => ?_
    refine Triple.bind (triple_offStorage hP _) fun _ => ?_
    rw [applyCommittedEntries]
    refine Triple.bind (triple_offStorage hP _) fun lastApplied => ?_
    refine Triple.bind (triple_offStorage hP _) fun commitIndex => ?_
    exact Triple.bind (triple_offStorage_applyLoop hP _ _) fun _ => triple_offStorage hP _
  · exact Triple.pure fun _ hn => hn

end OffStorage

/-- The role and the term after an election begins, whatever becomes of its reads. -/
theorem state_startElection (n : RaftNode Id) :
    (n.step .startElection).state = n.state.becomeCandidate := by
  have hreads : Exec.Triple (fun m : RaftNode Id => m.state = n.state.becomeCandidate)
      (do
        let lastLogIndex ← onStorage SQLiteStorage.getLastLogIndex
        let lastLogTerm ← onStorage SQLiteStorage.getLastLogTerm
        return (lastLogIndex, lastLogTerm))
      (fun _ m => m.state = n.state.becomeCandidate)
      (fun m => m.state = n.state.becomeCandidate) := by
    refine Exec.Triple.bind (triple_offStorage (fun _ _ h => h) _) fun _ => ?_
    refine Exec.Triple.bind (triple_offStorage (fun _ _ h => h) _) fun _ => ?_
    exact Exec.Triple.pure fun _ h => h
  rw [step, handle, Exec.finalState_bind_pure]
  exact hreads.finalState (s := n.candidate) rfl

/-- The role and the term after a call, whatever becomes of its statements. -/
theorem state_appendEntries (n : RaftNode Id) (req : AppendEntriesRequest Id) :
    (n.step (.appendEntries req)).state = stateSeen n.state req.term := by
  have hcall : Exec.Triple (fun m : RaftNode Id => m = n) (appendEntries req)
      (fun _ m => m.state = stateSeen n.state req.term)
      (fun m => m.state = stateSeen n.state req.term) := by
    rw [appendEntries]
    refine Exec.Triple.bind_get fun m hm => ?_
    subst hm
    split_ifs with hstale
    · refine Exec.Triple.pure fun m' hm' => ?_
      rw [hm', stateSeen, if_neg (by omega)]
    · rintro m' rfl
      rw [run_observeTerm]
      have hrest : Exec.Triple (fun m : RaftNode Id => m.state = stateSeen m'.state req.term)
          (do
            if ← logMismatch req.prevLogIndex req.prevLogTerm then
              return false
            mergeLoop (req.prevLogIndex + 1) req.entries
            followCommit req.leaderCommit
            return true)
          (fun _ m => m.state = stateSeen m'.state req.term)
          (fun m => m.state = stateSeen m'.state req.term) := by
        refine Exec.Triple.bind (triple_offStorage_logMismatch (fun _ _ h => h) _ _) fun _ => ?_
        split_ifs
        · exact Exec.Triple.pure fun _ h => h
        · refine Exec.Triple.bind (triple_offStorage_mergeLoop (fun _ _ h => h) _ _) fun _ => ?_
          refine Exec.Triple.bind (triple_offStorage_followCommit (fun _ _ h => h) _) fun _ => ?_
          exact Exec.Triple.pure fun _ h => h
      exact hrest _ (state_observed _)
  rw [step_appendEntries]
  exact hcall.finalState rfl

/-! ## Within one process -/

/-- A value of a Java `long`. -/
def IsLong (x : ℤ) : Prop := -2 ^ 63 ≤ x ∧ x ≤ longMax

instance (x : ℤ) : Decidable (IsLong x) := inferInstanceAs (Decidable (_ ∧ _))

/-- Below the greatest long, `++` adds one. -/
theorem longSucc_of_isLong {x : ℤ} (h : IsLong x) (hlt : x < longMax) : longSucc x = x + 1 := by
  obtain ⟨hmin, -⟩ := h
  unfold longSucc
  unfold longMax at hlt
  rw [Int.bmod_eq_of_le] <;> omega

/-- `++` yields a long. -/
theorem isLong_longSucc (x : ℤ) : IsLong (longSucc x) := by
  have hle := Int.le_bmod (x := x + 1) (m := 2 ^ 64) (by decide)
  have hlt := Int.bmod_lt (x := x + 1) (m := 2 ^ 64) (by decide)
  unfold IsLong longSucc longMax
  omega

/-- The steps that write the term of a running node; the terms that come over the
wire are any values of their type. -/
inductive TermStep (Id : Type) : Type where
  | startElection
  | appendEntries (req : AppendEntriesRequest Id) (isLong : IsLong req.term)
  /-- The response to a vote request; `none` is an RPC exception. -/
  | voteResponse (response : Option RequestVoteResponse) (isLong : ∀ r ∈ response, IsLong r.term)

namespace TermStep

omit [DecidableEq Id] in
def event : TermStep Id → Event Id
  | .startElection => .startElection
  | .appendEntries req _ => .appendEntries req
  | .voteResponse response _ => .voteResponse response

def step (n : RaftNode Id) (a : TermStep Id) : RaftNode Id := n.step a.event

/-- The term of the node after the steps `as`. -/
def termAfter (n : RaftNode Id) (as : List (TermStep Id)) : ℤ :=
  (Run.run step n as).state.currentTerm

/-- The term never goes down, and every election ends in a term above all terms
before it. -/
def TermsGrow (n : RaftNode Id) (as : List (TermStep Id)) : Prop :=
  (∀ p q, p <+: q → q <+: as → termAfter n p ≤ termAfter n q) ∧
  (∀ p q, p ++ [.startElection] <+: as → q <+: p →
    termAfter n q < termAfter n (p ++ [.startElection]))

/-- An election starts below the largest `long`. -/
def BelowMax (n : RaftNode Id) : TermStep Id → Prop
  | .startElection => n.state.currentTerm < longMax
  | _ => True

instance : ∀ a : TermStep Id, Decidable (BelowMax n a)
  | .startElection => inferInstanceAs (Decidable (_ < longMax))
  | .appendEntries _ _ | .voteResponse _ _ => inferInstanceAs (Decidable True)

/-- **What a step does to the role and the term.** -/
theorem state_step (n : RaftNode Id) (a : TermStep Id) :
    (step n a).state = stateAfter n.state a.event := by
  cases a with
  | startElection => exact state_startElection n
  | appendEntries req _ => exact state_appendEntries n req
  | voteResponse response _ =>
      cases response with
      | none => rfl
      | some r =>
          show (n.step (.voteResponse (some r))).state = _
          rw [step_voteResponse, responded]
          show _ = stateSeen n.state r.term
          unfold stateSeen
          split_ifs <;> rfl

/-- The term stays a `long`. -/
theorem isLong_step (h : IsLong n.state.currentTerm) (a : TermStep Id) :
    IsLong (step n a).state.currentTerm := by
  have hseen : ∀ t, IsLong t → IsLong (stateSeen n.state t).currentTerm := by
    intro t ht
    unfold stateSeen
    split_ifs
    · exact ht
    · exact h
  rw [state_step]
  cases a with
  | startElection => exact isLong_longSucc _
  | appendEntries req hreq => exact hseen _ hreq
  | voteResponse response hresponse =>
      cases response with
      | none => exact h
      | some r => exact hseen _ (hresponse r rfl)

/-- An election below the largest `long` raises the term by one. -/
theorem currentTerm_startElection (h : IsLong n.state.currentTerm)
    (hlt : n.state.currentTerm < longMax) :
    (step n .startElection).state.currentTerm = n.state.currentTerm + 1 := by
  rw [state_step]
  exact longSucc_of_isLong h hlt

/-- Below the greatest term no step lowers the term. -/
theorem le_currentTerm_step (h : IsLong n.state.currentTerm) {a : TermStep Id}
    (ha : BelowMax n a) : n.state.currentTerm ≤ (step n a).state.currentTerm := by
  cases a with
  | startElection =>
      rw [currentTerm_startElection h ha]
      omega
  | appendEntries req _ =>
      rw [state_step]
      exact currentTerm_le_stateSeen _ _
  | voteResponse response _ =>
      rw [state_step]
      cases response with
      | none => exact le_rfl
      | some r => exact currentTerm_le_stateSeen _ _

/-- The term is a long at every moment. -/
theorem isLong_termAfter (h : IsLong n.state.currentTerm) (as : List (TermStep Id)) :
    IsLong (termAfter n as) :=
  Run.run_invariant (P := fun m : RaftNode Id => IsLong m.state.currentTerm)
    (fun _ a hm => isLong_step hm a) h as

/-- Below the largest `long` the term goes up along the run. -/
theorem termAfter_mono (h : IsLong n.state.currentTerm) {as : List (TermStep Id)}
    (ha : Run.Along step BelowMax n as) {p q : List (TermStep Id)} (hpq : p <+: q)
    (hq : q <+: as) : termAfter n p ≤ termAfter n q := by
  refine ha.mono (P := fun m => IsLong m.state.currentTerm)
    (f := fun m => m.state.currentTerm) ?_ h hpq hq
  intro m a hm hstep
  exact ⟨isLong_step hm a, le_currentTerm_step hm hstep⟩

/-- **Terms grow exactly in the runs** in which no election starts at the largest
`long`. -/
theorem termsGrow_iff (n : RaftNode Id) (h : IsLong n.state.currentTerm)
    (as : List (TermStep Id)) : TermsGrow n as ↔ Run.Along step BelowMax n as := by
  have hsnoc : ∀ p, termAfter n (p ++ [.startElection])
      = (step (Run.run step n p) .startElection).state.currentTerm := by
    intro p
    rw [termAfter, Run.run_snoc]
  constructor
  · rintro ⟨-, hnew⟩
    rw [Run.along_iff]
    intro p a hp
    cases a with
    | startElection =>
        have hlt := hnew p p hp List.prefix_rfl
        by_contra hge
        -- the increment wraps around
        have hwrap := longSucc_lt_of_ge (not_lt.mp hge)
        rw [hsnoc, state_step] at hlt
        exact absurd hlt (not_lt.mpr (le_of_lt hwrap))
    | appendEntries req _ => trivial
    | voteResponse response _ => trivial
  · intro ha
    refine ⟨fun p q hpq hq => termAfter_mono h ha hpq hq, ?_⟩
    intro p q hp hq
    have hle := termAfter_mono h ha hq ((List.prefix_append p _).trans hp)
    rw [hsnoc, currentTerm_startElection (isLong_termAfter h p) (Run.along_iff.mp ha p _ hp)]
    exact Int.lt_add_one_of_le hle

/-- Two elections and messages of terms between them. -/
theorem termsGrow_mixed :
    let as : List (TermStep ℕ) := [.startElection, .voteResponse (some ⟨5, false⟩) (by decide),
      .appendEntries ⟨1, -7, 0, 0, [], 0⟩ (by decide), .startElection]
    termAfter (fresh 0 [1]) as = 6 ∧ TermsGrow (fresh 0 [1]) as := by
  intro as
  refine ⟨by decide +kernel, ?_⟩
  exact (termsGrow_iff _ (by decide) as).mpr (by decide +kernel)

/-- One message of the largest `long`, and the next election is in the smallest. -/
theorem not_termsGrow_largest :
    let as : List (TermStep ℕ) :=
      [.appendEntries ⟨1, longMax, 0, 0, [], 0⟩ (by decide), .startElection]
    termAfter (fresh 0 [1]) as = -2 ^ 63 ∧ ¬ TermsGrow (fresh 0 [1]) as := by
  intro as
  refine ⟨by decide +kernel, ?_⟩
  rintro ⟨hmono, -⟩
  have hle := hmono (as.take 1) as (List.take_prefix 1 as) List.prefix_rfl
  exact absurd hle (by decide +kernel)

end TermStep

end RaftNode

end KVStore
