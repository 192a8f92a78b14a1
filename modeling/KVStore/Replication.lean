/-
# Replication

`matchIndex` is what a leader believes of the logs of its followers, and
`updateCommitIndex` counts these beliefs.  `sendAppendEntries` never talks to the
follower: it calls `appendEntries` on the leader itself and records the follower
at the end of the leader's log.  `Real` says what a send and a commit should mean
for the logs of the other nodes.

It holds along every run in which no leader sends to a peer while its log has an
entry (`Silent`).  Where nothing reaches a node by another way and no two nodes lead
in one term (`Apart`), it holds along no other run: a single send of a single entry
breaks it (`replication_real`).
-/
import KVStore.LogMatching
import KVStore.Quorum
import KVStore.SingleNode

namespace KVStore

open Role RaftNode

variable {Id : Type} [DecidableEq Id]

namespace RaftNode

/-- The followers a node sends to when it takes the event as leader. -/
def sendsTo (n : RaftNode Id) : Event Id → List Id
  | .put _ _ => n.peers
  | .sendAppendEntries f => if f ∈ n.peers then [f] else []
  | _ => []

/-- The event runs `updateCommitIndex` on a leader. -/
def updates (n : RaftNode Id) : Event Id → Bool
  | .put _ _ => true
  | .sendAppendEntries f => decide (f ∈ n.peers)
  | _ => false

end RaftNode

namespace Cluster

/-- Position `k` of node `i`'s log has an entry, and node `f` has the same one. -/
def HoldsAt (c : Cluster Id) (i f : Id) (k : ℕ) : Prop :=
  (c.nodes i).log[k]? ≠ none ∧ (c.nodes f).log[k]? = (c.nodes i).log[k]?

instance (c : Cluster Id) (i f : Id) (k : ℕ) : Decidable (c.HoldsAt i f k) :=
  inferInstanceAs (Decidable (_ ∧ _))

variable [Fintype Id]

/-- What a leader records of a follower it sends to is true of the follower's log,
and an index the leader commits is held by more than half of all nodes. -/
def Real (c : Cluster Id) : Action Id → Prop
  | .event i ev =>
      (c.nodes i).state.currentRole = LEADER → (c.nodes i).updates ev = true →
        (∀ f ∈ (c.nodes i).sendsTo ev, ∀ m,
          ((c.act i ev).nodes i).matchIndex.lookup f = some m →
          ∀ k : ℕ, (k : ℤ) < m → (c.act i ev).HoldsAt i f k) ∧
        (∀ k : ℕ, (c.nodes i).commitIndex ≤ k → (k : ℤ) < ((c.act i ev).nodes i).commitIndex →
          Fintype.card Id
            < 2 * (Finset.univ.filter fun f => (c.act i ev).HoldsAt i f k).card)
  | _ => True

omit [Fintype Id] in
/-- No leader sends an entry to a peer. -/
def Silent (c : Cluster Id) : Action Id → Prop
  | .event i (.put _ _) => (c.nodes i).state.currentRole = LEADER → (c.nodes i).peers = []
  | .event i (.sendAppendEntries f) => (c.nodes i).state.currentRole = LEADER →
      f ∈ (c.nodes i).peers → (c.nodes i).log = []
  | _ => True

/-! ## Runs without sends -/

omit [Fintype Id] in
/-- Every node is a member of the cluster. -/
def Formed (c : Cluster Id) : Prop := ∀ i, (c.nodes i).nodeId = i ∧ (c.nodes i).Belongs

omit [Fintype Id] in
theorem formed_init (M : Members Id) : (init M).Formed :=
  fun i => ⟨rfl, belongs_fresh (M.mem_peersOf i)⟩

omit [Fintype Id] in
theorem Formed.act {c : Cluster Id} (h : c.Formed) (hs : c.Sane) (i : Id) (ev : Event Id) :
    (c.act i ev).Formed := by
  apply forall_act (P := fun j n => n.nodeId = j ∧ n.Belongs) h
  obtain ⟨hid, hpeers⟩ := nodeId_step (hs i) ev
  refine ⟨hid.trans (h i).1, ?_⟩
  intro f
  rw [hid, hpeers]
  exact (h i).2 f

omit [Fintype Id] in
/-- A node that leads has recorded no entry for any peer. -/
def Unrecorded (n : RaftNode Id) : Prop :=
  n.state.currentRole = LEADER → ∀ f ∈ n.peers, n.matchIndex.lookup f = some 0

omit [Fintype Id] in
theorem unrecorded_send {n : RaftNode Id} (hs : n.Sane) (h : Unrecorded n) {f : Id}
    (hsilent : n.state.currentRole = LEADER → f ∈ n.peers → n.log = []) :
    Unrecorded (n.step (.sendAppendEntries f)) := by
  rcases step_sendAppendEntries_cases hs f with hsent | hthrew
  · rw [hsent]
    obtain ⟨hstate, -, -, hpeers, -, hmatch⟩ :=
      (commitOnly_commitUpdated (n.sent f)).fields_eq
    intro hrole g hg
    rw [hstate, state_sent] at hrole
    rw [hpeers, peers_sent] at hg
    rw [hmatch, matchIndex_sent]
    by_cases hgf : g = f
    · subst hgf
      rw [AList.lookup_insert, hsilent hrole hg]
      rfl
    · rw [AList.lookup_insert_ne hgf]
      exact h hrole g hg
  · rw [hthrew]
    exact h

omit [Fintype Id] in
theorem unrecorded_step {c : Cluster Id} {i : Id} {ev : Event Id} (hs : (c.nodes i).Sane)
    (h : Unrecorded (c.nodes i)) (hsilent : c.Silent (.event i ev)) :
    Unrecorded ((c.nodes i).step ev) := by
  cases ev with
  | put key value =>
      intro hrole f hf
      rw [state_step hs] at hrole
      rw [(nodeId_step hs _).2, hsilent hrole] at hf
      cases hf
  | get key =>
      rw [step_get key hs.healthy]
      exact h
  | startElection =>
      intro hrole
      rw [state_step hs] at hrole
      cases hrole
  | becomeLeader =>
      rw [step_becomeLeader hs.healthy]
      intro _ f hf
      rw [peers_elected] at hf
      exact matchIndex_elected hf
  | voteResponse response =>
      cases response with
      | none => exact h
      | some r =>
          rw [step_voteResponse]
          unfold responded
          split_ifs
          · intro hrole
            cases hrole
          · exact h
  | sendAppendEntries f => exact unrecorded_send hs h hsilent
  | appendEntries req =>
      intro hrole f hf
      obtain ⟨hpeers, hmatch⟩ := fields_appendEntries hs req
      have hbefore : (c.nodes i).state.currentRole = LEADER := by
        rcases leads_of_step hs ⟨hrole, rfl⟩ with hleads | ⟨hev, -⟩
        · exact hleads.1
        · cases hev
      rw [hmatch]
      exact h hbefore f (hpeers ▸ hf)
  | restart =>
      intro hrole
      cases hrole

omit [Fintype Id] in
/-- What a run without sends keeps. -/
structure SilentInv (c : Cluster Id) : Prop where
  sane : c.Sane
  formed : c.Formed
  unrecorded : ∀ i, Unrecorded (c.nodes i)

omit [Fintype Id] in
theorem SilentInv.act {c : Cluster Id} (h : c.SilentInv) {i : Id} {ev : Event Id}
    (hsilent : c.Silent (.event i ev)) : (c.act i ev).SilentInv := by
  refine ⟨h.sane.act i ev, h.formed.act h.sane i ev, ?_⟩
  apply forall_act (P := fun _ n => Unrecorded n) h.unrecorded
  exact unrecorded_step (h.sane i) (h.unrecorded i) hsilent

omit [Fintype Id] in
theorem SilentInv.step {c : Cluster Id} (h : c.SilentInv) {a : Action Id} (hsilent : c.Silent a) :
    (c.step a).SilentInv := by
  cases heff : c.effect a with
  | none =>
      have hnodes := nodes_of_no_effect heff
      refine ⟨h.sane.step a, ?_, ?_⟩
      · exact fun i => hnodes ▸ h.formed i
      · exact fun i => hnodes ▸ h.unrecorded i
  | some p =>
      obtain ⟨i, ev⟩ := p
      rw [step_of_effect heff]
      apply h.act
      cases a with
      | event j ev' =>
          obtain ⟨rfl, rfl⟩ : j = i ∧ ev' = ev := by simpa [effect] using heff
          exact hsilent
      | send j nextIdx follower => cases heff
      | deliver j k =>
          -- a delivery is a call of `appendEntries`, which sends nothing
          rw [effect, Option.map_eq_some_iff] at heff
          obtain ⟨req, -, heq⟩ := heff
          obtain ⟨rfl, rfl⟩ : j = i ∧ Event.appendEntries req = ev := by simpa using heq
          trivial

omit [DecidableEq Id] in
/-- The sender holds its own entries. -/
theorem holders_pos {c : Cluster Id} {i : Id} {k : ℕ} (hk : (c.nodes i).log[k]? ≠ none) :
    0 < (Finset.univ.filter fun f => c.HoldsAt i f k).card := by
  rw [Finset.card_pos]
  exact ⟨i, Finset.mem_filter.mpr ⟨Finset.mem_univ i, hk, rfl⟩⟩

omit [Fintype Id] in
theorem commitIndex_send_le {n : RaftNode Id} (h : n.Sane) (f : Id) :
    (n.step (.sendAppendEntries f)).commitIndex ≤ max n.commitIndex n.log.length := by
  rcases step_sendAppendEntries_cases h f with hsent | hthrew
  · rw [hsent]
    exact commitIndex_commitUpdated_le (n.sent f)
  · rw [hthrew]
    exact le_max_left _ _

omit [Fintype Id] in
/-- A put on a leader without peers commits at most its own entry. -/
theorem commitIndex_put_le {n : RaftNode Id} (h : n.Sane) (hrole : n.state.currentRole = LEADER)
    (hpeers : n.peers = []) (key value : String) :
    (n.step (.put key value)).commitIndex ≤ max n.commitIndex (n.step (.put key value)).log.length := by
  have hsane := h.appended key value
  have hrun : (proposeEntry key value).run n = .ok true (n.appended key value).commitUpdated := by
    rw [run_proposeEntry_of_leader h.healthy hrole, hpeers]
    exact Exec.run_bind_ok (run_updateCommitIndex hsane.healthy hsane.lastApplied_nonneg
      hsane.commitIndex_nonneg)
  rw [step_put, Exec.finalState_ok hrun, (commitOnly_commitUpdated _).log_eq]
  exact commitIndex_commitUpdated_le (n.appended key value)

/-- A put that a leader without peers accepts: whatever it holds, all nodes hold. -/
theorem SilentInv.real_put {c : Cluster Id} (h : c.SilentInv) {i : Id} {key value : String}
    (hsilent : c.Silent (.event i (.put key value))) : c.Real (.event i (.put key value)) := by
  intro hrole _
  have hpeers : (c.nodes i).peers = [] := hsilent hrole
  have hcard := (h.formed i).2.length_peers
  rw [hpeers, List.length_nil] at hcard
  constructor
  · intro f hf
    rw [sendsTo, hpeers] at hf
    cases hf
  · intro k hk hk'
    have hcommit0 := (h.sane i).commitIndex_nonneg
    have hle := commitIndex_put_le (h.sane i) hrole hpeers key value
    rw [nodes_act_self] at hk'
    have hholds : ((c.act i (.put key value)).nodes i).log[k]? ≠ none := by
      rw [nodes_act_self, Ne, List.getElem?_eq_none_iff]
      omega
    have hpos := holders_pos hholds
    omega

/-- A send from an empty log records the index `0` and commits nothing. -/
theorem SilentInv.real_send {c : Cluster Id} (h : c.SilentInv) {i f : Id}
    (hsilent : c.Silent (.event i (.sendAppendEntries f))) :
    c.Real (.event i (.sendAppendEntries f)) := by
  intro hrole hup
  have hf : f ∈ (c.nodes i).peers := of_decide_eq_true hup
  have hlog : (c.nodes i).log = [] := hsilent hrole hf
  constructor
  · intro g hg m hm k hk
    rw [sendsTo, if_pos hf, List.mem_singleton] at hg
    subst hg
    have hzero : ((c.nodes i).step (.sendAppendEntries g)).matchIndex.lookup g = some 0 := by
      apply unrecorded_step (h.sane i) (h.unrecorded i) hsilent
      · rw [state_step (h.sane i)]
        exact hrole
      · rw [(nodeId_step (h.sane i) _).2]
        exact hf
    rw [nodes_act_self, hzero, Option.some_inj] at hm
    omega
  · intro k hk hk'
    have hcommit0 := (h.sane i).commitIndex_nonneg
    have hle := commitIndex_send_le (h.sane i) f
    rw [nodes_act_self] at hk'
    rw [hlog, List.length_nil] at hle
    omega

/-- **A step without sends means what it records.** -/
theorem SilentInv.real {c : Cluster Id} (h : c.SilentInv) {a : Action Id}
    (hsilent : c.Silent a) : c.Real a := by
  cases a with
  | send i nextIdx follower => trivial
  | deliver i k => trivial
  | event i ev =>
      cases ev with
      | put key value => exact h.real_put hsilent
      | sendAppendEntries f => exact h.real_send hsilent
      | get key => exact fun _ hup => by cases hup
      | startElection => exact fun _ hup => by cases hup
      | becomeLeader => exact fun _ hup => by cases hup
      | voteResponse response => exact fun _ hup => by cases hup
      | appendEntries req => exact fun _ hup => by cases hup
      | restart => exact fun _ hup => by cases hup

/-! ## Nodes apart

The source delivers nothing between nodes.  As long as nothing else does either,
a log has only the entries its own node proposed as leader. -/

omit [Fintype Id] in
/-- No `appendEntries` call comes from outside, and no two nodes lead in one term. -/
def Apart (c : Cluster Id) (as : List (Action Id)) : Prop :=
  (∀ a ∈ as, match a with
    | .event _ ev => ev.isLocal = true
    | .send _ _ _ => True
    | .deliver _ _ => False) ∧
  c.OneLeaderPerTerm as

omit [Fintype Id] in
/-- Every node is a correct map of its own puts, each made in a term it has led in. -/
structure ApartInv (Led : Id → ℤ → Prop) (c : Cluster Id) : Prop where
  formed : c.Formed
  maps : ∀ i, ∃ puts, MapInv (c.nodes i) puts
  led : ∀ i t, (c.nodes i).Leads t → Led i t
  logs : ∀ i, ∀ e ∈ (c.nodes i).log, Led i e.term

omit [Fintype Id] in
theorem ApartInv.sane {Led : Id → ℤ → Prop} {c : Cluster Id} (h : ApartInv Led c) : c.Sane := by
  intro i
  obtain ⟨puts, hmap⟩ := h.maps i
  exact hmap.inStep.sane

omit [Fintype Id] in
/-- An entry of the log after a local event is of a term the node has led in. -/
theorem ApartInv.led_of_mem {Led : Id → ℤ → Prop} {c : Cluster Id} (h : ApartInv Led c) {i : Id}
    {ev : Event Id} (hev : ev.isLocal = true) {e : LogEntry}
    (he : e ∈ ((c.nodes i).step ev).log) : Led i e.term := by
  rw [log_step (h.sane i)] at he
  cases ev with
  | put key value =>
      by_cases hrole : (c.nodes i).state.currentRole = LEADER
      · rw [logAfter, if_pos hrole] at he
        rcases List.mem_append.mp he with hold | hnew
        · exact h.logs i e hold
        · obtain rfl := List.mem_singleton.mp hnew
          exact h.led i _ ⟨hrole, rfl⟩
      · rw [logAfter, if_neg hrole] at he
        exact h.logs i e he
  | appendEntries req => cases hev
  | get key => exact h.logs i e he
  | startElection => exact h.logs i e he
  | becomeLeader => exact h.logs i e he
  | voteResponse response => exact h.logs i e he
  | sendAppendEntries f => exact h.logs i e he
  | restart => exact h.logs i e he

omit [Fintype Id] in
theorem ApartInv.act {Led Led' : Id → ℤ → Prop} {c : Cluster Id} (h : ApartInv Led c) {i : Id}
    {ev : Event Id} (hev : ev.isLocal = true)
    (hLed : ∀ j t, Led' j t ↔ Led j t ∨ ((c.act i ev).nodes j).Leads t) :
    ApartInv Led' (c.act i ev) := by
  refine ⟨h.formed.act h.sane i ev, ?_, ?_, ?_⟩
  · apply forall_act (P := fun _ n => ∃ puts, MapInv n puts) h.maps
    obtain ⟨puts, hmap⟩ := h.maps i
    exact ⟨_, hmap.step hev⟩
  · intro j t hl
    exact (hLed j t).mpr (Or.inr hl)
  · intro j e he
    apply (hLed j _).mpr
    left
    revert e
    exact forall_act (P := fun j n => ∀ e ∈ n.log, Led j e.term) h.logs
      (fun e he => h.led_of_mem hev he) j

omit [Fintype Id] in
theorem apartInv_after (M : Members Id) {as : List (Action Id)} (h : (init M).Apart as) :
    ApartInv ((init M).LedIn as) ((init M).after as) := by
  refine Run.run_induction (P := fun p => ApartInv ((init M).LedIn p) ((init M).after p)) ?_ ?_
  · refine ⟨formed_init M, fun i => ⟨[], mapInv_fresh i _⟩, ?_, ?_⟩
    · intro i t hl
      exact ⟨[], List.prefix_rfl, hl⟩
    · intro i e he
      cases he
  · intro p a hpa hinv
    have ha := h.1 a (hpa.subset (List.mem_append_right p List.mem_cons_self))
    have hLed : ∀ j t, (init M).LedIn (p ++ [a]) j t ↔
        (init M).LedIn p j t ∨ ((((init M).after p).step a).nodes j).Leads t := by
      intro j t
      rw [ledIn_snoc, after_snoc]
    rw [after_snoc]
    cases a with
    | event i ev => exact hinv.act ha hLed
    | deliver i k => cases ha
    | send i nextIdx follower =>
        have hnodes : (((init M).after p).step (.send i nextIdx follower)).nodes
            = ((init M).after p).nodes := nodes_of_no_effect rfl
        refine ⟨fun j => hnodes ▸ hinv.formed j, fun j => hnodes ▸ hinv.maps j, ?_, ?_⟩
        · intro j t hl
          exact (hLed j t).mpr (Or.inr hl)
        · intro j e he
          rw [hnodes] at he
          exact (hLed j _).mpr (Or.inl (hinv.logs j e he))

omit [Fintype Id] in
/-- No two logs have an entry in common. -/
theorem ApartInv.not_holdsAt {Led : Id → ℤ → Prop} {c : Cluster Id} (h : ApartInv Led c)
    (huniq : ∀ i j t, Led i t → Led j t → i = j) {i j : Id} (hj : j ≠ i) {ev : Event Id}
    (hev : ev.isLocal = true) (k : ℕ) : ¬ (c.act i ev).HoldsAt i j k := by
  rintro ⟨hsome, hsame⟩
  obtain ⟨e, he⟩ := Option.ne_none_iff_exists'.mp hsome
  rw [he, nodes_act_ne hj] at hsame
  rw [nodes_act_self] at he
  apply hj
  exact huniq j i e.term (h.logs j e (List.mem_of_getElem? hsame))
    (h.led_of_mem hev (List.mem_of_getElem? he))

/-- A put commits its entry at once, so it is real only without peers. -/
theorem ApartInv.peers_nil_of_real {Led : Id → ℤ → Prop} {c : Cluster Id} (h : ApartInv Led c)
    (huniq : ∀ i j t, Led i t → Led j t → i = j) {i : Id} {key value : String}
    (hrole : (c.nodes i).state.currentRole = LEADER)
    (hreal : c.Real (.event i (.put key value))) : (c.nodes i).peers = [] := by
  by_contra hpeers
  obtain ⟨puts, hmap⟩ := h.maps i
  obtain ⟨n', hrun, -, hcommit', hlog'⟩ := hmap.inStep.put_leader hrole key value
  have hraised : ((c.nodes i).log.length : ℤ)
      < ((c.act i (.put key value)).nodes i).commitIndex := by
    rw [nodes_act_self, step_of_run hrun, hcommit', hlog', List.length_append]
    exact_mod_cast Nat.lt_succ_self _
  have hmajority := (hreal hrole rfl).2 _ (le_of_eq hmap.committed) hraised
  -- nobody but the leader holds the new entry
  have hsub : (Finset.univ.filter fun f =>
      (c.act i (.put key value)).HoldsAt i f (c.nodes i).log.length) ⊆ {i} := by
    intro f hf
    rw [Finset.mem_singleton]
    by_contra hfi
    exact h.not_holdsAt huniq hfi rfl _ (Finset.mem_filter.mp hf).2
  have hone := Finset.card_le_card hsub
  have hcard := (h.formed i).2.length_peers
  have hpos := List.length_pos_iff.mpr hpeers
  rw [Finset.card_singleton] at hone
  omega

/-- A send records the peer at the end of the log, so it is real only for the empty
log. -/
theorem ApartInv.log_nil_of_real {Led : Id → ℤ → Prop} {c : Cluster Id} (h : ApartInv Led c)
    (huniq : ∀ i j t, Led i t → Led j t → i = j) {i f : Id}
    (hrole : (c.nodes i).state.currentRole = LEADER) (hf : f ∈ (c.nodes i).peers)
    (hreal : c.Real (.event i (.sendAppendEntries f))) : (c.nodes i).log = [] := by
  by_contra hlog
  obtain ⟨puts, hmap⟩ := h.maps i
  have hfi : f ≠ i := by
    have hne := ((h.formed i).2 f).mp hf
    rwa [(h.formed i).1] at hne
  have hrecorded : ((c.act i (.sendAppendEntries f)).nodes i).matchIndex.lookup f
      = some ((c.nodes i).log.length : ℤ) := by
    rw [nodes_act_self, step_of_run (hmap.inStep.send f).1,
      (commitOnly_commitUpdated _).fields_eq.2.2.2.2.2, matchIndex_sent, AList.lookup_insert]
  have hsends : f ∈ (c.nodes i).sendsTo (.sendAppendEntries f) := by
    rw [sendsTo, if_pos hf]
    exact List.mem_cons_self
  have hpos := List.length_pos_iff.mpr hlog
  exact h.not_holdsAt huniq hfi rfl _
    ((hreal hrole (decide_eq_true hf)).1 f hsends _ hrecorded 0 (by omega))

/-- **A leader's send of an entry is never real** among nodes apart. -/
theorem ApartInv.silent_of_real {Led : Id → ℤ → Prop} {c : Cluster Id} (h : ApartInv Led c)
    (huniq : ∀ i j t, Led i t → Led j t → i = j) {a : Action Id} (hreal : c.Real a) :
    c.Silent a := by
  cases a with
  | send i nextIdx follower => trivial
  | deliver i k => trivial
  | event i ev =>
      cases ev with
      | put key value => exact fun hrole => h.peers_nil_of_real huniq hrole hreal
      | sendAppendEntries f => exact fun hrole hf => h.log_nil_of_real huniq hrole hf hreal
      | get key => trivial
      | startElection => trivial
      | becomeLeader => trivial
      | voteResponse response => trivial
      | appendEntries req => trivial
      | restart => trivial

/-- **Replication is real in runs without sends, and among nodes apart in no
other.** -/
theorem replication_real (M : Members Id) (as : List (Action Id)) :
    (Run.Along Cluster.step Silent (init M) as → Run.Along Cluster.step Real (init M) as) ∧
    ((init M).Apart as → Run.Along Cluster.step Real (init M) as →
      Run.Along Cluster.step Silent (init M) as) := by
  constructor
  · intro hsilent
    have hinit : (init M).SilentInv := by
      refine ⟨sane_init M, formed_init M, ?_⟩
      intro i hrole
      cases hrole
    exact hsilent.imp (P := SilentInv) (fun c a h ha => ⟨h.step ha, h.real ha⟩) hinit
  · intro hapart hreal
    rw [Run.along_iff] at hreal ⊢
    intro p a hpa
    have hp : p <+: as := (List.prefix_append p [a]).trans hpa
    have hled : ∀ i t, (init M).LedIn p i t → (init M).LedIn as i t := by
      rintro i t ⟨q, hq, hl⟩
      exact ⟨q, hq.trans hp, hl⟩
    have hapart' : (init M).Apart p :=
      ⟨fun b hb => hapart.1 b (hp.subset hb),
        fun i j t hi hj => hapart.2 i j t (hled i t hi) (hled j t hj)⟩
    exact (apartInv_after M hapart').silent_of_real hapart'.2 (hreal p a hpa)

/-- The theorem at a leader of two nodes that sends while its log is empty, and at a leader
without peers that accepts a put and commits it. -/
theorem replication_real_run :
    (let M : Members (Fin 2) := Members.ofFin 1
     Run.Along Cluster.step Real (init M) [.event 0 .startElection, .event 0 .becomeLeader,
       .event 0 (.sendAppendEntries 1)]) ∧
    let M : Members (Fin 1) := Members.ofFin 0
    let as : List (Action (Fin 1)) :=
      [.event 0 .startElection, .event 0 .becomeLeader, .event 0 (.put "k" "v")]
    Run.Along Cluster.step Real (init M) as ∧
      ((Run.run Cluster.step (init M) as).nodes 0).commitIndex = 1 := by
  constructor
  · intro M
    exact (replication_real M _).1 ⟨trivial, trivial, fun _ _ => by decide +kernel, trivial⟩
  · intro M as
    refine ⟨(replication_real M as).1 ⟨trivial, trivial, fun _ => ?_, trivial⟩, ?_⟩
    · decide +kernel
    · decide +kernel

/-- A leader of two nodes accepts one put: it records its peer at index `1` and
commits the entry, which the peer does not have. -/
theorem replication_not_real :
    let c := (init (Members.ofFin 1)).after [.event 0 .startElection, .event 0 .becomeLeader]
    let c' := c.act 0 (.put "k" "v")
    ¬ c.Real (.event 0 (.put "k" "v")) ∧ (c'.nodes 0).matchIndex.lookup 1 = some 1 ∧
      (c'.nodes 0).commitIndex = 1 ∧ (c'.nodes 1).log = [] := by
  refine ⟨?_, by decide +kernel, by decide +kernel, by decide +kernel⟩
  intro hreal
  have hheld := (hreal (by decide +kernel) rfl).1 1 (by decide +kernel) 1 (by decide +kernel) 0
    (by decide)
  revert hheld
  decide +kernel

end Cluster

end KVStore
