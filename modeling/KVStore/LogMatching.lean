/-
# Log matching

If two logs of a cluster have entries of the same term at the same index, they
are equal up to that index.  `appendEntries` compares terms only and skips what
looks equal, so the property rests on an invariant over every log that is still
around: the logs of the nodes and the logs the messages on the network were built
from (`InPlay`).

* `Coherent.matching` : any two of them match;
* `Coherent.created` : an entry of term `t` was created by a leader of `t`, and
  as long as that node leads in `t` its own log holds everything up to the entry;
* `Coherent.built` : the same for the log a message was built from.

A delivery replaces a log by one that is in play already, so only a leader's
append can bring a new entry, and `created` says that its place and term are
free.  That at most one node ever leads in a term, that terms do not wrap around
and that nodes do not restart are assumptions on the run.
-/
import Mathlib.Data.Fintype.Basic
import KVStore.Cluster
import KVStore.Terms

namespace KVStore

open Role Splice RaftNode

variable {Id : Type}

theorem getElem?_snoc {α : Type} {l : List α} {x v : α} {k : ℕ}
    (h : (l ++ [x])[k]? = some v) : (k < l.length ∧ l[k]? = some v) ∨ (k = l.length ∧ v = x) := by
  rcases lt_or_ge k l.length with hk | hk
  · rw [List.getElem?_append_left hk] at h
    exact Or.inl ⟨hk, h⟩
  · have hlen := (List.getElem?_eq_some_iff.mp h).1
    rw [List.length_append, List.length_singleton] at hlen
    obtain rfl : k = l.length := by omega
    exact Or.inr ⟨rfl, by simpa using h.symm⟩

/-! ## Leading in a term -/

namespace RaftNode

/-- The node is leader in term `t`. -/
def Leads (n : RaftNode Id) (t : ℤ) : Prop :=
  n.state.currentRole = LEADER ∧ n.state.currentTerm = t

instance (n : RaftNode Id) (t : ℤ) : Decidable (n.Leads t) :=
  inferInstanceAs (Decidable (_ ∧ _))

variable [DecidableEq Id] {n : RaftNode Id} {t : ℤ}

omit [DecidableEq Id] in
/-- Seeing a term leaves a node leader only if it changes nothing. -/
theorem stateSeen_of_leader {s : RaftState Id} {u : ℤ}
    (h : (stateSeen s u).currentRole = LEADER) : u ≤ s.currentTerm ∧ stateSeen s u = s := by
  by_cases hu : u > s.currentTerm
  · rw [stateSeen, if_pos hu] at h
    cases h
  · exact ⟨not_lt.mp hu, if_neg hu⟩

/-- A leader leads in its term until it has a higher one. -/
theorem leads_step (h : n.Sane) (h0 : 0 ≤ n.state.currentTerm) {ev : Event Id}
    (hk : n.KeepsTerm ev) (hev : ev ≠ .restart) (hl : n.Leads t) :
    t < (n.step ev).state.currentTerm ∨ (n.step ev).Leads t := by
  obtain ⟨hrole, rfl⟩ := hl
  unfold Leads
  rw [state_step h]
  cases ev with
  | startElection =>
      -- the one event that gives up the role without a message, at the price of the term
      left
      have hsucc := longSucc_of_lt h0 hk
      show _ < longSucc n.state.currentTerm
      omega
  | voteResponse response =>
      cases response with
      | none => exact Or.inr ⟨hrole, rfl⟩
      | some r =>
          unfold stateAfter stateSeen
          dsimp only
          split_ifs with ht
          · exact Or.inl ht
          · exact Or.inr ⟨hrole, rfl⟩
  | appendEntries req =>
      unfold stateAfter stateSeen
      dsimp only
      split_ifs with ht
      · exact Or.inl ht
      · exact Or.inr ⟨hrole, rfl⟩
  | restart => exact absurd rfl hev
  | put key value => exact Or.inr ⟨hrole, rfl⟩
  | get key => exact Or.inr ⟨hrole, rfl⟩
  | becomeLeader => exact Or.inr ⟨rfl, rfl⟩
  | sendAppendEntries f => exact Or.inr ⟨hrole, rfl⟩

/-- Being past a term or leading in it is kept. -/
theorem past_step (h : n.Sane) (h0 : 0 ≤ n.state.currentTerm) {ev : Event Id}
    (hk : n.KeepsTerm ev) (hev : ev ≠ .restart) (hp : t < n.state.currentTerm ∨ n.Leads t) :
    t < (n.step ev).state.currentTerm ∨ (n.step ev).Leads t := by
  rcases hp with hlt | hleads
  · exact Or.inl (hlt.trans_le (currentTerm_le_step h h0 hk))
  · exact leads_step h h0 hk hev hleads

/-- Only `becomeLeader` makes a node leader in a term. -/
theorem leads_of_step (h : n.Sane) {ev : Event Id} (hl : (n.step ev).Leads t) :
    n.Leads t ∨ ev = .becomeLeader ∧ n.state.currentTerm = t := by
  unfold Leads at hl
  rw [state_step h] at hl
  cases ev with
  | startElection => cases hl.1
  | restart => cases hl.1
  | becomeLeader => exact Or.inr ⟨rfl, hl.2⟩
  | voteResponse response =>
      cases response with
      | none => exact Or.inl hl
      | some r =>
          obtain ⟨-, hsame⟩ := stateSeen_of_leader hl.1
          rw [stateAfter, hsame] at hl
          exact Or.inl hl
  | appendEntries req =>
      obtain ⟨-, hsame⟩ := stateSeen_of_leader hl.1
      rw [stateAfter, hsame] at hl
      exact Or.inl hl
  | put key value => exact Or.inl hl
  | get key => exact Or.inl hl
  | sendAppendEntries f => exact Or.inl hl

end RaftNode

namespace Cluster

variable [DecidableEq Id]

/-- Node `i` leads in term `t` at some moment of the run. -/
def LedIn (c : Cluster Id) (as : List (Action Id)) (i : Id) (t : ℤ) : Prop :=
  ∃ p, p <+: as ∧ ((c.after p).nodes i).Leads t

theorem ledIn_snoc {c : Cluster Id} {as : List (Action Id)} {a : Action Id} {i : Id} {t : ℤ} :
    c.LedIn (as ++ [a]) i t ↔ c.LedIn as i t ∨ ((c.after (as ++ [a])).nodes i).Leads t := by
  constructor
  · rintro ⟨p, hp, hl⟩
    rcases List.prefix_concat_iff.mp hp with rfl | hp
    · exact Or.inr hl
    · exact Or.inl ⟨p, hp, hl⟩
  · rintro (⟨p, hp, hl⟩ | hl)
    · exact ⟨p, hp.trans (List.prefix_append as [a]), hl⟩
    · exact ⟨as ++ [a], List.prefix_rfl, hl⟩

/-- What is known of leaders: `Led` holds of a leader, and a node that has led in
a term is past that term or still leads in it. -/
structure Leadership (Led : Id → ℤ → Prop) (nodes : Id → RaftNode Id) : Prop where
  nonneg : ∀ i, 0 ≤ (nodes i).state.currentTerm
  now : ∀ i t, (nodes i).Leads t → Led i t
  past : ∀ i t, Led i t → t < (nodes i).state.currentTerm ∨ (nodes i).Leads t

variable {c : Cluster Id} {Led Led' : Id → ℤ → Prop}

theorem Leadership.act (h : Leadership Led c.nodes) (hs : c.Sane) {i : Id} {ev : Event Id}
    (hk : (c.nodes i).KeepsTerm ev) (hev : ev ≠ .restart)
    (hLed : ∀ j t, Led' j t ↔ Led j t ∨ ((c.act i ev).nodes j).Leads t) :
    Leadership Led' (c.act i ev).nodes := by
  constructor
  · apply forall_act (P := fun _ n => 0 ≤ n.state.currentTerm) h.nonneg
    exact (h.nonneg i).trans (currentTerm_le_step (hs i) (h.nonneg i) hk)
  · intro j t hl
    exact (hLed j t).mpr (Or.inr hl)
  · intro j t hled
    rcases (hLed j t).mp hled with hold | hnow
    · by_cases hj : j = i
      · subst hj
        rw [nodes_act_self]
        exact past_step (hs j) (h.nonneg j) hk hev (h.past j t hold)
      · rw [nodes_act_ne hj]
        exact h.past j t hold
    · exact Or.inr hnow

/-- An event makes no node leader in a term in which it has led before, unless it
still leads in it. -/
theorem Leadership.leads_of_act (h : Leadership Led c.nodes) (hs : c.Sane) {i j : Id}
    {ev : Event Id} {t : ℤ} (hled : Led j t) (hl : ((c.act i ev).nodes j).Leads t) :
    (c.nodes j).Leads t := by
  by_cases hj : j = i
  · subst hj
    rw [nodes_act_self] at hl
    rcases leads_of_step (hs j) hl with hleads | ⟨-, rfl⟩
    · exact hleads
    · rcases h.past j _ hled with hlt | hleads
      · exact absurd hlt (lt_irrefl _)
      · exact hleads
  · rw [nodes_act_ne hj] at hl
    exact hl

/-! ## The logs in play -/

/-- The log of a node, or the log a message was built from. -/
def InPlay (nodes : Id → RaftNode Id) (calls : List (LeaderCall Id)) (l : List LogEntry) : Prop :=
  (∃ i, (nodes i).log = l) ∨ ∃ call ∈ calls, call.leaderLog = l

/-- A message was built from a log that, as long as its sender leads in the
message's term, is a beginning of the sender's log. -/
def Built (Led : Id → ℤ → Prop) (nodes : Id → RaftNode Id) (call : LeaderCall Id) : Prop :=
  1 ≤ call.nextIdx ∧ call.nextIdx ≤ call.leaderLog.length + 1 ∧
    ∃ i, Led i call.term ∧ ((nodes i).Leads call.term → call.leaderLog <+: (nodes i).log)

/-- The invariant over all logs in play. -/
structure Coherent (Led : Id → ℤ → Prop) (nodes : Id → RaftNode Id)
    (calls : List (LeaderCall Id)) : Prop where
  matching : ∀ l l', InPlay nodes calls l → InPlay nodes calls l' →
    Matching LogEntry.term l l'
  created : ∀ l, InPlay nodes calls l → ∀ k e, l[k]? = some e →
    ∃ i, Led i e.term ∧ ((nodes i).Leads e.term → l.take (k + 1) <+: (nodes i).log)
  built : ∀ call ∈ calls, Built Led nodes call

variable {nodes nodes' : Id → RaftNode Id} {calls calls' : List (LeaderCall Id)}

omit [DecidableEq Id] in
/-- A change that brings no new log into play and shortens no leader's log keeps
the invariant. -/
theorem Coherent.of_inPlay (h : Coherent Led nodes calls)
    (hmono : ∀ i t, Led i t → Led' i t)
    (hplay : ∀ l, InPlay nodes' calls' l → InPlay nodes calls l)
    (hlead : ∀ i t, Led i t → (nodes' i).Leads t →
      (nodes i).Leads t ∧ (nodes i).log <+: (nodes' i).log)
    (hcalls : ∀ call ∈ calls', call ∈ calls ∨ Built Led' nodes' call) :
    Coherent Led' nodes' calls' := by
  constructor
  · intro l l' hl hl'
    exact h.matching l l' (hplay l hl) (hplay l' hl')
  · intro l hl k e he
    obtain ⟨i, hled, hpre⟩ := h.created l (hplay l hl) k e he
    refine ⟨i, hmono i _ hled, ?_⟩
    intro hleads
    obtain ⟨hold, hlog⟩ := hlead i _ hled hleads
    exact (hpre hold).trans hlog
  · intro call hcall
    rcases hcalls call hcall with hold | hnew
    · obtain ⟨h1, h2, i, hled, hpre⟩ := h.built call hold
      refine ⟨h1, h2, i, hmono i _ hled, ?_⟩
      intro hleads
      obtain ⟨hold, hlog⟩ := hlead i _ hled hleads
      exact (hpre hold).trans hlog
    · exact hnew

/-! ## What each kind of action does to the invariant -/

omit [DecidableEq Id] in
/-- A leader puts a message on the network. -/
theorem Coherent.send (h : Coherent Led c.nodes calls) (hlead : Leadership Led c.nodes)
    (a : Action Id) : Coherent Led c.nodes (calls ++ c.sends a) := by
  refine h.of_inPlay (fun _ _ hled => hled) ?_ (fun _ _ _ hl => ⟨hl, List.prefix_rfl⟩) ?_
  · rintro l (hnode | ⟨call, hcall, rfl⟩)
    · exact Or.inl hnode
    · rcases List.mem_append.mp hcall with hold | hnew
      · exact Or.inr ⟨call, hold, rfl⟩
      · obtain ⟨i, -, hlog, -⟩ := mem_sends hnew
        exact Or.inl ⟨i, hlog.symm⟩
  · intro call hcall
    rcases List.mem_append.mp hcall with hold | hnew
    · exact Or.inl hold
    · obtain ⟨i, hrole, hlog, hterm, h1, h2⟩ := mem_sends hnew
      exact Or.inr ⟨h1, h2, i, hlead.now i _ ⟨hrole, hterm.symm⟩, fun _ => hlog ▸ List.prefix_rfl⟩

/-- An event that keeps the log of its node. -/
theorem Coherent.act_of_log_eq (h : Coherent Led c.nodes calls) (hs : c.Sane)
    (hlead : Leadership Led c.nodes) {i : Id} {ev : Event Id}
    (hlog : ((c.nodes i).step ev).log = (c.nodes i).log) (hmono : ∀ j t, Led j t → Led' j t) :
    Coherent Led' (c.act i ev).nodes calls := by
  have hlogs : ∀ j, ((c.act i ev).nodes j).log = (c.nodes j).log :=
    forall_act (P := fun j n => n.log = (c.nodes j).log) (fun _ => rfl) hlog
  refine h.of_inPlay hmono ?_ ?_ (fun call hcall => Or.inl hcall)
  · rintro l (⟨j, rfl⟩ | hcall)
    · exact Or.inl ⟨j, (hlogs j).symm⟩
    · exact Or.inr hcall
  · intro j t hled hl
    exact ⟨hlead.leads_of_act hs hled hl, hlogs j ▸ List.prefix_rfl⟩

omit [DecidableEq Id] in
/-- No log in play has an entry of a leader's term in the place of its next
entry. -/
theorem Coherent.matching_append (h : Coherent Led nodes calls)
    (hlead : Leadership Led nodes) (huniq : ∀ i j t, Led i t → Led j t → i = j) {i : Id}
    {e : LogEntry} (hleads : (nodes i).Leads e.term) {l : List LogEntry}
    (hl : InPlay nodes calls l) : Matching LogEntry.term l ((nodes i).log ++ [e]) := by
  intro k x y hx hy hxy
  rcases getElem?_snoc hy with ⟨hk, hy'⟩ | ⟨rfl, rfl⟩
  · rw [h.matching l _ hl (Or.inl ⟨i, rfl⟩) k x y hx hy' hxy,
      List.take_append_of_le_length (by omega)]
  · exfalso
    -- the entry would be in the leader's log, which is too short for it
    obtain ⟨j, hled, hpre⟩ := h.created l hl _ x hx
    rw [hxy] at hled hpre
    obtain rfl : j = i := huniq j i _ hled (hlead.now i _ hleads)
    have hle := (hpre hleads).length_le
    have hlen := (List.getElem?_eq_some_iff.mp hx).1
    rw [List.length_take] at hle
    omega

/-- A leader's put appends its entry to its own log. -/
theorem log_act_put (hs : c.Sane) {i : Id} (hrole : (c.nodes i).state.currentRole = LEADER)
    (key value : String) : ((c.act i (.put key value)).nodes i).log
      = (c.nodes i).log ++ [⟨(c.nodes i).state.currentTerm, key, value⟩] := by
  rw [nodes_act_self, log_step (hs i)]
  exact if_pos hrole

theorem prefix_log_act_put (hs : c.Sane) {i : Id}
    (hrole : (c.nodes i).state.currentRole = LEADER) (key value : String) (j : Id) :
    (c.nodes j).log <+: ((c.act i (.put key value)).nodes j).log := by
  revert j
  apply forall_act (P := fun j n => (c.nodes j).log <+: n.log) (fun _ => List.prefix_rfl)
  rw [← nodes_act_self, log_act_put hs hrole]
  exact List.prefix_append _ _

/-- After a leader's put every log in play is an old one, or the new log of the
leader. -/
theorem inPlay_put (hs : c.Sane) {i : Id} (hrole : (c.nodes i).state.currentRole = LEADER)
    {key value : String} {l : List LogEntry}
    (hl : InPlay (c.act i (.put key value)).nodes calls l) : InPlay c.nodes calls l ∨
      l = (c.nodes i).log ++ [⟨(c.nodes i).state.currentTerm, key, value⟩] := by
  rcases hl with ⟨j, rfl⟩ | hcall
  · by_cases hj : j = i
    · subst hj
      exact Or.inr (log_act_put hs hrole key value)
    · rw [nodes_act_ne hj]
      exact Or.inl (Or.inl ⟨j, rfl⟩)
  · exact Or.inl (Or.inr hcall)

/-- The append of a leader. -/
theorem Coherent.put (h : Coherent Led c.nodes calls) (hs : c.Sane)
    (hlead : Leadership Led c.nodes) (hmono : ∀ j t, Led j t → Led' j t)
    (huniq : ∀ i j t, Led i t → Led j t → i = j) {i : Id} {key value : String}
    (hrole : (c.nodes i).state.currentRole = LEADER) :
    Coherent Led' (c.act i (.put key value)).nodes calls := by
  have hleads : (c.nodes i).Leads (c.nodes i).state.currentTerm := ⟨hrole, rfl⟩
  -- what held of a leader's log before still holds of the longer one
  have hkeep : ∀ {j t} {l : List LogEntry}, Led j t →
      ((c.nodes j).Leads t → l <+: (c.nodes j).log) →
      ((c.act i (.put key value)).nodes j).Leads t →
      l <+: ((c.act i (.put key value)).nodes j).log := by
    intro j t l hled hold hl'
    exact (hold (hlead.leads_of_act hs hled hl')).trans (prefix_log_act_put hs hrole key value j)
  constructor
  · intro l l' hl hl'
    rcases inPlay_put hs hrole hl with hold | rfl <;>
      rcases inPlay_put hs hrole hl' with hold' | rfl
    · exact h.matching l l' hold hold'
    · exact h.matching_append hlead huniq hleads hold
    · exact (h.matching_append hlead huniq hleads hold').symm
    · exact Matching.refl _ _
  · intro l hl k e he
    rcases inPlay_put hs hrole hl with hold | rfl
    · obtain ⟨j, hled, hold'⟩ := h.created l hold k e he
      exact ⟨j, hmono j _ hled, hkeep hled hold'⟩
    · rcases getElem?_snoc he with ⟨hk, he'⟩ | ⟨rfl, rfl⟩
      · obtain ⟨j, hled, hold'⟩ := h.created _ (Or.inl ⟨i, rfl⟩) k e he'
        rw [List.take_append_of_le_length (by omega)]
        exact ⟨j, hmono j _ hled, hkeep hled hold'⟩
      · refine ⟨i, hmono i _ (hlead.now i _ hleads), ?_⟩
        intro _
        rw [log_act_put hs hrole]
        exact List.take_prefix _ _
  · intro call hcall
    obtain ⟨h1, h2, j, hled, hold⟩ := h.built call hcall
    exact ⟨h1, h2, j, hmono j _ hled, hkeep hled hold⟩

/-- The log of a node after a message: its own, or the one the message was built
from. -/
theorem Coherent.log_deliver (h : Coherent Led c.nodes calls) (hs : c.Sane) {i : Id}
    {call : LeaderCall Id} (hcall : call ∈ calls) :
    ((c.nodes i).step (.appendEntries call.request)).log = (c.nodes i).log ∨
      ((c.nodes i).step (.appendEntries call.request)).log = call.leaderLog := by
  obtain ⟨h1, h2, -⟩ := h.built call hcall
  have hmatch := h.matching _ _ (Or.inl ⟨i, rfl⟩) (Or.inr ⟨call, hcall, rfl⟩)
  rw [log_step (hs i), logAfter]
  split_ifs with hacc
  · obtain ⟨-, hmis, -⟩ := (accepts_iff call.request).mp hacc
    rcases splice_of_accept hmatch (show 0 ≤ call.nextIdx - 1 by omega)
      (show call.nextIdx - 1 ≤ _ by omega) hmis with ⟨-, hsame⟩ | hnew
    · exact Or.inl hsame
    · exact Or.inr hnew
  · exact Or.inl rfl

/-- A leader accepts a message of its own term only, so one of its own, and that
has nothing new for it. -/
theorem Coherent.log_deliver_leader (h : Coherent Led c.nodes calls) (hs : c.Sane)
    (huniq : ∀ i j t, Led i t → Led j t → i = j) {i : Id} {t : ℤ} {call : LeaderCall Id}
    (hcall : call ∈ calls) (hled : Led i t) (hleads : (c.nodes i).Leads t)
    (hl : ((c.nodes i).step (.appendEntries call.request)).Leads t) :
    ((c.nodes i).step (.appendEntries call.request)).log = (c.nodes i).log := by
  rw [log_step (hs i), logAfter]
  split_ifs with hacc
  · obtain ⟨hge, -, -⟩ := (accepts_iff call.request).mp hacc
    have hrole := hl.1
    rw [state_step (hs i)] at hrole
    obtain ⟨hle, -⟩ := stateSeen_of_leader hrole
    have hterm : call.term = t := by
      have := hleads.2
      exact le_antisymm (this ▸ hle) (this ▸ hge)
    obtain ⟨h1, h2, g, hledg, hpre⟩ := h.built call hcall
    rw [hterm] at hledg hpre
    obtain rfl : g = i := huniq g i t hledg hled
    exact splice_drop_of_isPrefix (τ := LogEntry.term) (hpre hleads)
      (p := (call.nextIdx - 1).toNat) (by omega)
  · rfl

/-- A message reaches a node. -/
theorem Coherent.deliver (h : Coherent Led c.nodes calls) (hs : c.Sane)
    (hlead : Leadership Led c.nodes) (hmono : ∀ j t, Led j t → Led' j t)
    (huniq : ∀ i j t, Led i t → Led j t → i = j) {i : Id} {call : LeaderCall Id}
    (hcall : call ∈ calls) :
    Coherent Led' (c.act i (.appendEntries call.request)).nodes calls := by
  refine h.of_inPlay hmono ?_ ?_ (fun call hcall => Or.inl hcall)
  · rintro l (⟨j, rfl⟩ | hold)
    · by_cases hj : j = i
      · subst hj
        rw [nodes_act_self]
        rcases h.log_deliver hs (i := j) hcall with hsame | hnew
        · rw [hsame]
          exact Or.inl ⟨j, rfl⟩
        · rw [hnew]
          exact Or.inr ⟨call, hcall, rfl⟩
      · rw [nodes_act_ne hj]
        exact Or.inl ⟨j, rfl⟩
    · exact Or.inr hold
  · intro j t hled hl
    have hleads := hlead.leads_of_act hs hled hl
    refine ⟨hleads, ?_⟩
    by_cases hj : j = i
    · subst hj
      rw [nodes_act_self] at hl ⊢
      rw [h.log_deliver_leader hs huniq hcall hled hleads hl]
    · rw [nodes_act_ne hj]

/-! ## Whole runs -/

/-- The steps of the protocol: no restart, no call of `appendEntries` but a
delivery, and no election at the largest term. -/
def Protocol (c : Cluster Id) : Action Id → Prop
  | .event _ .restart => False
  | .event _ (.appendEntries _) => False
  | .event i .startElection => (c.nodes i).state.currentTerm < longMax
  | _ => True

instance (c : Cluster Id) : ∀ a : Action Id, Decidable (c.Protocol a)
  | .event _ .restart | .event _ (.appendEntries _) => inferInstanceAs (Decidable False)
  | .event _ .startElection => inferInstanceAs (Decidable (_ < longMax))
  | .event _ (.put _ _) | .event _ (.get _) | .event _ .becomeLeader | .event _ (.voteResponse _)
  | .event _ (.sendAppendEntries _) | .send _ _ _ | .deliver _ _ => inferInstanceAs (Decidable True)

/-- At most one node ever leads in a term. -/
def OneLeaderPerTerm (c : Cluster Id) (as : List (Action Id)) : Prop :=
  ∀ i j t, c.LedIn as i t → c.LedIn as j t → i = j

theorem oneLeaderPerTerm_iff {c : Cluster Id} {as : List (Action Id)} :
    c.OneLeaderPerTerm as ↔ ∀ p ∈ as.inits, ∀ q ∈ as.inits, ∀ i j,
      ((c.after p).nodes i).state.currentRole = LEADER →
      ((c.after q).nodes j).Leads ((c.after p).nodes i).state.currentTerm → i = j := by
  constructor
  · intro h p hp q hq i j hi hj
    exact h i j _ ⟨p, (List.mem_inits p as).mp hp, hi, rfl⟩ ⟨q, (List.mem_inits q as).mp hq, hj⟩
  · rintro h i j t ⟨p, hp, hi, rfl⟩ ⟨q, hq, hj⟩
    exact h p ((List.mem_inits p as).mpr hp) q ((List.mem_inits q as).mpr hq) i j hi hj

instance [Fintype Id] (c : Cluster Id) (as : List (Action Id)) :
    Decidable (c.OneLeaderPerTerm as) :=
  decidable_of_iff' _ oneLeaderPerTerm_iff

/-- All of the invariant, for the cluster reached by a run. -/
structure MatchInv (Led : Id → ℤ → Prop) (c : Cluster Id) : Prop where
  sane : c.Sane
  leadership : Leadership Led c.nodes
  coherent : ∃ calls, c.network = calls.map LeaderCall.request ∧ Coherent Led c.nodes calls

theorem matchInv_init (M : Members Id) :
    MatchInv ((init M).LedIn []) (init M) := by
  have hlog : ∀ i, ((init M).nodes i).log = [] := fun i => rfl
  refine ⟨sane_init M, ⟨fun i => le_rfl, ?_, ?_⟩, [], rfl, ⟨?_, ?_, ?_⟩⟩
  · intro i t hl
    exact ⟨[], List.prefix_rfl, hl⟩
  · rintro i t ⟨p, hp, hl⟩
    obtain rfl := List.prefix_nil.mp hp
    exact Or.inr hl
  · rintro l l' (⟨i, rfl⟩ | ⟨call, hcall, -⟩) -
    · rw [hlog]
      intro k x y hx
      cases hx
    · cases hcall
  · rintro l (⟨i, rfl⟩ | ⟨call, hcall, -⟩) k e he
    · rw [hlog] at he
      cases he
    · cases hcall
  · intro call hcall
    cases hcall

/-- An event of a node that is a step of the protocol. -/
theorem MatchInv.event (h : MatchInv Led c) {i : Id} {ev : Event Id}
    (hp : c.Protocol (.event i ev)) (huniq : ∀ i j t, Led i t → Led j t → i = j)
    (hLed : ∀ j t, Led' j t ↔ Led j t ∨ ((c.act i ev).nodes j).Leads t) :
    MatchInv Led' (c.act i ev) := by
  obtain ⟨calls, hnet, hcoh⟩ := h.coherent
  have hmono : ∀ j t, Led j t → Led' j t := fun j t hl => (hLed j t).mpr (Or.inl hl)
  have hk : (c.nodes i).KeepsTerm ev ∧ ev ≠ .restart := by
    cases ev with
    | restart => exact absurd hp id
    | startElection => exact ⟨hp, by simp⟩
    | put key value => exact ⟨trivial, by simp⟩
    | get key => exact ⟨trivial, by simp⟩
    | becomeLeader => exact ⟨trivial, by simp⟩
    | voteResponse response => exact ⟨trivial, by simp⟩
    | sendAppendEntries f => exact ⟨trivial, by simp⟩
    | appendEntries req => exact absurd hp id
  refine ⟨h.sane.act i ev, h.leadership.act h.sane hk.1 hk.2 hLed, calls, hnet, ?_⟩
  -- the put of a leader is the only event here that changes a log
  have hquiet : (c.nodes i).logAfter ev = (c.nodes i).log →
      Coherent Led' (c.act i ev).nodes calls := by
    intro hlog
    refine hcoh.act_of_log_eq h.sane h.leadership ?_ hmono
    rw [log_step (h.sane i), hlog]
  cases ev with
  | put key value =>
      by_cases hrole : (c.nodes i).state.currentRole = LEADER
      · exact hcoh.put h.sane h.leadership hmono huniq hrole
      · exact hquiet (if_neg hrole)
  | appendEntries req => exact absurd hp id
  | get key => exact hquiet rfl
  | startElection => exact hquiet rfl
  | becomeLeader => exact hquiet rfl
  | voteResponse response => exact hquiet rfl
  | sendAppendEntries f => exact hquiet rfl
  | restart => exact hquiet rfl

/-- **One step keeps the invariant.** -/
theorem MatchInv.step (h : MatchInv Led c) {a : Action Id} (hp : c.Protocol a)
    (huniq : ∀ i j t, Led i t → Led j t → i = j)
    (hLed : ∀ j t, Led' j t ↔ Led j t ∨ ((c.step a).nodes j).Leads t) :
    MatchInv Led' (c.step a) := by
  -- a step that changes no node leaves the known leaders as they are
  have hsame : (c.step a).nodes = c.nodes → Led' = Led := by
    intro hnodes
    funext j t
    apply propext
    rw [hLed, hnodes]
    constructor
    · rintro (hl | hl)
      · exact hl
      · exact h.leadership.now j t hl
    · exact Or.inl
  obtain ⟨calls, hnet, hcoh⟩ := h.coherent
  cases a with
  | event i ev => exact h.event hp huniq hLed
  | send i nextIdx follower =>
      have hnodes : (c.step (.send i nextIdx follower)).nodes = c.nodes :=
        nodes_of_no_effect rfl
      rw [hsame hnodes]
      refine ⟨h.sane.step _, ?_, calls ++ c.sends (.send i nextIdx follower), ?_, ?_⟩
      · rw [hnodes]
        exact h.leadership
      · rw [network_step h.sane, hnet, List.map_append]
      · rw [hnodes]
        exact hcoh.send h.leadership _
  | deliver i k =>
      have hstep : c.step (.deliver i k) = c.deliver i k := rfl
      rw [hstep] at hLed hsame ⊢
      rcases deliver_cases hnet i k with hc | ⟨call, hcall, hc⟩
      · rw [hc] at hsame ⊢
        rw [hsame rfl]
        exact h
      · rw [hc] at hLed ⊢
        have hmono : ∀ j t, Led j t → Led' j t := fun j t hl => (hLed j t).mpr (Or.inl hl)
        exact ⟨h.sane.act _ _, h.leadership.act h.sane trivial (by simp) hLed, calls, hnet,
          hcoh.deliver h.sane h.leadership hmono huniq hcall⟩

/-- **A whole run keeps the invariant.** -/
theorem matchInv_after (M : Members Id) {as : List (Action Id)}
    (hp : Run.Along Cluster.step Protocol (init M) as) (huniq : OneLeaderPerTerm (init M) as) :
    MatchInv ((init M).LedIn as) ((init M).after as) := by
  refine Run.run_induction (P := fun p => MatchInv ((init M).LedIn p) ((init M).after p))
    (matchInv_init M) ?_
  intro p a hpa h
  have hp' := Run.along_iff.mp hp p a hpa
  rw [after_snoc]
  refine h.step hp' ?_ ?_
  · rintro i j t ⟨q, hq, hl⟩ ⟨q', hq', hl'⟩
    have hpas : p <+: as := (List.prefix_append p [a]).trans hpa
    exact huniq i j t ⟨q, hq.trans hpas, hl⟩ ⟨q', hq'.trans hpas, hl'⟩
  · intro j t
    rw [ledIn_snoc, after_snoc]

/-- **Log matching.**  In every run of the protocol in which at most one node ever
leads in a term, two logs with entries of the same term at the same index are
equal up to that index. -/
theorem log_matching (M : Members Id) (as : List (Action Id))
    (hp : Run.Along Cluster.step Protocol (init M) as) (huniq : OneLeaderPerTerm (init M) as)
    (i j : Id) (k : ℕ) (x y : LogEntry)
    (hx : (((init M).after as).nodes i).log[k]? = some x)
    (hy : (((init M).after as).nodes j).log[k]? = some y) (hxy : x.term = y.term) :
    ∀ m ≤ k, (((init M).after as).nodes i).log[m]? = (((init M).after as).nodes j).log[m]? := by
  obtain ⟨calls, -, hcoh⟩ := (matchInv_after M hp huniq).coherent
  have htake := hcoh.matching _ _ (Or.inl ⟨i, rfl⟩) (Or.inl ⟨j, rfl⟩) k x y hx hy hxy
  intro m hm
  rw [← List.getElem?_take_of_lt (Nat.lt_succ_of_le hm), htake,
    List.getElem?_take_of_lt (Nat.lt_succ_of_le hm)]

/-- The theorem at a run in which node `1` takes the entries of a first leader,
loses them to a second one, and receives the first message again. -/
theorem log_matching_run :
    let as : List (Action (Fin 3)) := [.event 0 .startElection, .event 0 .becomeLeader,
      .event 0 (.put "a" "1"), .send 0 1 1, .deliver 1 0, .event 2 .startElection,
      .event 2 .startElection, .event 2 .becomeLeader, .event 2 (.put "b" "2"),
      .event 2 (.put "c" "3"), .send 2 1 1, .deliver 1 1, .deliver 1 0]
    (((init (Members.ofFin 2)).after as).nodes 1).log[1]? = some ⟨2, "c", "3"⟩ ∧
      (((init (Members.ofFin 2)).after as).nodes 1).log[0]?
        = (((init (Members.ofFin 2)).after as).nodes 2).log[0]? := by
  intro as
  have hp : Run.Along Cluster.step Protocol (init (Members.ofFin 2)) as := by decide +kernel
  have huniq : OneLeaderPerTerm (init (Members.ofFin 2)) as := by decide +kernel
  have hx : (((init (Members.ofFin 2)).after as).nodes 1).log[1]? = some ⟨2, "c", "3"⟩ := by
    decide +kernel
  have hy : (((init (Members.ofFin 2)).after as).nodes 2).log[1]? = some ⟨2, "c", "3"⟩ := by
    decide +kernel
  exact ⟨hx, log_matching (Members.ofFin 2) as hp huniq 1 2 1 _ _ hx hy rfl 0 (Nat.zero_le 1)⟩

end Cluster

end KVStore
