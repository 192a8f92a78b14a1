/-
# Crediting acknowledgements to followers

A leader on which proposals and sends interleave.  A send is cut where another
thread can come in between: its message is built, delivered and answered, and its
answer is recorded.  The message covers the log as it was when it was built; the
record credits the follower with the log as it is when the answer is recorded.

The credit is right in every state of a run exactly when at each recorded `true`
the entries appended in between were carried by another message to the same
follower that was answered `true` (`credited_iff`).
-/
import KVStore.Events

namespace KVStore

open Role Exec RaftNode

variable {Id : Type}

/-! ## The bookkeeping of one send -/

namespace RaftNode

variable [DecidableEq Id] {n : RaftNode Id}

/-- The index up to which a follower is recorded, `0` where there is none. -/
def matchIdx (n : RaftNode Id) (f : Id) : ℤ := (n.matchIndex.lookup f).getD 0

/-- A recorded `true` puts the follower's `matchIndex` at the end of the log. -/
theorem matchIdx_recorded (f g : Id) :
    (n.recorded f).matchIdx g = if g = f then (n.log.length : ℤ) else n.matchIdx g := by
  unfold matchIdx recorded
  by_cases hg : g = f
  · subst hg
    simp
  · simp [hg, AList.lookup_insert_ne hg]

/-- It puts the follower's `nextIndex` one past it. -/
theorem nextIdx_recorded (f g : Id) :
    (n.recorded f).nextIdx g = if g = f then (n.log.length : ℤ) + 1 else n.nextIdx g :=
  nextIdx_insert f _ g

/-- Recording an answer keeps the node sane. -/
theorem Sane.recorded (h : n.Sane) (f : Id) : (n.recorded f).Sane where
  healthy := h.healthy
  lastApplied_nonneg := h.lastApplied_nonneg
  commitIndex_nonneg := h.commitIndex_nonneg
  nextIdx_pos := fun g => by
    rw [nextIdx_recorded]
    split_ifs
    · omega
    · exact h.nextIdx_pos g

end RaftNode

/-! ## Sends in progress -/

/-- How far a send has got. -/
inductive Stage : Type where
  | built
  | answered (success : Bool)
  | recorded (success : Bool)
  deriving DecidableEq, Repr

/-- The message was answered `true`. -/
def Stage.acknowledged : Stage → Bool
  | built => false
  | answered success | recorded success => success

/-- A send: its follower, its message and how far it has got. -/
structure Send (Id : Type) where
  follower : Id
  request : AppendEntriesRequest Id
  stage : Stage

/-- A leader and its sends in progress. -/
structure Leader (Id : Type) where
  node : RaftNode Id
  sends : List (Send Id)

/-- What can happen on a leader.  `deliver` is the call of the source, on the node
itself; `answer` is the answer of a node at the other end. -/
inductive LeaderStep (Id : Type) : Type where
  | append (key value : String)
  | build (follower : Id)
  | deliver (k : ℕ)
  | answer (k : ℕ) (success : Bool)
  | record (k : ℕ)
  | updateCommitIndex

namespace Leader

variable [DecidableEq Id]

/-- Become leader: no send is in progress. -/
def init (n : RaftNode Id) : Leader Id := ⟨Exec.finalState becomeLeader n, []⟩

def step (s : Leader Id) : LeaderStep Id → Leader Id
  | .append key value =>
      -- `proposeEntry` up to `replicateEntry`
      if s.node.state.currentRole = LEADER then
        { s with node := Exec.finalState (onStorage (SQLiteStorage.appendLogEntry
            ⟨s.node.state.currentTerm, key, value⟩)) s.node }
      else s
  | .build f =>
      -- sends go to peers only
      if f ∈ s.node.peers then
        match (buildAppendEntries f).run s.node with
        | .ok req n => ⟨n, s.sends ++ [⟨f, req, .built⟩]⟩
        | .error _ n => { s with node := n }
      else s
  | .deliver k =>
      match s.sends[k]? with
      | some ⟨f, req, .built⟩ =>
          match (appendEntries req).run s.node with
          | .ok b n => ⟨n, s.sends.set k ⟨f, req, .answered b⟩⟩
          | .error _ n => { s with node := n }
      | _ => s
  | .answer k b =>
      match s.sends[k]? with
      | some ⟨f, req, .built⟩ => { s with sends := s.sends.set k ⟨f, req, .answered b⟩ }
      | _ => s
  | .record k =>
      match s.sends[k]? with
      | some ⟨f, req, .answered b⟩ =>
          ⟨Exec.finalState (recordAppendEntries f b) s.node, s.sends.set k ⟨f, req, .recorded b⟩⟩
      | _ => s
  | .updateCommitIndex => { s with node := Exec.finalState RaftNode.updateCommitIndex s.node }

/-- A new leader, after a run. -/
def after (n : RaftNode Id) (as : List (LeaderStep Id)) : Leader Id := Run.run step (init n) as

/-! ## What is acknowledged -/

/-- What a send is worth to `f`. -/
def worth (f : Id) (d : Send Id) : ℤ :=
  if d.follower = f ∧ d.stage.acknowledged = true then d.request.covers else 0

/-- The greatest index a message to `f` that was answered `true` covers, `0` if there
is none. -/
def acknowledged (s : Leader Id) (f : Id) : ℤ := (s.sends.map (worth f)).foldr max 0

/-- The record for `f` stays within what is acknowledged; `N` is the `nextIndex` the
leader started with. -/
def Credited (N : ℤ) (f : Id) (s : Leader Id) : Prop :=
  s.node.matchIdx f ≤ s.acknowledged f ∧ s.node.nextIdx f ≤ max N (s.acknowledged f + 1)

instance (N : ℤ) (f : Id) (s : Leader Id) : Decidable (s.Credited N f) :=
  inferInstanceAs (Decidable (_ ∧ _))

/-- When the answer `true` of a send is recorded, no entry was appended since its
message was built, or another message to the follower that was answered `true`
carries all of them. -/
def CoveredAt (s : Leader Id) : Option (Send Id) → Prop
  | some ⟨f, req, .answered true⟩ =>
      (s.node.log.length : ℤ) ≤ req.covers ∨
        ∃ d ∈ s.sends, d.follower = f ∧ d.stage.acknowledged = true ∧
          (s.node.log.length : ℤ) ≤ d.request.covers
  | _ => True

instance (s : Leader Id) : ∀ d, Decidable (s.CoveredAt d)
  | some ⟨_, _, .answered true⟩ => inferInstanceAs (Decidable (_ ∨ _))
  | some ⟨_, _, .answered false⟩ => inferInstanceAs (Decidable True)
  | some ⟨_, _, .built⟩ => inferInstanceAs (Decidable True)
  | some ⟨_, _, .recorded _⟩ => inferInstanceAs (Decidable True)
  | none => inferInstanceAs (Decidable True)

def Covered (s : Leader Id) : LeaderStep Id → Prop
  | .record k => s.CoveredAt s.sends[k]?
  | _ => True

instance (s : Leader Id) : ∀ a, Decidable (s.Covered a)
  | .record k => inferInstanceAs (Decidable (s.CoveredAt s.sends[k]?))
  | .append _ _ => inferInstanceAs (Decidable True)
  | .build _ => inferInstanceAs (Decidable True)
  | .deliver _ => inferInstanceAs (Decidable True)
  | .answer _ _ => inferInstanceAs (Decidable True)
  | .updateCommitIndex => inferInstanceAs (Decidable True)

/-! ## What a step can do -/

variable {n : RaftNode Id} {s : Leader Id} {f : Id}

/-- The bookkeeping of the sends stays as it is. -/
structure SameBooks (n n' : RaftNode Id) : Prop where
  nextIndex_eq : n'.nextIndex = n.nextIndex
  matchIndex_eq : n'.matchIndex = n.matchIndex
  peers_eq : n'.peers = n.peers
  sane : n'.Sane

/-- Nothing happened. -/
theorem SameBooks.refl (h : n.Sane) : SameBooks n n := ⟨rfl, rfl, rfl, h⟩

/-- The commit rule leaves the bookkeeping alone. -/
theorem sameBooks_commitUpdated (h : n.Sane) : SameBooks n n.commitUpdated := by
  obtain ⟨-, -, -, hpeers, hnext, hmatch⟩ := (commitOnly_commitUpdated n).fields_eq
  exact ⟨hnext, hmatch, hpeers, h.commitUpdated⟩

/-- So does a call of `appendEntries`. -/
theorem sameBooks_appendEntries (h : n.Sane) (req : AppendEntriesRequest Id) :
    SameBooks n (Exec.finalState (appendEntries req) n) := by
  refine ⟨?_, ?_, ?_, h.appendEntries req⟩
  all_goals
    rw [finalState_appendEntries h]
    split_ifs
  · exact nextIndex_merged req
  · rfl
  · rfl
  · exact matchIndex_merged req
  · rfl
  · rfl
  · exact peers_merged req
  · rfl
  · rfl

/-- Sends go on: what is acknowledged stays so, and every send was there before or
is a new one to a peer. -/
structure Grows (peers : List Id) (l l' : List (Send Id)) : Prop where
  keeps : ∀ d ∈ l, d.stage.acknowledged = true → ∃ d' ∈ l', d'.follower = d.follower ∧
    d'.request = d.request ∧ d'.stage.acknowledged = true
  sound : ∀ d' ∈ l', (∃ d ∈ l, d'.follower = d.follower ∧ d'.request = d.request) ∨
    (d'.follower ∈ peers ∧ 0 ≤ d'.request.covers)

omit [DecidableEq Id] in
/-- Nothing was sent. -/
theorem Grows.refl (peers : List Id) (l : List (Send Id)) : Grows peers l l :=
  ⟨fun d hd hack => ⟨d, hd, rfl, rfl, hack⟩, fun d hd => Or.inl ⟨d, hd, rfl, rfl⟩⟩

omit [DecidableEq Id] in
/-- A message to a peer is built. -/
theorem grows_append {peers : List Id} (l : List (Send Id)) {req : AppendEntriesRequest Id}
    (hf : f ∈ peers) (hcovers : 0 ≤ req.covers) : Grows peers l (l ++ [⟨f, req, .built⟩]) := by
  constructor
  · intro d hd hack
    exact ⟨d, List.mem_append_left _ hd, rfl, rfl, hack⟩
  · intro d hd
    rcases List.mem_append.mp hd with hd | hd
    · exact Or.inl ⟨d, hd, rfl, rfl⟩
    · rw [List.mem_singleton.mp hd]
      exact Or.inr ⟨hf, hcovers⟩

omit [DecidableEq Id] in
/-- One send moves on. -/
theorem grows_set (peers : List Id) {l : List (Send Id)} {k : ℕ} {req : AppendEntriesRequest Id}
    {st st' : Stage} (hk : l[k]? = some ⟨f, req, st⟩)
    (hst : st.acknowledged = true → st'.acknowledged = true) :
    Grows peers l (l.set k ⟨f, req, st'⟩) := by
  have hlt : k < l.length := (List.getElem?_eq_some_iff.mp hk).1
  constructor
  · intro d hd hack
    obtain ⟨i, hi⟩ := List.mem_iff_getElem?.mp hd
    by_cases hik : k = i
    · subst hik
      rw [hk] at hi
      cases hi
      exact ⟨_, List.mem_set hlt _, rfl, rfl, hst hack⟩
    · refine ⟨d, List.mem_iff_getElem?.mpr ⟨i, ?_⟩, rfl, rfl, hack⟩
      rw [List.getElem?_set_ne hik]
      exact hi
  · intro d hd
    rcases List.mem_or_eq_of_mem_set hd with hd | rfl
    · exact Or.inl ⟨d, hd, rfl, rfl⟩
    · exact Or.inl ⟨_, List.mem_of_getElem? hk, rfl, rfl⟩

/-- A step that records nothing. -/
structure Quiet (s s' : Leader Id) : Prop where
  books : SameBooks s.node s'.node
  sends : Grows s.node.peers s.sends s'.sends

/-- A step that changes nothing is quiet. -/
theorem Quiet.refl (h : s.node.Sane) : Quiet s s := ⟨SameBooks.refl h, Grows.refl _ _⟩

/-- A proposal's append is quiet. -/
theorem quiet_append (h : s.node.Sane) (key value : String) :
    Quiet s (s.step (.append key value)) := by
  rw [step]
  split_ifs
  · refine ⟨?_, Grows.refl _ _⟩
    have hrun := run_onStorage (n := s.node) (SQLiteStorage.run_appendLogEntry h.healthy
      ⟨s.node.state.currentTerm, key, value⟩)
    show SameBooks s.node (Exec.finalState _ s.node)
    rw [Exec.finalState_ok hrun]
    exact ⟨rfl, rfl, rfl, h.appended key value⟩
  · exact Quiet.refl h

/-- Building a message is quiet: it enters the sends and nothing else. -/
theorem quiet_build (h : s.node.Sane) (f : Id) : Quiet s (s.step (.build f)) := by
  rw [step, run_buildAppendEntries]
  split_ifs with hf
  · by_cases hle : s.node.nextIdx f ≤ s.node.log.length + 1
    · rw [run_appendEntriesFrom h.healthy hle]
      refine ⟨SameBooks.refl h, grows_append _ hf ?_⟩
      have hpos := h.nextIdx_pos f
      show 0 ≤ s.node.nextIdx f - 1 + _
      omega
    · rw [run_appendEntriesFrom_error h.healthy (not_le.mp hle)]
      exact Quiet.refl h
  · exact Quiet.refl h

/-- Delivering a message to the node itself is quiet. -/
theorem quiet_deliver (h : s.node.Sane) (k : ℕ) : Quiet s (s.step (.deliver k)) := by
  rw [step]
  split
  · next f req hk =>
      have hbooks := sameBooks_appendEntries h req
      rcases hrun : (appendEntries req).run s.node with ⟨b, n'⟩ | ⟨e, n'⟩
      · rw [Exec.finalState_ok hrun] at hbooks
        exact ⟨hbooks, grows_set _ hk (by simp [Stage.acknowledged])⟩
      · rw [Exec.finalState_error hrun] at hbooks
        exact ⟨hbooks, Grows.refl _ _⟩
  · exact Quiet.refl h

/-- An answer is quiet until it is recorded. -/
theorem quiet_answer (h : s.node.Sane) (k : ℕ) (b : Bool) : Quiet s (s.step (.answer k b)) := by
  rw [step]
  split
  · next f req hk =>
      exact ⟨SameBooks.refl h, grows_set _ hk (by simp [Stage.acknowledged])⟩
  · exact Quiet.refl h

/-- The commit rule is quiet. -/
theorem quiet_updateCommitIndex (h : s.node.Sane) : Quiet s (s.step .updateCommitIndex) := by
  refine ⟨?_, Grows.refl _ _⟩
  show SameBooks s.node (Exec.finalState RaftNode.updateCommitIndex s.node)
  rw [Exec.finalState_ok (run_updateCommitIndex h.healthy h.lastApplied_nonneg
    h.commitIndex_nonneg)]
  exact sameBooks_commitUpdated h

/-- **What a step can do**: record an answer, or leave the bookkeeping alone. -/
theorem step_cases (h : s.node.Sane) (a : LeaderStep Id) :
    (Quiet s (s.step a) ∧ s.Covered a) ∨
      ∃ k f req b, a = .record k ∧ s.sends[k]? = some ⟨f, req, .answered b⟩ ∧
        s.step a = ⟨Exec.finalState (recordAppendEntries f b) s.node,
          s.sends.set k ⟨f, req, .recorded b⟩⟩ := by
  cases a with
  | append key value => exact Or.inl ⟨quiet_append h key value, trivial⟩
  | build f => exact Or.inl ⟨quiet_build h f, trivial⟩
  | deliver k => exact Or.inl ⟨quiet_deliver h k, trivial⟩
  | answer k b => exact Or.inl ⟨quiet_answer h k b, trivial⟩
  | record k =>
      rw [step, Covered]
      split
      · next f req b hk => exact Or.inr ⟨k, f, req, b, rfl, hk, rfl⟩
      · next hnone =>
          refine Or.inl ⟨Quiet.refl h, ?_⟩
          unfold CoveredAt
          split
          · next f req hk => exact absurd hk (hnone f req true)
          · trivial
  | updateCommitIndex => exact Or.inl ⟨quiet_updateCommitIndex h, trivial⟩

/-! ## What is acknowledged stays so -/

/-- Reaching the greatest of a list is reaching one of its elements. -/
theorem le_foldr_max {x : ℤ} {l : List ℤ} : x ≤ l.foldr max 0 ↔ x ≤ 0 ∨ ∃ c ∈ l, x ≤ c := by
  induction l with
  | nil => simp
  | cons c l ih =>
      rw [List.foldr_cons, le_max_iff, ih]
      constructor
      · rintro (hc | h0 | ⟨d, hd, hle⟩)
        · exact Or.inr ⟨c, List.mem_cons_self, hc⟩
        · exact Or.inl h0
        · exact Or.inr ⟨d, List.mem_cons_of_mem _ hd, hle⟩
      · rintro (h0 | ⟨d, hd, hle⟩)
        · exact Or.inr (Or.inl h0)
        · rcases List.mem_cons.mp hd with rfl | hd
          · exact Or.inl hle
          · exact Or.inr (Or.inr ⟨d, hd, hle⟩)

/-- What is acknowledged, read off the messages answered `true`. -/
theorem le_acknowledged_iff {x : ℤ} : x ≤ s.acknowledged f ↔ x ≤ 0 ∨
    ∃ d ∈ s.sends, d.follower = f ∧ d.stage.acknowledged = true ∧ x ≤ d.request.covers := by
  rw [acknowledged, le_foldr_max]
  constructor
  · rintro (h0 | ⟨c, hc, hle⟩)
    · exact Or.inl h0
    · obtain ⟨d, hd, rfl⟩ := List.mem_map.mp hc
      unfold worth at hle
      split_ifs at hle with hack
      · exact Or.inr ⟨d, hd, hack.1, hack.2, hle⟩
      · exact Or.inl hle
  · rintro (h0 | ⟨d, hd, hf, hack, hle⟩)
    · exact Or.inl h0
    · refine Or.inr ⟨worth f d, List.mem_map.mpr ⟨d, hd, rfl⟩, ?_⟩
      rwa [worth, if_pos ⟨hf, hack⟩]

/-- No step takes an acknowledgement back. -/
theorem acknowledged_le_of_grows {s' : Leader Id} {peers : List Id}
    (h : Grows peers s.sends s'.sends) : s.acknowledged f ≤ s'.acknowledged f := by
  rw [le_acknowledged_iff]
  rcases le_acknowledged_iff.mp (le_refl (s.acknowledged f)) with h0 | ⟨d, hd, hf, hack, hle⟩
  · exact Or.inl h0
  · obtain ⟨d', hd', hf', hreq, hack'⟩ := h.keeps d hd hack
    exact Or.inr ⟨d', hd', hf'.trans hf, hack', hreq ▸ hle⟩

/-! ## The credit of a follower -/

/-- What every state of a run satisfies. -/
structure Inv (peers : List Id) (s : Leader Id) : Prop where
  sane : s.node.Sane
  peers_eq : s.node.peers = peers
  sends : ∀ d ∈ s.sends, d.follower ∈ peers ∧ 0 ≤ d.request.covers

omit [DecidableEq Id] in
/-- Every message is to a peer and covers an index from `0` on. -/
theorem sends_of_grows {peers : List Id} {l l' : List (Send Id)} (h : Grows peers l l')
    (hl : ∀ d ∈ l, d.follower ∈ peers ∧ 0 ≤ d.request.covers) :
    ∀ d ∈ l', d.follower ∈ peers ∧ 0 ≤ d.request.covers := by
  intro d' hd'
  rcases h.sound d' hd' with ⟨d, hd, hf, hreq⟩ | hnew
  · rw [hf, hreq]
    exact hl d hd
  · exact hnew

/-- The node after an answer is recorded. -/
theorem finalState_record (h : n.Sane) (f : Id) (b : Bool) :
    Exec.finalState (recordAppendEntries f b) n =
      if b then (n.recorded f).commitUpdated
      else { n with nextIndex := n.nextIndex.insert f (max 1 (n.nextIdx f - 1)) } := by
  cases b with
  | true => exact Exec.finalState_ok (run_recordAppendEntries h.healthy h.lastApplied_nonneg
      h.commitIndex_nonneg f)
  | false => rfl

/-- Recording an answer changes the entry of its follower only. -/
theorem books_record (h : n.Sane) (f : Id) (b : Bool) :
    let n' := Exec.finalState (recordAppendEntries f b) n
    n'.Sane ∧ n'.peers = n.peers ∧
      (∀ g, n'.matchIdx g = if g = f ∧ b = true then (n.log.length : ℤ) else n.matchIdx g) ∧
      ∀ g, n'.nextIdx g = if g = f then (if b then (n.log.length : ℤ) + 1
        else max 1 (n.nextIdx f - 1)) else n.nextIdx g := by
  intro n'
  have hn' : n' = _ := finalState_record h f b
  cases b with
  | true =>
      rw [if_pos rfl] at hn'
      have hbooks := sameBooks_commitUpdated (h.recorded f)
      rw [hn']
      refine ⟨hbooks.sane, hbooks.peers_eq, fun g => ?_, fun g => ?_⟩
      · rw [matchIdx, hbooks.matchIndex_eq, ← matchIdx, matchIdx_recorded]
        simp
      · rw [nextIdx, hbooks.nextIndex_eq, ← nextIdx, nextIdx_recorded]
        simp
  | false =>
      rw [if_neg (by simp)] at hn'
      rw [hn']
      refine ⟨⟨h.healthy, h.lastApplied_nonneg, h.commitIndex_nonneg, fun g => ?_⟩, rfl,
        fun g => ?_, fun g => ?_⟩
      · rw [nextIdx_insert]
        split_ifs
        · exact le_max_left _ _
        · exact h.nextIdx_pos g
      · simp only [Bool.false_eq_true, and_false, if_false]
        rfl
      · rw [nextIdx_insert]
        simp

/-- Every step keeps the invariant. -/
theorem Inv.step {peers : List Id} (h : Inv peers s) (a : LeaderStep Id) :
    Inv peers (s.step a) := by
  rcases step_cases h.sane a with ⟨hquiet, -⟩ | ⟨k, f, req, b, rfl, hk, hstep⟩
  · exact ⟨hquiet.books.sane, hquiet.books.peers_eq.trans h.peers_eq,
      sends_of_grows (h.peers_eq ▸ hquiet.sends) h.sends⟩
  · obtain ⟨hsane, hpeers, -⟩ := books_record h.sane f b
    rw [hstep]
    exact ⟨hsane, hpeers.trans h.peers_eq,
      sends_of_grows (grows_set _ hk (by simp [Stage.acknowledged])) h.sends⟩

/-- **A covered step keeps the credit right.** -/
theorem Credited.step {peers : List Id} {N : ℤ} (hN : 1 ≤ N) (h : Inv peers s)
    (hcred : s.Credited N f) {a : LeaderStep Id} (hcov : s.Covered a) :
    (s.step a).Credited N f := by
  obtain ⟨hmatch, hnext⟩ := hcred
  rcases step_cases h.sane a with ⟨hquiet, -⟩ | ⟨k, g, req, b, rfl, hk, hstep⟩
  · have hle : s.acknowledged f ≤ (s.step a).acknowledged f :=
      acknowledged_le_of_grows hquiet.sends
    refine ⟨?_, ?_⟩
    · rw [matchIdx, hquiet.books.matchIndex_eq, ← matchIdx]
      exact hmatch.trans hle
    · rw [nextIdx, hquiet.books.nextIndex_eq, ← nextIdx]
      omega
  · have hgrows : Grows peers s.sends (s.step (.record k)).sends := by
      rw [hstep]
      exact grows_set _ hk (by simp [Stage.acknowledged])
    have hle : s.acknowledged f ≤ (s.step (.record k)).acknowledged f :=
      acknowledged_le_of_grows hgrows
    obtain ⟨-, -, hmatch', hnext'⟩ := books_record h.sane g b
    have hnode : (s.step (.record k)).node
        = Exec.finalState (recordAppendEntries g b) s.node := by rw [hstep]
    -- the whole log is acknowledged by the follower whose `true` is recorded
    have hlen : b = true → (s.node.log.length : ℤ) ≤ s.acknowledged g := by
      rintro rfl
      simp only [Covered, hk, CoveredAt] at hcov
      rw [le_acknowledged_iff]
      rcases hcov with hown | ⟨d, hd, hdg, hack, hcovers⟩
      · exact Or.inr ⟨_, List.mem_of_getElem? hk, rfl, rfl, hown⟩
      · exact Or.inr ⟨d, hd, hdg, hack, hcovers⟩
    unfold Credited
    rw [hnode, hmatch', hnext']
    by_cases hfg : f = g
    · subst hfg
      cases b with
      | true =>
          have := hlen rfl
          simp only [true_and, if_true]
          omega
      | false =>
          simp only [Bool.false_eq_true, and_false, if_false, if_true]
          omega
    · simp only [hfg, false_and, if_false]
      omega

/-- **An uncovered step breaks the credit.** -/
theorem covered_of_credited {peers : List Id} (h : Inv peers s) {N : Id → ℤ} {a : LeaderStep Id}
    (hcred : ∀ f ∈ peers, (s.step a).Credited (N f) f) : s.Covered a := by
  rcases step_cases h.sane a with ⟨-, hcov⟩ | ⟨k, f, req, b, rfl, hk, hstep⟩
  · exact hcov
  · cases b with
    | false => simp only [Covered, hk, CoveredAt]
    | true =>
        obtain ⟨hf, hcovers⟩ := h.sends _ (List.mem_of_getElem? hk)
        obtain ⟨hmatch, -⟩ := hcred f hf
        obtain ⟨-, -, hmatch', -⟩ := books_record h.sane f true
        rw [hstep] at hmatch
        simp only [hmatch', and_self, if_true] at hmatch
        simp only [Covered, hk, CoveredAt]
        rcases le_acknowledged_iff.mp hmatch with h0 | ⟨d, hd, hdf, hack, hle⟩
        · left
          exact h0.trans hcovers
        · -- the other message was there before, or is the one that is recorded
          rcases List.mem_or_eq_of_mem_set hd with hd | rfl
          · exact Or.inr ⟨d, hd, hdf, hack, hle⟩
          · exact Or.inl hle

/-- The invariant holds of a new leader. -/
theorem inv_init (h : n.Sane) : Inv n.peers (init n) := by
  have hinit : Exec.finalState becomeLeader n = n.elected :=
    Exec.finalState_ok (run_becomeLeader h.healthy)
  refine ⟨?_, ?_, by simp [init]⟩
  · show (Exec.finalState becomeLeader n).Sane
    rw [hinit]
    exact h.elected
  · show (Exec.finalState becomeLeader n).peers = n.peers
    rw [hinit, peers_elected]

/-- A new leader credits its peers with nothing. -/
theorem credited_init (h : n.Sane) (hf : f ∈ n.peers) :
    (init n).Credited ((init n).node.nextIdx f) f := by
  have hinit : Exec.finalState becomeLeader n = n.elected :=
    Exec.finalState_ok (run_becomeLeader h.healthy)
  refine ⟨?_, le_max_left _ _⟩
  show (Exec.finalState becomeLeader n).matchIdx f ≤ 0
  rw [hinit, matchIdx, matchIndex_elected hf]
  exact le_rfl

/-- **Acknowledgements are credited exactly in the runs in which** at each recorded
`true` every entry appended since the message was built was carried by another
message to that follower that was answered `true`. -/
theorem credited_iff (n : RaftNode Id) (h : n.Sane) (as : List (LeaderStep Id)) :
    (∀ p, p <+: as → ∀ f ∈ n.peers, (after n p).Credited ((init n).node.nextIdx f) f) ↔
      Run.Along step Covered (init n) as := by
  have hinv : ∀ p, Inv n.peers (after n p) := fun p =>
    Run.run_invariant (P := Inv n.peers) (fun s a hs => hs.step a) (inv_init h) p
  constructor
  · intro hall
    rw [Run.along_iff]
    intro p a hp
    apply covered_of_credited (hinv p) (N := fun f => (init n).node.nextIdx f)
    intro f hf
    have hcred := hall (p ++ [a]) hp f hf
    rwa [after, Run.run_snoc] at hcred
  · rintro halong p ⟨q, rfl⟩ f hf
    obtain ⟨hp, -⟩ := Run.along_append.mp halong
    have hN : 1 ≤ (init n).node.nextIdx f := (inv_init h).sane.nextIdx_pos f
    have hrun := Run.along_invariant
      (P := fun s => Inv n.peers s ∧ s.Credited ((init n).node.nextIdx f) f)
      (fun s a hs hcov => ⟨hs.1.step a, hs.2.step hN hs.1 hcov⟩)
      ⟨inv_init h, credited_init h hf⟩ hp
    exact hrun.2

/-- An entry is proposed after the message to follower `1` was built and before its
answer is recorded. -/
def inTheWindow : List (LeaderStep ℕ) :=
  [.append "x" "1", .build 1, .append "y" "1", .answer 0 true, .record 0]

/-- The follower is credited with an entry that no message carried to it. -/
theorem not_credited_inTheWindow :
    ((after (fresh 0 [1, 2]) inTheWindow).acknowledged 1 = 1 ∧
      (after (fresh 0 [1, 2]) inTheWindow).node.matchIdx 1 = 2 ∧
      (after (fresh 0 [1, 2]) inTheWindow).node.nextIdx 1 = 3) ∧
    ¬ (after (fresh 0 [1, 2]) inTheWindow).Credited ((init (fresh 0 [1, 2])).node.nextIdx 1) 1 := by
  decide +kernel

/-- A second message carries the entry and is answered first. -/
def secondFirst : List (LeaderStep ℕ) :=
  [.append "x" "1", .build 1, .append "y" "1", .build 1, .answer 1 true, .deliver 0, .record 0,
    .record 1]

/-- The condition is met, and the credit is right. -/
theorem credited_secondFirst :
    (after (fresh 0 [1, 2]) secondFirst).node.matchIndex.lookup 1 = some 2 ∧
      ∀ p, p <+: secondFirst → ∀ f ∈ (fresh 0 [1, 2]).peers,
        (after (fresh 0 [1, 2]) p).Credited ((init (fresh 0 [1, 2])).node.nextIdx f) f := by
  refine ⟨by decide +kernel, ?_⟩
  exact (credited_iff (fresh 0 [1, 2]) (sane_fresh 0 [1, 2]) secondFirst).mpr (by decide +kernel)

end Leader

end KVStore
