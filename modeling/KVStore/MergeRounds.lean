/-
# The merge loop, statement by statement

The loop of `appendEntries` issues separate statements, each of which may fail or
be the last before the process dies.  `Round` is what one round does to the log
when it returns, `Halted` what is left when it does not, and `Rounds` and
`Stopped` are the loop.  A failed `deleteLogEntriesFrom` is printed and passed
over (`Round.clash`): the old entry stays and the new one goes to the end.

`triple_rounds` is the loop of the code, and `triple_call` a whole call of
`appendEntries`, whichever of its statements fail.
-/
import KVStore.Faults

namespace KVStore

open Exec Splice RaftNode

variable {Id : Type}

/-! ## What the loop does to the log -/

section Loop

variable {l l' l₁ : List LogEntry} {p : ℕ} {e : LogEntry} {es : List LogEntry}
  {q q' q₁ : List Outcome}

/-- A round for entry `e` at position `p` that returns, on the log `l` with the
outcomes `q` to come: the log and the outcomes afterwards.  The first two
statements are the reads. -/
inductive Round (l : List LogEntry) (p : ℕ) (e : LogEntry) (q : List Outcome) :
    List LogEntry → List Outcome → Prop where
  | skip {x : LogEntry} (hx : l[p]? = some x) (hterm : x.term = e.term) :
      Round l p e q l (q.drop 2)
  | replace {x : LogEntry} (hx : l[p]? = some x) (hterm : x.term ≠ e.term)
      (hq : q[2]? ≠ some .fails) : Round l p e q (l.take p ++ [e]) (q.drop 4)
  | clash {x : LogEntry} (hx : l[p]? = some x) (hterm : x.term ≠ e.term)
      (hq : q[2]? = some .fails) : Round l p e q (l ++ [e]) (q.drop 4)
  | append (hlen : l.length = p) : Round l p e q (l ++ [e]) (q.drop 2)

/-- The log where a round is cut short: as before, or with the conflicting entries
deleted. -/
inductive Halted (l : List LogEntry) (p : ℕ) (e : LogEntry) : List LogEntry → Prop where
  | same : Halted l p e l
  | deleted {x : LogEntry} (hx : l[p]? = some x) (hterm : x.term ≠ e.term) :
      Halted l p e (l.take p)

/-- A loop that returns. -/
inductive Rounds : List LogEntry → ℕ → List LogEntry → List Outcome → List LogEntry →
    List Outcome → Prop where
  | nil {l : List LogEntry} {p : ℕ} {q : List Outcome} : Rounds l p [] q l q
  | cons {l : List LogEntry} {p : ℕ} {e : LogEntry} {es : List LogEntry} {q : List Outcome}
      {l₁ : List LogEntry} {q₁ : List Outcome} {l' : List LogEntry} {q' : List Outcome}
      (hround : Round l p e q l₁ q₁) (hrest : Rounds l₁ (p + 1) es q₁ l' q') :
      Rounds l p (e :: es) q l' q'

/-- A loop that is cut short; some outcome is not yet consumed then. -/
inductive Stopped : List LogEntry → ℕ → List LogEntry → List Outcome → List LogEntry →
    Prop where
  | here {l : List LogEntry} {p : ℕ} {e : LogEntry} {es : List LogEntry} {q : List Outcome}
      {l' : List LogEntry} (hq : q ≠ []) (hhalt : Halted l p e l') :
      Stopped l p (e :: es) q l'
  | later {l : List LogEntry} {p : ℕ} {e : LogEntry} {es : List LogEntry} {q : List Outcome}
      {l₁ : List LogEntry} {q₁ : List Outcome} {l' : List LogEntry}
      (hround : Round l p e q l₁ q₁) (hrest : Stopped l₁ (p + 1) es q₁ l') :
      Stopped l p (e :: es) q l'

/-- Every round makes room for the next. -/
theorem Round.lt_length (h : Round l p e q l₁ q₁) : p < l₁.length := by
  cases h with
  | skip hx _ => exact (List.getElem?_eq_some_iff.mp hx).1
  | replace hx _ _ =>
      have := (List.getElem?_eq_some_iff.mp hx).1
      rw [List.length_append, List.length_take, List.length_singleton]
      omega
  | clash hx _ _ =>
      have := (List.getElem?_eq_some_iff.mp hx).1
      rw [List.length_append]
      omega
  | append hlen =>
      rw [List.length_append, List.length_singleton]
      omega

/-- No round touches what is before it. -/
theorem Round.take_eq (h : Round l p e q l₁ q₁) (hp : p ≤ l.length) : l₁.take p = l.take p := by
  cases h with
  | skip _ _ => rfl
  | replace _ _ _ =>
      rw [List.take_append_of_le_length (by rw [List.length_take]; omega), List.take_take,
        Nat.min_self]
  | clash _ _ _ => exact List.take_append_of_le_length hp
  | append _ => exact List.take_append_of_le_length hp

theorem Rounds.take_eq (h : Rounds l p es q l' q') (hp : p ≤ l.length) :
    l'.take p = l.take p := by
  induction h with
  | nil => rfl
  | @cons l p e es q l₁ q₁ l' q' hround _ ih =>
      have hrest := congrArg (List.take p) (ih hround.lt_length)
      rw [List.take_take, List.take_take, Nat.min_eq_left (Nat.le_succ p)] at hrest
      rw [hrest, hround.take_eq hp]

/-- A round consumes outcomes. -/
theorem Round.exists_drop (h : Round l p e q l₁ q₁) : ∃ k, q₁ = q.drop k := by
  cases h with
  | skip _ _ => exact ⟨2, rfl⟩
  | replace _ _ _ => exact ⟨4, rfl⟩
  | clash _ _ _ => exact ⟨4, rfl⟩
  | append _ => exact ⟨2, rfl⟩

/-- Nothing stops a loop with no outcomes to come. -/
theorem Stopped.ne_nil (h : Stopped l p es q l') : q ≠ [] := by
  induction h with
  | here hq _ => exact hq
  | later hround _ ih =>
      obtain ⟨k, rfl⟩ := hround.exists_drop
      rintro rfl
      exact ih List.drop_nil

theorem Rounds.nil_of_nil (h : Rounds l p es q l' q') (hq : q = []) : q' = [] := by
  induction h with
  | nil => exact hq
  | cons hround _ ih =>
      obtain ⟨k, rfl⟩ := hround.exists_drop
      subst hq
      exact ih List.drop_nil

/-- **A round either clashes, or leaves an entry of the right term in its place**
and the rest of the merge as it was. -/
theorem Round.clash_or_step (h : Round l p e q l₁ q₁) (hp : p ≤ l.length) :
    (∃ x, l[p]? = some x ∧ x.term ≠ e.term ∧ q[2]? = some .fails ∧ l₁ = l ++ [e] ∧
        q₁ = q.drop 4) ∨
      (∃ y, l₁[p]? = some y ∧ y.term = e.term) ∧
        ∀ es, splice LogEntry.term l p (e :: es) = splice LogEntry.term l₁ (p + 1) es := by
  cases h with
  | skip hx hterm => exact Or.inr ⟨⟨_, hx, hterm⟩, fun es => by simp [splice, hx, hterm]⟩
  | replace hx hterm _ =>
      refine Or.inr ⟨⟨e, ?_, rfl⟩, fun es => by simp [splice, hx, hterm]⟩
      rw [List.getElem?_append_right (by rw [List.length_take]; omega), List.length_take,
        Nat.min_eq_left hp, Nat.sub_self]
      rfl
  | clash hx hterm hq => exact Or.inl ⟨_, hx, hterm, hq, rfl, rfl⟩
  | append hlen =>
      subst hlen
      exact Or.inr ⟨⟨e, by simp, rfl⟩, fun es => by simp [splice]⟩

end Loop

/-! ## The statements of a round -/

namespace RaftNode

/-- The node with the log `l`, the outcomes `q` to come. -/
def midway (m : RaftNode Id) (l : List LogEntry) (q : List Outcome) : RaftNode Id :=
  (m.setStorage (m.storage.withLog l)).facing q

@[simp] theorem log_midway (m : RaftNode Id) (l : List LogEntry) (q : List Outcome) :
    (m.midway l q).log = l := LogTable.entries_ofEntries l

theorem midway_self (m : RaftNode Id) : m.midway m.log m.pending = m := by
  unfold midway
  rw [withLog_log]
  rfl

variable {m : RaftNode Id} {l : List LogEntry} {q : List Outcome}

section Statements

variable {α : Type}

/-- A read that rethrows. -/
theorem triple_read {message : String} (f : Database → α) :
    Triple (fun n => n = m.midway l q)
      (onStorage (SQLiteStorage.rethrow message (SQLiteStorage.query f)))
      (fun a n => a = f (m.midway l q).storage.db ∧ n = m.midway l q.tail)
      (fun n => n = m.midway l q.tail ∧ q ≠ []) := by
  refine triple_rethrow (fun n hn _ _ => ?_) (fun n hn herr => ?_)
  · subst hn
    exact ⟨rfl, rfl⟩
  · subst hn
    refine ⟨rfl, ?_⟩
    rintro rfl
    rcases herr with h | h <;> cases h

theorem triple_midway_getLastLogIndex :
    Triple (fun n => n = m.midway l q) (onStorage SQLiteStorage.getLastLogIndex)
      (fun i n => i = l.length ∧ n = m.midway l q.tail)
      (fun n => n = m.midway l q.tail ∧ q ≠ []) := by
  refine (triple_read _).post ?_
  rintro i n ⟨rfl, rfl⟩
  refine ⟨(LogTable.maxIndex_getD _).trans ?_, rfl⟩
  exact congrArg (fun l : List LogEntry => (l.length : ℤ)) (LogTable.entries_ofEntries l)

theorem triple_midway_getLogEntry (i : ℕ) :
    Triple (fun n => n = m.midway l q) (onStorage (SQLiteStorage.getLogEntry ((i : ℤ) + 1)))
      (fun x n => x = l[i]? ∧ n = m.midway l q.tail)
      (fun n => n = m.midway l q.tail ∧ q ≠ []) := by
  refine (triple_read _).post ?_
  rintro x n ⟨rfl, rfl⟩
  refine ⟨?_, rfl⟩
  have hentry : (m.midway l q).storage.db.logs.selectIndex ((i : ℤ) + 1)
      = SQLiteStorage.entryAt (m.midway l q).log ((i : ℤ) + 1) := LogTable.selectIndex_eq _ _
  rw [hentry, log_midway, entryAt_succ]

/-- An append that returns has appended. -/
theorem triple_midway_appendLogEntry (e : LogEntry) :
    Triple (fun n => n = m.midway l q) (onStorage (SQLiteStorage.appendLogEntry e))
      (fun _ n => n = m.midway (l ++ [e]) q.tail)
      (fun n => n = m.midway l q.tail ∧ q ≠ []) := by
  refine triple_rethrow (fun n hn _ _ => ?_) (fun n hn herr => ?_)
  · subst hn
    have htable : (LogTable.ofEntries l).insert e = LogTable.ofEntries (l ++ [e]) := by
      apply LogTable.ext_entries
      rw [LogTable.entries_insert, LogTable.entries_ofEntries, LogTable.entries_ofEntries]
    show (m.midway l q).issued
      { (m.midway l q).storage.db with logs := (LogTable.ofEntries l).insert e } = _
    rw [htable]
    rfl
  · subst hn
    refine ⟨rfl, ?_⟩
    rintro rfl
    rcases herr with h | h <;> cases h

/-- A delete returns also when it failed. -/
theorem triple_midway_deleteLogEntriesFrom (i : ℕ) :
    Triple (fun n => n = m.midway l q)
      (onStorage (SQLiteStorage.deleteLogEntriesFrom ((i : ℤ) + 1)))
      (fun _ n => (q.head? ≠ some .fails ∧ n = m.midway (l.take i) q.tail) ∨
        (q.head? = some .fails ∧ n = m.midway l q.tail))
      (fun n => n = m.midway l q.tail ∧ q ≠ []) := by
  refine triple_printStackTrace (fun n hn hq _ => ?_) (fun n hn hq => ?_) (fun n hn hq => ?_)
  · subst hn
    left
    have htable : (LogTable.ofEntries l).deleteFrom ((i : ℤ) + 1)
        = LogTable.ofEntries (l.take i) := by
      apply LogTable.ext_entries
      rw [LogTable.entries_deleteFrom, LogTable.entries_ofEntries, LogTable.entries_ofEntries,
        add_sub_cancel_right, Int.toNat_natCast]
    refine ⟨hq, ?_⟩
    show (m.midway l q).issued
      { (m.midway l q).storage.db with
        logs := (LogTable.ofEntries l).deleteFrom ((i : ℤ) + 1) } = _
    rw [htable]
    rfl
  · subst hn
    exact Or.inr ⟨hq, rfl⟩
  · subst hn
    refine ⟨rfl, ?_⟩
    rintro rfl
    cases hq

end Statements

/-- After the two reads of a round. -/
theorem tail_tail (q : List Outcome) : q.tail.tail = q.drop 2 := by
  rw [← List.drop_one, ← List.drop_one, List.drop_drop]

/-- **A round of the loop.** -/
theorem triple_round {p : ℕ} (hp : p ≤ l.length) (e : LogEntry) :
    Triple (fun n => n = m.midway l q) (mergeEntry ((p : ℤ) + 1) e)
      (fun _ n => ∃ l' q', n = m.midway l' q' ∧ Round l p e q l' q')
      (fun n => ∃ l' q', n = m.midway l' q' ∧ Halted l p e l' ∧ q ≠ []) := by
  -- a statement that does not return leaves the log of the moment
  have hcut : ∀ (l' : List LogEntry) (k : ℕ) (n : RaftNode Id), Halted l p e l' →
      n = m.midway l' (q.drop k).tail ∧ q.drop k ≠ [] →
      ∃ l' q', n = m.midway l' q' ∧ Halted l p e l' ∧ q ≠ [] := by
    rintro l' k n hhalt ⟨hn, hne⟩
    refine ⟨l', _, hn, hhalt, ?_⟩
    rintro rfl
    exact hne List.drop_nil
  rw [mergeEntry]
  refine Triple.bind (triple_midway_getLastLogIndex.conseq (fun _ h => h) (fun _ _ h => h)
    (fun n hn => hcut l 0 n .same hn)) fun last => Triple.of_forall fun n hn => ?_
  obtain ⟨rfl, rfl⟩ := hn
  split_ifs with hge
  · have hlt : p < l.length := by omega
    have hx : l[p]? = some l[p] := List.getElem?_eq_getElem hlt
    have hread : Triple (fun n => n = m.midway l q.tail)
        (onStorage (SQLiteStorage.getLogEntry ((p : ℤ) + 1)))
        (fun x n => x = some l[p] ∧ n = m.midway l (q.drop 2)) _ :=
      (triple_midway_getLogEntry p).conseq (fun _ h => h)
        (fun x n hn => ⟨hn.1.trans hx, tail_tail q ▸ hn.2⟩)
        (fun n hn => hcut l 1 n .same (by rwa [List.drop_one]))
    refine Triple.bind hread fun own => Triple.of_forall fun n hn => ?_
    obtain ⟨rfl, rfl⟩ := hn
    simp only [nonNull, pure_bind]
    split_ifs with hterm
    · -- the delete comes first; it may fail and be passed over
      refine Triple.bind ((triple_midway_deleteLogEntriesFrom p).conseq (fun _ h => h)
        (fun _ _ h => h) (fun n hn => hcut l 2 n .same hn)) fun _ => Triple.of_forall fun n hn => ?_
      rw [List.head?_drop, List.tail_drop] at hn
      rcases hn with ⟨hq, rfl⟩ | ⟨hq, rfl⟩
      · refine Triple.bind ((triple_midway_appendLogEntry e).conseq (fun _ h => h)
          (fun _ _ h => h) (fun n hn => hcut (l.take p) 3 n (.deleted hx hterm) hn))
          fun _ => Triple.pure fun n hn => ⟨_, _, hn, ?_⟩
        rw [List.tail_drop]
        exact .replace hx hterm hq
      · refine Triple.bind ((triple_midway_appendLogEntry e).conseq (fun _ h => h)
          (fun _ _ h => h) (fun n hn => hcut l 3 n .same hn))
          fun _ => Triple.pure fun n hn => ⟨_, _, hn, ?_⟩
        rw [List.tail_drop]
        exact .clash hx hterm hq
    · exact Triple.pure fun n hn => ⟨l, _, hn, .skip hx (not_not.mp hterm)⟩
  · refine Triple.bind ((triple_midway_appendLogEntry e).conseq (fun _ h => h)
      (fun _ _ h => h) (fun n hn => hcut l 1 n .same (by rwa [List.drop_one])))
      fun _ => Triple.pure fun n hn => ⟨_, _, hn, ?_⟩
    rw [tail_tail]
    exact .append (by omega)

/-- **The whole loop.** -/
theorem triple_rounds {p : ℕ} (hp : p ≤ l.length) (es : List LogEntry) :
    Triple (fun n => n = m.midway l q) (mergeLoop ((p : ℤ) + 1) es)
      (fun _ n => ∃ l' q', n = m.midway l' q' ∧ Rounds l p es q l' q')
      (fun n => ∃ l' q', n = m.midway l' q' ∧ Stopped l p es q l') := by
  induction es generalizing l p q with
  | nil => exact Triple.pure fun n hn => ⟨l, q, hn, .nil⟩
  | cons e es ih =>
      rw [mergeLoop]
      refine Triple.bind ((triple_round hp e).conseq (fun _ h => h) (fun _ _ h => h) ?_)
        fun _ => Triple.of_forall fun n hn => ?_
      · rintro n ⟨l', q', hn, hhalt, hq⟩
        exact ⟨l', q', hn, .here hq hhalt⟩
      · obtain ⟨l₁, q₁, rfl, hround⟩ := hn
        refine (ih (p := p + 1) hround.lt_length).conseq (fun _ h => h) ?_ ?_
        · rintro _ n ⟨l', q', hn, hrest⟩
          exact ⟨l', q', hn, .cons hround hrest⟩
        · rintro n ⟨l', q', hn, hrest⟩
          exact ⟨l', q', hn, .later hround hrest⟩

/-- The number of statements of the test before the loop. -/
def checks (prevLogIndex : ℤ) : ℕ := if prevLogIndex > 0 then 2 else 1

/-- The test before the loop. -/
theorem triple_midway_logMismatch (i t : ℤ) :
    Triple (fun n => n = m.midway l q) (logMismatch i t)
      (fun b n => b = mismatch l i t ∧
        ∃ q', n = m.midway l q' ∧ (b = false → q' = q.drop (checks i)))
      (fun n => ∃ q', n = m.midway l q') := by
  rw [logMismatch]
  refine Triple.bind (triple_midway_getLastLogIndex.conseq (fun _ h => h) (fun _ _ h => h)
    (fun n hn => ⟨_, hn.1⟩)) fun last => Triple.of_forall fun n hn => ?_
  obtain ⟨rfl, rfl⟩ := hn
  split_ifs with hlt hpos
  · exact Triple.pure fun n hn => ⟨by simp [mismatch, hlt], _, hn, by simp⟩
  · obtain ⟨p, rfl⟩ : ∃ p : ℕ, i = (p : ℤ) + 1 := ⟨(i - 1).toNat, by omega⟩
    have hlen : p < l.length := by omega
    have hx : l[p]? = some l[p] := List.getElem?_eq_getElem hlen
    refine Triple.bind ((triple_midway_getLogEntry p).conseq (fun _ h => h) (fun _ _ h => h)
      (fun n hn => ⟨_, hn.1⟩)) fun own => Triple.of_forall fun n hn => ?_
    obtain ⟨rfl, rfl⟩ := hn
    rw [hx]
    refine Triple.pure fun n hn => ⟨?_, _, hn, fun _ => ?_⟩
    · rw [mismatch, entryAt_succ, hx]
      simp [hlt, hpos]
    · rw [tail_tail, checks, if_pos hpos]
  · refine Triple.pure fun n hn => ⟨by simp [mismatch, hlt, hpos], _, hn, fun _ => ?_⟩
    rw [checks, if_neg hpos, List.drop_one]

/-! ## What the end of a call leaves alone -/

/-- The log, the role and term, and a property of `lastApplied`. -/
def Settled (l : List LogEntry) (s : RaftState Id) (B : ℤ → Prop) (n : RaftNode Id) : Prop :=
  n.log = l ∧ n.state = s ∧ B n.lastApplied

section Settled

variable {s : RaftState Id} {B : ℤ → Prop} (hzero : B 0) (hsucc : ∀ a, B a → B (a + 1))

theorem lasts_settled : Lasts (Settled l s B) := fun _ hn => hn

include hsucc in
theorem triple_settled_applyLoop (rounds : ℕ) : ∀ i : ℤ, B i →
    Triple (Settled l s B) (applyLoop i rounds) (fun a n => Settled l s B n ∧ B a)
      (Settled l s B) := by
  induction rounds with
  | zero => exact fun i hi => Triple.pure fun n hn => ⟨hn, hi⟩
  | succ rounds ih =>
      intro i hi
      rw [applyLoop]
      refine Triple.bind (triple_getLogEntry lasts_settled (fun _ h => h) (i + 1)) fun entry => ?_
      refine Triple.bind (R := fun _ => Settled l s B) ?_ fun _ => ih (i + 1) (hsucc i hi)
      rw [applyToStateMachine]
      refine Triple.bind (triple_nonNull (fun _ hn => hn.1) entry) fun e => ?_
      exact triple_printStackTrace (fun _ hn _ _ => hn.1.1) (fun _ hn _ => hn.1.1)
        (fun _ hn _ => hn.1.1)

include hzero hsucc in
/-- **The end of a call keeps the log**, whichever statements fail, and `lastApplied`
stays what counting up from itself or from `0` can give. -/
theorem triple_settled_followCommit (leaderCommit : ℤ) :
    Triple (Settled l s B) (followCommit leaderCommit) (fun _ => Settled l s B)
      (Settled l s B) := by
  rw [followCommit]
  refine Triple.bind (triple_getCommitIndex lasts_settled fun _ h => h) fun c => ?_
  split_ifs
  · refine Triple.bind (triple_getLastLogIndex lasts_settled fun _ h => h) fun last => ?_
    refine Triple.bind (R := fun _ => Settled l s B) ?_ fun _ => ?_
    · refine triple_printStackTrace (fun n hn _ _ => ?_) (fun _ hn _ => hn.1)
        (fun _ hn _ => hn.1)
      refine ⟨hn.1.1, hn.1.2.1, ?_⟩
      have happlied := congrArg Durable.lastApplied
        (durable_setCommitIndex (n := n) (min leaderCommit last))
      exact (congrArg B happlied).mpr hn.1.2.2
    · rw [applyCommittedEntries]
      -- a read that fails yields `0`
      have hread : Triple (Settled l s B) (onStorage SQLiteStorage.getLastApplied)
          (fun a n => Settled l s B n ∧ B a) (Settled l s B) :=
        triple_printStackTrace (fun _ hn _ _ => ⟨hn, hn.2.2⟩) (fun _ hn _ => ⟨hn, hzero⟩)
          (fun _ hn _ => hn)
      refine Triple.bind hread fun a => Triple.of_forall fun n hn => ?_
      obtain ⟨hn, ha⟩ := hn
      refine Triple.bind ((triple_getCommitIndex lasts_settled fun _ h => h).pre
        fun _ h => h ▸ hn) fun c => ?_
      refine Triple.bind (triple_settled_applyLoop hsucc _ a ha) fun a' => ?_
      refine triple_printStackTrace (fun n hn _ _ => ?_) (fun _ hn _ => hn.1)
        (fun _ hn _ => hn.1)
      refine ⟨hn.1.1, hn.1.2.1, ?_⟩
      have happlied := congrArg Durable.lastApplied (durable_setLastApplied (n := n) a')
      exact (congrArg B happlied).mpr hn.2
  · exact Triple.pure fun _ hn => hn

end Settled

/-! ## A whole call -/

/-- What no call breaks. -/
structure Kept (req : AppendEntriesRequest Id) (n n' : RaftNode Id) : Prop where
  lastApplied_nonneg : 0 ≤ n.lastApplied → 0 ≤ n'.lastApplied
  term_le : n.state.currentTerm ≤ req.term → n'.state.currentTerm ≤ req.term

/-- A call that is taken runs its loop to the end; one that is not is stale or fails
the test. -/
structure Returned (req : AppendEntriesRequest Id) (n : RaftNode Id) (b : Bool)
    (n' : RaftNode Id) : Prop where
  taken : b = true → mismatch n.log req.prevLogIndex req.prevLogTerm = false ∧
    ∃ q', Rounds n.log req.prevLogIndex.toNat req.entries
      (n.pending.drop (checks req.prevLogIndex)) n'.log q'
  refused : b = false → req.term < n.state.currentTerm ∨
    mismatch n.log req.prevLogIndex req.prevLogTerm = true
  kept : Kept req n n'

/-- A call that throws does so before its loop, in it, or after it.  After the loop
only a failed statement makes it throw. -/
structure Thrown (req : AppendEntriesRequest Id) (n n' : RaftNode Id) : Prop where
  log : n'.log = n.log ∨
    (mismatch n.log req.prevLogIndex req.prevLogTerm = false ∧
      (Stopped n.log req.prevLogIndex.toNat req.entries
          (n.pending.drop (checks req.prevLogIndex)) n'.log ∨
        ∃ q', Rounds n.log req.prevLogIndex.toNat req.entries
            (n.pending.drop (checks req.prevLogIndex)) n'.log q' ∧
          (0 ≤ n.lastApplied → q' ≠ [])))
  kept : Kept req n n'

/-- The end of a call, from where the loop left the node. -/
theorem triple_callEnd (c : ℤ) :
    Triple (fun n => n = m.midway l q) (do followCommit c; return true)
      (fun b n => b = true ∧ n.log = l ∧ n.state = m.state ∧
        (0 ≤ m.lastApplied → 0 ≤ n.lastApplied))
      (fun n => n.log = l ∧ n.state = m.state ∧ (0 ≤ m.lastApplied → 0 ≤ n.lastApplied) ∧
        (0 ≤ m.lastApplied → q ≠ [])) := by
  have hsettled := triple_settled_followCommit (l := l) (s := m.state)
    (B := fun a => 0 ≤ m.lastApplied → 0 ≤ a) (fun _ => le_rfl)
    (fun a ha h => Int.le_add_one (ha h)) c
  have hstart : Settled l m.state (fun a => 0 ≤ m.lastApplied → 0 ≤ a) (m.midway l q) :=
    ⟨log_midway _ _ _, rfl, id⟩
  rintro n rfl
  rcases hrun : (followCommit c).run (m.midway l q) with ⟨u, n'⟩ | ⟨e, n'⟩
  · obtain ⟨hlog, hstate, hnonneg⟩ := hsettled.ok hstart hrun
    rw [Exec.run_bind_ok hrun]
    exact ⟨rfl, hlog, hstate, hnonneg⟩
  · obtain ⟨hlog, hstate, hnonneg⟩ := hsettled.error hstart hrun
    rw [Exec.run_bind_error hrun]
    refine ⟨hlog, hstate, hnonneg, ?_⟩
    -- a call on which nothing fails gets to its end
    rintro h0 rfl
    rw [run_followCommit (n := m.midway l []) rfl h0] at hrun
    cases hrun

/-- After the term is seen a call changes nothing more of the role and term. -/
theorem kept_of_state {n n' : RaftNode Id} {req : AppendEntriesRequest Id}
    (hstate : n'.state = (n.observed req.term).state)
    (hnonneg : 0 ≤ n.lastApplied → 0 ≤ n'.lastApplied) : Kept req n n' := by
  refine ⟨hnonneg, fun hterm => ?_⟩
  rw [hstate, state_observed]
  split_ifs
  · exact le_rfl
  · exact hterm

/-- The loop and the end of a call whose test has passed. -/
theorem triple_taken (n : RaftNode Id) {req : AppendEntriesRequest Id}
    (hprev : 0 ≤ req.prevLogIndex)
    (hmis : mismatch n.log req.prevLogIndex req.prevLogTerm = false) :
    Triple (fun n' => n' = (n.observed req.term).midway n.log
        (n.pending.drop (checks req.prevLogIndex)))
      (do
        mergeLoop (req.prevLogIndex + 1) req.entries
        followCommit req.leaderCommit
        return true)
      (Returned req n) (Thrown req n) := by
  obtain ⟨p, hp⟩ := Int.eq_ofNat_of_zero_le hprev
  have hle : p ≤ n.log.length := by
    have := (mismatch_eq_false_iff.mp hmis).1
    omega
  have hnat : req.prevLogIndex.toNat = p := by omega
  rw [show req.prevLogIndex + 1 = (p : ℤ) + 1 by omega]
  refine Triple.bind ((triple_rounds hle req.entries).conseq (fun _ h => h)
    (fun _ _ h => h) ?_) fun _ => Triple.of_forall fun n'' hn => ?_
  · rintro n'' ⟨l', q', rfl, hstop⟩
    refine ⟨Or.inr ⟨hmis, Or.inl ?_⟩, kept_of_state rfl id⟩
    rw [log_midway, hnat]
    exact hstop
  · obtain ⟨l', q', rfl, hrounds⟩ := hn
    refine (triple_callEnd req.leaderCommit).conseq (fun _ h => h) ?_ ?_
    · rintro b n'' ⟨rfl, hlog, hstate, hnonneg⟩
      refine ⟨fun _ => ⟨hmis, q', ?_⟩, by simp, kept_of_state hstate hnonneg⟩
      rw [hlog, hnat]
      exact hrounds
    · rintro n'' ⟨hlog, hstate, hnonneg, hne⟩
      refine ⟨Or.inr ⟨hmis, Or.inr ⟨q', ?_, hne⟩⟩, kept_of_state hstate hnonneg⟩
      rw [hlog, hnat]
      exact hrounds

/-- **What a call of `appendEntries` does, whichever of its statements fail.** -/
theorem triple_call (n : RaftNode Id) (req : AppendEntriesRequest Id)
    (hprev : 0 ≤ req.prevLogIndex) :
    Triple (fun n' => n' = n) (appendEntries req) (Returned req n) (Thrown req n) := by
  rw [appendEntries]
  refine Triple.bind_get fun m hm => ?_
  subst hm
  split_ifs with hstale
  · refine Triple.pure fun n hn => ?_
    subst hn
    exact ⟨by simp, fun _ => Or.inl hstale, ⟨id, id⟩⟩
  rintro n' rfl
  rw [run_observeTerm]
  -- from here on only the log and the outcomes to come change, until the loop is done
  have hmid : n'.observed req.term = (n'.observed req.term).midway n'.log n'.pending :=
    (midway_self (n'.observed req.term)).symm
  rw [hmid]
  refine Triple.bind ((triple_midway_logMismatch req.prevLogIndex req.prevLogTerm).conseq
    (fun _ h => h) (fun _ _ h => h) ?_) (fun refused => Triple.of_forall fun n'' hn => ?_) _ rfl
  · rintro n'' ⟨q', rfl⟩
    exact ⟨Or.inl (log_midway _ _ _), kept_of_state rfl id⟩
  obtain ⟨hrefused, q', rfl, hq'⟩ := hn
  cases refused with
  | true =>
      refine Triple.pure fun n'' hn => ?_
      subst hn
      exact ⟨by simp, fun _ => Or.inr hrefused.symm, kept_of_state rfl id⟩
  | false =>
      rw [hq' rfl, if_neg (by simp)]
      exact triple_taken n' hprev hrefused.symm

end RaftNode

end KVStore
