/-
# Merges that were cut short or lost a statement

* A call that is cut short leaves a log that the same call, delivered again,
  completes to the log it would have produced at once (`Redelivery.repairs`).
* A call that answers `true` has its entries in the log exactly when the one
  delete it needs does not fail (`present_iff`).
-/
import KVStore.MergeRounds
import KVStore.Recovery

namespace KVStore

open Exec Splice RaftNode

variable {Id : Type}

section Loop

variable {l l' l₁ : List LogEntry} {p : ℕ} {e : LogEntry} {es : List LogEntry}
  {q q' q₁ : List Outcome}

/-! ## Taking up a merge again -/

/-- Merging `es` into `l'` gives what merging it into `l` gives, and the two agree
before position `p`. -/
structure Resumes (l' l : List LogEntry) (p : ℕ) (es : List LogEntry) : Prop where
  le_length : p ≤ l'.length
  take_eq : l'.take p = l.take p
  splice_eq : splice LogEntry.term l' p es = splice LogEntry.term l p es

/-- Nothing was done. -/
theorem Resumes.refl (hp : p ≤ l.length) : Resumes l l p es := ⟨hp, rfl, rfl⟩

/-- One interrupted merge after another. -/
theorem Resumes.trans {l'' : List LogEntry} (h : Resumes l' l p es) (h' : Resumes l'' l' p es) :
    Resumes l'' l p es :=
  ⟨h'.le_length, h'.take_eq.trans h.take_eq, h'.splice_eq.trans h.splice_eq⟩

/-- What resumes the rest of a merge after a round resumes the merge. -/
theorem Resumes.of_round (hrest : Resumes l' l₁ (p + 1) es) (hround : Round l p e q l₁ q₁)
    (hp : p ≤ l.length) {y : LogEntry} (hy : l₁[p]? = some y) (hterm : y.term = e.term)
    (hstep : splice LogEntry.term l p (e :: es) = splice LogEntry.term l₁ (p + 1) es) :
    Resumes l' l p (e :: es) where
  le_length := Nat.le_of_succ_le hrest.le_length
  take_eq := by
    have htake := congrArg (List.take p) hrest.take_eq
    rw [List.take_take, List.take_take, Nat.min_eq_left (Nat.le_succ p)] at htake
    rw [htake, hround.take_eq hp]
  splice_eq := by
    have hget := congrArg (fun k => k[p]?) hrest.take_eq
    simp only [List.getElem?_take, Nat.lt_succ_self, if_true, hy] at hget
    rw [hstep, ← hrest.splice_eq, splice, hget]
    simp [hterm]

/-- An interrupted round leaves a log to go on from. -/
theorem Halted.resumes (h : Halted l p e l') (hp : p ≤ l.length) : Resumes l' l p (e :: es) := by
  cases h with
  | same => exact Resumes.refl hp
  | deleted hx hterm =>
      have hlen : (l.take p).length = p := List.length_take_of_le hp
      refine ⟨hlen.ge, by rw [List.take_take, Nat.min_self], ?_⟩
      -- both sides append the whole tail to what is before `p`
      have hlhs := splice_length LogEntry.term (l.take p) (e :: es)
      have hrhs := splice_length LogEntry.term (l.take p ++ [e]) es
      rw [hlen] at hlhs
      rw [List.length_append, hlen, List.length_singleton] at hrhs
      rw [hlhs, splice, hx]
      simp [hterm, hrhs]

/-- Only the last outcome may be a failure. -/
def LastFails (q : List Outcome) : Prop := ∀ i, q[i]? = some .fails → q.length = i + 1

/-- Only the last of the later statements fails. -/
theorem LastFails.drop (h : LastFails q) (k : ℕ) : LastFails (q.drop k) := by
  intro i hi
  rw [List.getElem?_drop] at hi
  have := h _ hi
  rw [List.length_drop]
  omega

/-- A round that ends leaves such statements to the next. -/
theorem LastFails.round (h : LastFails q) (hround : Round l p e q l₁ q₁) : LastFails q₁ := by
  obtain ⟨k, rfl⟩ := hround.exists_drop
  exact h.drop k

/-- After a clash there are no outcomes left. -/
theorem LastFails.drop_eq_nil (h : LastFails q) (hq : q[2]? = some .fails) : q.drop 4 = [] := by
  have := h 2 hq
  rw [List.drop_eq_nil_iff]
  omega

/-- **Where the loop is cut short, the merge can be taken up again.** -/
theorem Stopped.resumes (h : Stopped l p es q l') (hq : LastFails q) (hp : p ≤ l.length) :
    Resumes l' l p es := by
  induction h with
  | here _ hhalt => exact hhalt.resumes hp
  | later hround hrest ih =>
      rcases hround.clash_or_step hp with ⟨x, -, -, hfails, -, rfl⟩ | ⟨⟨y, hy, hterm⟩, hstep⟩
      · exact absurd (hq.drop_eq_nil hfails) hrest.ne_nil
      · exact (ih (hq.round hround) hround.lt_length).of_round hround hp hy hterm (hstep _)

/-- A loop that returns has merged, or a delete of it failed and nothing fails after
it. -/
theorem Rounds.resumes (h : Rounds l p es q l' q') (hq : LastFails q) (hp : p ≤ l.length) :
    Resumes l' l p es ∨ (q' = [] ∧ .fails ∈ q) := by
  induction h with
  | nil => exact Or.inl (Resumes.refl hp)
  | @cons l p e es q l₁ q₁ l' q' hround hrest ih =>
      rcases hround.clash_or_step hp with ⟨x, -, -, hfails, -, rfl⟩ | ⟨⟨y, hy, hterm⟩, hstep⟩
      · exact Or.inr ⟨hrest.nil_of_nil (hq.drop_eq_nil hfails), List.mem_of_getElem? hfails⟩
      · rcases ih (hq.round hround) hround.lt_length with hres | ⟨hnil, hmem⟩
        · exact Or.inl (hres.of_round hround hp hy hterm (hstep _))
        · obtain ⟨k, rfl⟩ := hround.exists_drop
          exact Or.inr ⟨hnil, List.mem_of_mem_drop hmem⟩

/-! ## The delete a merge needs -/

/-- An entry of the call conflicts with the log, and the statement that deletes the
first such entry fails: the third of its round, after two reads for every entry
that is there already. -/
def DeleteFails (l : List LogEntry) (p : ℕ) (es : List LogEntry) (q : List Outcome) : Prop :=
  matchLen LogEntry.term l p es < es.length ∧ p + matchLen LogEntry.term l p es < l.length ∧
    q[2 * matchLen LogEntry.term l p es + 2]? = some .fails

instance (l : List LogEntry) (p : ℕ) (es : List LogEntry) (q : List Outcome) :
    Decidable (DeleteFails l p es q) :=
  inferInstanceAs (Decidable (_ ∧ _))

/-- Beyond the end of the log there is nothing to delete. -/
theorem not_deleteFails_of_length (hlen : l.length = p) : ¬ DeleteFails l p es q := by
  rintro ⟨-, hlt, -⟩
  omega

/-- An entry in its place costs two statements. -/
theorem deleteFails_skip {x : LogEntry} (hx : l[p]? = some x) (hterm : x.term = e.term) :
    DeleteFails l p (e :: es) q ↔ DeleteFails l (p + 1) es (q.drop 2) := by
  have hmatch : matchLen LogEntry.term l p (e :: es) = matchLen LogEntry.term l (p + 1) es + 1 := by
    simp [matchLen, hx, hterm]
  unfold DeleteFails
  rw [hmatch, List.length_cons, List.getElem?_drop, Nat.succ_lt_succ_iff,
    show p + (matchLen LogEntry.term l (p + 1) es + 1)
      = p + 1 + matchLen LogEntry.term l (p + 1) es by omega,
    show 2 * (matchLen LogEntry.term l (p + 1) es + 1) + 2
      = 2 + (2 * matchLen LogEntry.term l (p + 1) es + 2) by omega]

/-- A conflict is cut off by the third statement. -/
theorem deleteFails_conflict {x : LogEntry} (hx : l[p]? = some x) (hterm : x.term ≠ e.term) :
    DeleteFails l p (e :: es) q ↔ q[2]? = some .fails := by
  have hmatch : matchLen LogEntry.term l p (e :: es) = 0 := by simp [matchLen, hx, hterm]
  have hlt := (List.getElem?_eq_some_iff.mp hx).1
  unfold DeleteFails
  rw [hmatch]
  simp [hlt]

/-- The entries of the call have their terms in place, from position `p` on. -/
def InPlace (l : List LogEntry) (p : ℕ) (es : List LogEntry) : Prop :=
  ∀ i e, es[i]? = some e → ∃ x, l[p + i]? = some x ∧ x.term = e.term

/-- All entries are in place if the first is and the others are. -/
theorem inPlace_cons : InPlace l p (e :: es) ↔
    (∃ x, l[p]? = some x ∧ x.term = e.term) ∧ InPlace l (p + 1) es := by
  constructor
  · intro h
    refine ⟨h 0 e rfl, fun i e' he' => ?_⟩
    obtain ⟨x, hx, hterm⟩ := h (i + 1) e' he'
    refine ⟨x, ?_, hterm⟩
    rwa [show p + 1 + i = p + (i + 1) by omega]
  · rintro ⟨hhead, htail⟩ i e' he'
    cases i with
    | zero =>
        cases he'
        exact hhead
    | succ i =>
        obtain ⟨x, hx, hterm⟩ := htail i e' he'
        refine ⟨x, ?_, hterm⟩
        rwa [show p + (i + 1) = p + 1 + i by omega]

/-- What a later round leaves of the entry at `p`. -/
theorem Rounds.getElem?_eq (h : Rounds l (p + 1) es q l' q') (hp : p + 1 ≤ l.length) :
    l'[p]? = l[p]? := by
  have hget := congrArg (fun k => k[p]?) (h.take_eq hp)
  simpa only [List.getElem?_take, Nat.lt_succ_self, if_true] using hget

/-- **A loop that returns has put every entry in its place exactly when its delete
did not fail.** -/
theorem Rounds.inPlace_iff (h : Rounds l p es q l' q') (hp : p ≤ l.length) :
    InPlace l' p es ↔ ¬ DeleteFails l p es q := by
  induction h with
  | nil => exact ⟨fun _ hd => absurd hd.1 (Nat.not_lt_zero _), fun _ i e he => by simp at he⟩
  | @cons l p e es q l₁ q₁ l' q' hround hrest ih =>
      have hkeep := hrest.getElem?_eq hround.lt_length
      have hrest := ih hround.lt_length
      rw [inPlace_cons, hkeep, hrest]
      cases hround with
      | @skip x hx hterm =>
          rw [deleteFails_skip hx hterm, hx]
          exact and_iff_right ⟨x, rfl, hterm⟩
      | replace hx hterm hq =>
          have hlen : (l.take p ++ [e]).length = p + 1 := by
            rw [List.length_append, List.length_take_of_le hp, List.length_singleton]
          have hget : (l.take p ++ [e])[p]? = some e := by
            rw [List.getElem?_append_right (List.length_take_le _ _),
              List.length_take_of_le hp, Nat.sub_self]
            rfl
          rw [deleteFails_conflict hx hterm, hget]
          exact iff_of_true ⟨⟨e, rfl, rfl⟩, not_deleteFails_of_length hlen⟩ hq
      | clash hx hterm hq =>
          have hlt := (List.getElem?_eq_some_iff.mp hx).1
          rw [deleteFails_conflict hx hterm, List.getElem?_append_left hlt, hx]
          refine iff_of_false ?_ (not_not.mpr hq)
          rintro ⟨⟨y, hy, hyterm⟩, -⟩
          cases hy
          exact hterm hyterm
      | append hlen =>
          subst hlen
          have hlen' : (l ++ [e]).length = l.length + 1 := by simp
          have hget : (l ++ [e])[l.length]? = some e := by simp
          rw [hget]
          exact iff_of_true ⟨⟨e, rfl, rfl⟩, not_deleteFails_of_length hlen'⟩
            (not_deleteFails_of_length rfl)

end Loop

/-! ## Redelivering a call that was cut short -/

/-- How a call is cut short when `k` of its statements have happened: the process
dies and is restarted, or the next statement fails and its exception ends the
call. -/
inductive Cut : Type where
  | dies (k : ℕ)
  | throws (k : ℕ)

namespace Cut

def outcomes : Cut → List Outcome
  | dies k => List.replicate k .succeeds ++ [.crashes]
  | throws k => List.replicate k .succeeds ++ [.fails]

/-- Of an interrupted call only the last statement fails. -/
theorem lastFails_outcomes (c : Cut) : LastFails c.outcomes := by
  have hlast : ∀ (k : ℕ) (o : Outcome), LastFails (List.replicate k .succeeds ++ [o]) := by
    intro k o i hi
    have hlen := (List.getElem?_eq_some_iff.mp hi).1
    rcases Nat.lt_or_ge i k with hlt | hge
    · rw [List.getElem?_append_left (by simpa using hlt), List.getElem?_replicate,
        if_pos hlt] at hi
      cases hi
    · rw [List.length_append, List.length_replicate, List.length_singleton] at hlen ⊢
      omega
  cases c with
  | dies k => exact hlast k .crashes
  | throws k => exact hlast k .fails

variable [DecidableEq Id]

/-- The node after the cut call. -/
def deliver (req : AppendEntriesRequest Id) (n : RaftNode Id) : Cut → RaftNode Id
  | dies k => (Exec.finalState (appendEntries req) (n.facing (dies k).outcomes)).restart
  | throws k => Exec.finalState (appendEntries req) (n.facing (throws k).outcomes)

/-- A failed statement does cut the call short: its exception leaves the call. -/
def CutsShort (req : AppendEntriesRequest Id) (n : RaftNode Id) : Cut → Prop
  | dies _ => True
  | throws k => ∃ e n', (appendEntries req).run (n.facing (throws k).outcomes) = .error e n'

end Cut

namespace Redelivery

/-- The node `n'` can take the call `req` again, and the call then does to its log
what it would have done to `l`. -/
structure Pending (req : AppendEntriesRequest Id) (l : List LogEntry) (n' : RaftNode Id) :
    Prop where
  resumes : Resumes n'.log l req.prevLogIndex.toNat req.entries
  lastApplied_nonneg : 0 ≤ n'.lastApplied
  term_le : n'.state.currentTerm ≤ req.term

variable {req : AppendEntriesRequest Id} {l : List LogEntry} {n : RaftNode Id}

/-- The test before the loop passes again, since it looks at nothing from
`prevLogIndex` on. -/
theorem mismatch_of_resumes {l' : List LogEntry} {es : List LogEntry} {i t : ℤ} (hi : 0 ≤ i)
    (h : Resumes l' l i.toNat es) (hmis : mismatch l i t = false) : mismatch l' i t = false := by
  have hle := h.le_length
  rw [mismatch_eq_false_iff] at hmis ⊢
  refine ⟨by omega, fun hpos => ?_⟩
  rw [← hmis.2 hpos]
  obtain ⟨p, rfl⟩ : ∃ p : ℕ, i = (p : ℤ) + 1 := ⟨(i - 1).toNat, by omega⟩
  have hget := congrArg (fun k => k[p]?) h.take_eq
  rw [show ((p : ℤ) + 1).toNat = p + 1 by omega] at hget
  simp only [List.getElem?_take, Nat.lt_succ_self, if_true] at hget
  rw [entryAt_succ, entryAt_succ, hget]

/-- **One delivery of the call, whatever becomes of it**: a call that is cut short
leaves the merge to be taken up again, and so does one that returns when no
statement failed. -/
theorem triple_delivery (hprev : 0 ≤ req.prevLogIndex) {q : List Outcome} (hq : LastFails q)
    (h : Pending req n.log n) (hmis : mismatch n.log req.prevLogIndex req.prevLogTerm = false) :
    Triple (fun n' => n' = n.facing q) (appendEntries req)
      (fun _ n' => .fails ∉ q → Pending req n.log n')
      (Pending req n.log) := by
  have hle := h.resumes.le_length
  have hq' : LastFails ((n.facing q).pending.drop (checks req.prevLogIndex)) := hq.drop _
  have hpending : ∀ n' : RaftNode Id, Kept req (n.facing q) n' →
      Resumes n'.log n.log req.prevLogIndex.toNat req.entries → Pending req n.log n' :=
    fun n' hkept hres =>
      ⟨hres, hkept.lastApplied_nonneg h.lastApplied_nonneg, hkept.term_le h.term_le⟩
  refine (triple_call (n.facing q) req hprev).conseq (fun _ h => h) ?_ ?_
  · intro b n' hret hfails
    cases b with
    | false =>
        rcases hret.refused rfl with hstale | hmis'
        · exact absurd hstale (not_lt.mpr h.term_le)
        · exact absurd (hmis.symm.trans hmis') (by simp)
    | true =>
        obtain ⟨-, q', hrounds⟩ := hret.taken rfl
        rcases hrounds.resumes hq' hle with hres | ⟨-, hmem⟩
        · exact hpending n' hret.kept hres
        · exact absurd (List.mem_of_mem_drop hmem) hfails
  · intro n' hthrown
    apply hpending n' hthrown.kept
    rcases hthrown.log with hsame | ⟨-, hstop | ⟨q', hrounds, hne⟩⟩
    · rw [hsame]
      exact Resumes.refl hle
    · exact hstop.resumes hq' hle
    · rcases hrounds.resumes hq' hle with hres | ⟨hnil, -⟩
      · exact hres
      · exact absurd hnil (hne h.lastApplied_nonneg)

/-- What is left of the call after two interruptions. -/
theorem Pending.trans {n' : RaftNode Id} (h : Resumes n.log l req.prevLogIndex.toNat req.entries)
    (h' : Pending req n.log n') : Pending req l n' :=
  ⟨h.trans h'.resumes, h'.lastApplied_nonneg, h'.term_le⟩

/-- A restart forgets the term, and a call of a term that is not negative is not
stale then. -/
theorem Pending.restart [DecidableEq Id] (h : Pending req l n) (hterm : 0 ≤ req.term) :
    Pending req l n.restart := by
  refine ⟨h.resumes, ?_, hterm⟩
  show 0 ≤ (SQLiteStorage.create (some n.storage.db)).lastApplied
  rw [lastApplied_reopen]
  exact h.lastApplied_nonneg

/-- One cut call. -/
theorem Pending.deliver [DecidableEq Id] (h : Pending req l n) (hprev : 0 ≤ req.prevLogIndex)
    (hterm : 0 ≤ req.term) (hmis : mismatch l req.prevLogIndex req.prevLogTerm = false)
    {c : Cut} (hc : c.CutsShort req n) : Pending req l (c.deliver req n) := by
  have hself : Pending req n.log n :=
    ⟨Resumes.refl h.resumes.le_length, h.lastApplied_nonneg, h.term_le⟩
  have htriple := triple_delivery hprev c.lastFails_outcomes hself
    (mismatch_of_resumes hprev h.resumes hmis)
  cases c with
  | dies k =>
      have hfails : .fails ∉ (Cut.dies k).outcomes := faultless_dying k
      have hfinal := (htriple.post fun _ _ hn => hn hfails).finalState rfl
      exact (Pending.trans h.resumes hfinal).restart hterm
  | throws k =>
      obtain ⟨e, n', hrun⟩ := hc
      have hfinal : Cut.deliver req n (.throws k) = n' := Exec.finalState_error hrun
      rw [hfinal]
      exact Pending.trans h.resumes (htriple.error rfl hrun)

/-- **Interrupted appends are repaired by redelivery.**  A call that would be
accepted is cut short any number of times.  After each cut, and so at every
moment of the calls, the log up to `prevLogIndex` is unchanged and its indices
are `1, 2, …`; and the call, delivered once more without a cut, answers `true`
with the log that one uninterrupted call would have produced. -/
theorem repairs [DecidableEq Id] (n : RaftNode Id) (h : n.Healthy) (ha : 0 ≤ n.lastApplied)
    (req : AppendEntriesRequest Id) (hprev : 0 ≤ req.prevLogIndex) (hterm : 0 ≤ req.term)
    {n₁ : RaftNode Id} (hacc : (appendEntries req).run n = .ok true n₁) (cuts : List Cut)
    (hcuts : Run.Along (Cut.deliver req) (Cut.CutsShort req) n cuts) :
    let last := Run.run (Cut.deliver req) n cuts
    last.log.take req.prevLogIndex.toNat = n.log.take req.prevLogIndex.toNat ∧
      last.storage.db.logs.rows.map LogRow.index
        = (List.range last.log.length).map (fun i : ℕ => 1 + (i : ℤ)) ∧
      ∃ n', (appendEntries req).run (last.facing []) = .ok true n' ∧ n'.log = n₁.log := by
  intro last
  obtain ⟨haccepts, rfl⟩ := (run_appendEntries_eq_true h ha req).mp hacc
  obtain ⟨hstale, hmis, -⟩ := (accepts_iff req).mp haccepts
  have hstart : Pending req n.log n :=
    ⟨Resumes.refl (prevLogIndex_le_of_accepts haccepts), ha, hstale⟩
  have hlast : Pending req n.log last :=
    Run.along_invariant (P := Pending req n.log)
      (fun m c hm hc => hm.deliver hprev hterm hmis hc) hstart hcuts
  refine ⟨hlast.resumes.take_eq, ?_, ?_⟩
  · rw [LogTable.rows_eq, map_index_number]
    rfl
  · have hrun := run_appendEntries_of_accept (n := last.facing []) rfl
      hlast.lastApplied_nonneg (not_lt.mpr hlast.term_le)
      (mismatch_of_resumes hprev hlast.resumes hmis) hprev
    refine ⟨_, hrun, ?_⟩
    rw [log_merged, log_merged]
    exact hlast.resumes.splice_eq

/-- A node that holds an entry of a lost leader. -/
def halfMerged : RaftNode ℕ :=
  (fresh 0 [1, 2]).after
    [.appendEntries ⟨1, 1, 0, 0, [⟨1, "a", "1"⟩, ⟨1, "x", "1"⟩], 0⟩]

/-- A call that replaces it by two others. -/
def replacing : AppendEntriesRequest ℕ :=
  ⟨2, 2, 1, 1, [⟨2, "b", "1"⟩, ⟨2, "c", "1"⟩], 0⟩

/-- The process dies after the delete, and in the second attempt the second append
throws. -/
theorem repairs_replacing :
    let last := Run.run (Cut.deliver replacing) halfMerged [.dies 5, .throws 5]
    last.log = [⟨1, "a", "1"⟩, ⟨2, "b", "1"⟩] ∧
      ∃ n', (appendEntries replacing).run (last.facing []) = .ok true n' ∧
        n'.log = [⟨1, "a", "1"⟩, ⟨2, "b", "1"⟩, ⟨2, "c", "1"⟩] := by
  intro last
  have hsane : halfMerged.Sane := (sane_fresh 0 [1, 2]).after _
  have hacc := (run_appendEntries_eq_true hsane.healthy hsane.lastApplied_nonneg replacing).mpr
    ⟨by decide +kernel, rfl⟩
  have hcuts : Run.Along (Cut.deliver replacing) (Cut.CutsShort replacing) halfMerged
      [.dies 5, .throws 5] := by
    refine ⟨trivial, ⟨_, _, rfl⟩, trivial⟩
  obtain ⟨-, -, n', hrun, hlog⟩ := repairs halfMerged hsane.healthy hsane.lastApplied_nonneg
    replacing (by decide) (by decide) hacc [.dies 5, .throws 5] hcuts
  refine ⟨by decide +kernel, n', hrun, hlog.trans ?_⟩
  decide +kernel

end Redelivery

/-! ## What an answer `true` says -/

section Answer

variable {req : AppendEntriesRequest Id} {n n' : RaftNode Id}

/-- The log has at each index of the call an entry of the right term. -/
def Present (n : RaftNode Id) (req : AppendEntriesRequest Id) : Prop :=
  ∀ (i : ℕ) (e : LogEntry), req.entries[i]? = some e →
    ∃ x, SQLiteStorage.entryAt n.log (req.prevLogIndex + 1 + i) = some x ∧ x.term = e.term

/-- The entries of a request are in place exactly where they are present. -/
theorem inPlace_iff_present (hprev : 0 ≤ req.prevLogIndex) :
    InPlace n.log req.prevLogIndex.toNat req.entries ↔ Present n req := by
  have hentry : ∀ i : ℕ, SQLiteStorage.entryAt n.log (req.prevLogIndex + 1 + i)
      = n.log[req.prevLogIndex.toNat + i]? := by
    intro i
    rw [← entryAt_succ]
    congr 1
    push_cast
    omega
  unfold InPlace Present
  simp only [hentry]

/-- **An answer `true` means that the entries are there exactly when** the delete
the call needs does not fail. -/
theorem present_iff (n : RaftNode Id) (req : AppendEntriesRequest Id)
    (hprev : 0 ≤ req.prevLogIndex) {n' : RaftNode Id}
    (hrun : (appendEntries req).run n = .ok true n') :
    Present n' req ↔ ¬ DeleteFails n.log req.prevLogIndex.toNat req.entries
      (n.pending.drop (checks req.prevLogIndex)) := by
  have hret := (triple_call n req hprev).ok rfl hrun
  obtain ⟨hmis, q', hrounds⟩ := hret.taken rfl
  have hle := (mismatch_eq_false_iff.mp hmis).1
  rw [← inPlace_iff_present hprev]
  exact hrounds.inPlace_iff (by omega)

/-- The delete of `replacing` is its fifth statement; when it fails, the old entry
stays. -/
theorem present_replacing_clash :
    ∃ n', (appendEntries Redelivery.replacing).run
        (Redelivery.halfMerged.facing (List.replicate 4 .succeeds ++ [.fails])) = .ok true n' ∧
      n'.log = [⟨1, "a", "1"⟩, ⟨1, "x", "1"⟩, ⟨2, "b", "1"⟩] ∧
      ¬ Present n' Redelivery.replacing := by
  obtain ⟨n', hrun, hlog⟩ : ∃ n', (appendEntries Redelivery.replacing).run
      (Redelivery.halfMerged.facing (List.replicate 4 .succeeds ++ [.fails])) = .ok true n' ∧
      n'.log = [⟨1, "a", "1"⟩, ⟨1, "x", "1"⟩, ⟨2, "b", "1"⟩] :=
    ⟨_, rfl, by decide +kernel⟩
  refine ⟨n', hrun, hlog, fun hpresent => ?_⟩
  obtain ⟨x, hx, hterm⟩ := hpresent 0 ⟨2, "b", "1"⟩ rfl
  rw [hlog] at hx
  cases hx
  exact absurd hterm (by decide)

/-- Another statement fails: the read of the commit index. -/
theorem present_replacing :
    ∃ n', (appendEntries Redelivery.replacing).run
        (Redelivery.halfMerged.facing (List.replicate 8 .succeeds ++ [.fails])) = .ok true n' ∧
      Present n' Redelivery.replacing := by
  obtain ⟨n', hrun⟩ : ∃ n', (appendEntries Redelivery.replacing).run
      (Redelivery.halfMerged.facing (List.replicate 8 .succeeds ++ [.fails])) = .ok true n' :=
    ⟨_, rfl⟩
  exact ⟨n', hrun, (present_iff _ _ (by decide) hrun).mpr (by decide +kernel)⟩

end Answer

end KVStore
