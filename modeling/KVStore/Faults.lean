/-
# Nodes on a database whose statements may fail

Each statement of a method succeeds, throws an `SQLException` or never happens
because the process dies.  This module says what every method of a node keeps
under any such pattern, as triples over the part of the node that survives the
process (`Durable`).

Where an invariant needs certain statements to succeed, a `Guard` names them: the
reads of the commit index that decide how far to commit, and the statements of
`applyCommittedEntries`.  `meets` says that an event keeps to the guard.
-/
import KVStore.Hoare
import KVStore.Events

namespace KVStore

open Exec

/-! ## The durable part of a node -/

/-- What a node has stored. -/
@[ext]
structure Durable where
  log : List LogEntry
  commitIndex : ℤ
  lastApplied : ℤ
  kvStore : String → Option String

namespace RaftNode

variable {Id : Type}

def durable (n : RaftNode Id) : Durable := ⟨n.log, n.commitIndex, n.lastApplied, n.kvStore⟩

@[simp] theorem log_durable (n : RaftNode Id) : n.durable.log = n.log := rfl
@[simp] theorem commitIndex_durable (n : RaftNode Id) :
    n.durable.commitIndex = n.commitIndex := rfl
@[simp] theorem lastApplied_durable (n : RaftNode Id) :
    n.durable.lastApplied = n.lastApplied := rfl
@[simp] theorem kvStore_durable (n : RaftNode Id) : n.durable.kvStore = n.kvStore := rfl

/-- The fate of the statements to come. -/
def pending (n : RaftNode Id) : List Outcome := n.storage.pending

/-- The node, its next statements facing the given outcomes. -/
def facing (n : RaftNode Id) (outcomes : List Outcome) : RaftNode Id :=
  n.setStorage ⟨n.storage.db, outcomes⟩

/-- The node after one statement that left the database as `db`. -/
def issued (n : RaftNode Id) (db : Database) : RaftNode Id :=
  n.setStorage ⟨db, n.pending.tail⟩

variable {n : RaftNode Id}

section Writes

/-- What `setLastApplied` leaves in the tables. -/
theorem durable_setLastApplied (a : ℤ) :
    (n.issued { n.storage.db with
      state := n.storage.db.state.updateAll fun r => { r with lastApplied := a } }).durable
      = { n.durable with lastApplied := a } :=
  Durable.ext rfl (n.storage.commitIndex_withLastApplied a)
    (n.storage.lastApplied_withLastApplied a) rfl

/-- What `setCommitIndex` leaves in the tables. -/
theorem durable_setCommitIndex (c : ℤ) :
    (n.issued { n.storage.db with
      state := n.storage.db.state.updateAll fun r => { r with commitIndex := c } }).durable
      = { n.durable with commitIndex := c } :=
  Durable.ext rfl (n.storage.commitIndex_withCommitIndex c)
    (n.storage.lastApplied_withCommitIndex c) rfl

/-- What `appendLogEntry` leaves in the tables. -/
theorem durable_appendLogEntry (e : LogEntry) :
    (n.issued { n.storage.db with logs := n.storage.db.logs.insert e }).durable
      = { n.durable with log := n.log ++ [e] } :=
  Durable.ext (LogTable.entries_insert _ _) rfl rfl rfl

/-- What `deleteLogEntriesFrom` leaves in the tables. -/
theorem durable_deleteLogEntriesFrom (i : ℤ) :
    (n.issued { n.storage.db with logs := n.storage.db.logs.deleteFrom i }).durable
      = { n.durable with log := n.log.take (i - 1).toNat } :=
  Durable.ext (LogTable.entries_deleteFrom _ _) rfl rfl rfl

end Writes

/-! ## Single statements -/

section Statements

variable {α : Type} {P : RaftNode Id → Prop} {Q : α → RaftNode Id → Prop}
  {E : RaftNode Id → Prop}

/-- A statement whose failure is rethrown. -/
theorem triple_rethrow {message : String} {f : Database → α × Database}
    (hok : ∀ n, P n → n.pending.head? ≠ some .fails → n.pending.head? ≠ some .crashes →
      Q (f n.storage.db).1 (n.issued (f n.storage.db).2))
    (herr : ∀ n, P n → n.pending.head? = some .fails ∨ n.pending.head? = some .crashes →
      E (n.issued n.storage.db)) :
    Triple P (onStorage (SQLiteStorage.rethrow message (SQLiteStorage.execute f)) : Method Id α)
      Q E := by
  intro n hn
  have hok' := hok n hn
  have herr' := herr n hn
  rcases n with ⟨nodeId, peers, nodup, ⟨db, pending⟩, rest⟩
  rcases pending with _ | ⟨outcome, pending⟩
  · exact hok' (by simp [RaftNode.pending]) (by simp [RaftNode.pending])
  · cases outcome with
    | succeeds => exact hok' (by simp [RaftNode.pending]) (by simp [RaftNode.pending])
    | fails => exact herr' (Or.inl rfl)
    | crashes => exact herr' (Or.inr rfl)

/-- A statement whose failure is printed and passed over. -/
theorem triple_printStackTrace {default : α} {f : Database → α × Database}
    (hok : ∀ n, P n → n.pending.head? ≠ some .fails → n.pending.head? ≠ some .crashes →
      Q (f n.storage.db).1 (n.issued (f n.storage.db).2))
    (hfail : ∀ n, P n → n.pending.head? = some .fails → Q default (n.issued n.storage.db))
    (hcrash : ∀ n, P n → n.pending.head? = some .crashes → E (n.issued n.storage.db)) :
    Triple P
      (onStorage (SQLiteStorage.printStackTrace default (SQLiteStorage.execute f)) : Method Id α)
      Q E := by
  intro n hn
  have hok' := hok n hn
  have hfail' := hfail n hn
  have hcrash' := hcrash n hn
  rcases n with ⟨nodeId, peers, nodup, ⟨db, pending⟩, rest⟩
  rcases pending with _ | ⟨outcome, pending⟩
  · exact hok' (by simp [RaftNode.pending]) (by simp [RaftNode.pending])
  · cases outcome with
    | succeeds => exact hok' (by simp [RaftNode.pending]) (by simp [RaftNode.pending])
    | fails => exact hfail' rfl
    | crashes => exact hcrash' rfl

end Statements

/-- A method of the storage that issues two statements. -/
theorem onStorage_bind {α β : Type} (x : EStateM JavaException SQLiteStorage α)
    (f : α → EStateM JavaException SQLiteStorage β) :
    (onStorage (x >>= f) : Method Id β) = onStorage x >>= fun a => onStorage (f a) := by
  funext n
  show (onStorage (x >>= f)).run n = (onStorage x >>= fun a => onStorage (f a)).run n
  unfold onStorage
  rw [run_zoom]
  rcases h : x.run n.storage with ⟨a, s⟩ | ⟨e, s⟩
  · rw [run_bind_ok h, run_bind_ok (run_zoom_ok h), run_zoom]
    rfl
  · rw [run_bind_error h, EStateM.run_bind, run_zoom, h]

/-! ## Statements that only read -/

/-- A statement that changes nothing keeps `P`. -/
def Lasts (P : RaftNode Id → Prop) : Prop := ∀ n, P n → P (n.issued n.storage.db)

section Reads

variable {α : Type} {P E : RaftNode Id → Prop} (hP : Lasts P) (hE : ∀ n, P n → E n)
include hP hE

/-- The last index is the length of the log. -/
theorem triple_getLastLogIndex :
    Triple P (onStorage SQLiteStorage.getLastLogIndex)
      (fun i n => P n ∧ i = n.log.length) E :=
  triple_rethrow (fun n hn _ _ => ⟨hP n hn, LogTable.maxIndex_getD _⟩)
    (fun n hn _ => hE _ (hP n hn))

/-- A read of the log finds the entry at the index, if there is one. -/
theorem triple_getLogEntry (i : ℤ) :
    Triple P (onStorage (SQLiteStorage.getLogEntry i))
      (fun e n => P n ∧ e = SQLiteStorage.entryAt n.log i) E :=
  triple_rethrow (fun n hn _ _ => ⟨hP n hn, LogTable.selectIndex_eq _ _⟩)
    (fun n hn _ => hE _ (hP n hn))

/-- A read of a range finds the stretch of the log. -/
theorem triple_getLogEntries (i j : ℤ) :
    Triple P (onStorage (SQLiteStorage.getLogEntries i j))
      (fun es n => P n ∧ es = (n.log.take j.toNat).drop (i - 1).toNat) E :=
  triple_rethrow (fun n hn _ _ => ⟨hP n hn, LogTable.selectRange_eq _ _ _⟩)
    (fun n hn _ => hE _ (hP n hn))

/-- A failed read of the commit index yields `0`. -/
theorem triple_getCommitIndex :
    Triple P (onStorage SQLiteStorage.getCommitIndex) (fun _ n => P n) E :=
  triple_printStackTrace (fun n hn _ _ => hP n hn) (fun n hn _ => hP n hn)
    (fun n hn _ => hE _ (hP n hn))

/-- A failed read of the commit index yields `0`, and is met only where `F` holds. -/
theorem triple_getCommitIndex_or {F : RaftNode Id → Prop} (hF : Lasts F) :
    Triple (fun n => P n ∧ (n.pending.head? = some .fails → F n))
      (onStorage SQLiteStorage.getCommitIndex)
      (fun c n => P n ∧ (c = n.commitIndex ∨ c = 0 ∧ F n)) E :=
  triple_printStackTrace (fun n hn _ _ => ⟨hP n hn.1, Or.inl rfl⟩)
    (fun n hn hfail => ⟨hP n hn.1, Or.inr ⟨rfl, hF n (hn.2 hfail)⟩⟩)
    (fun n hn _ => hE _ (hP n hn.1))

/-- A read of the commit index that may fail only where the index is `0`. -/
theorem triple_getCommitIndex_of_spared :
    Triple (fun n => P n ∧ (n.pending.head? = some .fails → n.commitIndex = 0))
      (onStorage SQLiteStorage.getCommitIndex) (fun c n => P n ∧ c = n.commitIndex) E := by
  refine (triple_getCommitIndex_or hP hE (F := fun n => n.commitIndex = 0) fun _ h => h).post ?_
  rintro c n ⟨hn, hc | ⟨rfl, hzero⟩⟩
  · exact ⟨hn, hc⟩
  · exact ⟨hn, hzero.symm⟩

/-- A read of the table, failed or not, changes nothing. -/
theorem triple_get (key : String) :
    Triple P (onStorage (SQLiteStorage.get key)) (fun _ n => P n) E :=
  triple_printStackTrace (fun n hn _ _ => hP n hn) (fun n hn _ => hP n hn)
    (fun n hn _ => hE _ (hP n hn))

omit hP in
/-- Past a null check there is a value. -/
theorem triple_nonNull (a : Option α) :
    Triple P (nonNull a) (fun b n => P n ∧ a = some b) E := by
  cases a with
  | none => exact Triple.throw hE
  | some b => exact Triple.pure fun n hn => ⟨hn, rfl⟩

/-- The log check, as a function of the log. -/
theorem triple_logMismatch (i t : ℤ) :
    Triple P (logMismatch i t) (fun b n => P n ∧ b = mismatch n.log i t) E := by
  rw [logMismatch]
  refine Triple.bind (triple_getLastLogIndex hP hE) fun last => ?_
  split_ifs with hlt hpos
  · exact Triple.pure fun n hn => ⟨hn.1, by simp [mismatch, ← hn.2, hlt]⟩
  · have hP' : Lasts fun n : RaftNode Id => P n ∧ last = n.log.length :=
      fun n hn => ⟨hP n hn.1, hn.2⟩
    refine Triple.bind (triple_getLogEntry hP' (fun n hn => hE n hn.1) i) fun own => ?_
    refine Triple.bind (triple_nonNull (fun n hn => hE n hn.1.1) own) fun own => ?_
    refine Triple.pure fun n hn => ⟨hn.1.1.1, ?_⟩
    obtain ⟨⟨⟨-, hlast⟩, hown⟩, rfl⟩ := hn
    simp [mismatch, ← hlast, ← hown, hlt, hpos]
  · exact Triple.pure fun n hn => ⟨hn.1, by simp [mismatch, ← hn.2, hlt, hpos]⟩

end Reads

/-! ## Applying committed entries -/

/-- None of the next `k` statements fails. -/
def Spared (k : ℕ) (l : List Outcome) : Prop := .fails ∉ l.take k

instance (k : ℕ) (l : List Outcome) : Decidable (Spared k l) :=
  inferInstanceAs (Decidable (_ ∉ _))

/-- The first of the spared statements does not fail. -/
theorem Spared.head {k : ℕ} {l : List Outcome} (h : Spared (k + 1) l) : l.head? ≠ some .fails := by
  cases l with
  | nil => simp
  | cons o l =>
      intro hc
      rw [List.head?_cons, Option.some.injEq] at hc
      exact h (by simp [hc])

/-- The others are spared too. -/
theorem Spared.tail {k : ℕ} {l : List Outcome} (h : Spared (k + 1) l) : Spared k l.tail := by
  cases l with
  | nil => simp [Spared]
  | cons o l => exact fun hc => h (List.mem_cons_of_mem _ hc)

end RaftNode

/-- The table with the entries up to index `i` applied on top of it. -/
def Durable.upTo (d : Durable) (i : ℕ) : Durable :=
  { d with kvStore := replayLog d.kvStore ((d.log.take i).drop d.lastApplied.toNat) }

/-- Everything committed is applied and recorded as applied. -/
def Durable.applied (d : Durable) : Durable :=
  { d.upTo d.commitIndex.toNat with lastApplied := max d.lastApplied d.commitIndex }

/-- Up to `lastApplied` there is nothing left to apply. -/
theorem Durable.upTo_lastApplied {d : Durable} : d.upTo d.lastApplied.toNat = d := by
  have hnil : (d.log.take d.lastApplied.toNat).drop d.lastApplied.toNat = [] := by
    rw [List.drop_eq_nil_iff, List.length_take]
    omega
  rw [upTo, hnil]
  rfl

/-- Applying one more entry. -/
theorem Durable.upTo_succ {d : Durable} {i : ℕ} (hi : d.lastApplied.toNat ≤ i) {e : LogEntry}
    (he : d.log[i]? = some e) :
    { d.upTo i with kvStore := Function.update (d.upTo i).kvStore e.key (some e.value) }
      = d.upTo (i + 1) := by
  have hlt : i < d.log.length := (List.getElem?_eq_some_iff.mp he).1
  have hsplit : (d.log.take (i + 1)).drop d.lastApplied.toNat
      = (d.log.take i).drop d.lastApplied.toNat ++ [e] := by
    rw [List.take_add_one, he, Option.toList_some, List.drop_append_of_le_length]
    rw [List.length_take]
    omega
  have hkv : (d.upTo (i + 1)).kvStore
      = Function.update (d.upTo i).kvStore e.key (some e.value) := by
    show replayLog d.kvStore ((d.log.take (i + 1)).drop d.lastApplied.toNat) = _
    rw [hsplit]
    exact Replay.replay_append _ _ _ _ _
  exact Durable.ext rfl rfl rfl hkv.symm

/-- The loop ends at the commit index, or has no round. -/
theorem Durable.upTo_rounds {d : Durable} (h0 : 0 ≤ d.lastApplied) :
    d.upTo (d.lastApplied.toNat + (d.commitIndex - d.lastApplied).toNat)
      = d.upTo d.commitIndex.toNat := by
  rcases le_total d.lastApplied d.commitIndex with hle | hle
  · rw [show d.lastApplied.toNat + (d.commitIndex - d.lastApplied).toNat = d.commitIndex.toNat
      by omega]
  · -- nothing was left to apply
    unfold Durable.upTo
    rw [List.drop_eq_nil_iff.mpr, List.drop_eq_nil_iff.mpr]
    · rw [List.length_take]
      omega
    · rw [List.length_take]
      omega

namespace RaftNode

variable {Id : Type}

section Apply

variable {d : Durable} {p : List Outcome → Prop} {F E : RaftNode Id → Prop}

/-- The table is being brought up to date, from the index `d.lastApplied` on: it
stands at index `i`, `b` is still recorded as applied, and none of the next `k`
statements fails. -/
def Applying (d : Durable) (b : ℤ) (p : List Outcome → Prop) (F : RaftNode Id → Prop) (i k : ℕ)
    (n : RaftNode Id) : Prop :=
  n.durable = { d.upTo i with lastApplied := b } ∧ p n.pending ∧ Spared k n.pending ∧ F n

variable (htail : ∀ l, p l → p l.tail) (hF : ∀ n s, F n → F (n.setStorage s))
include htail hF

/-- A statement that leaves the tables alone uses up one outcome. -/
theorem Applying.tail {b : ℤ} {i k : ℕ} {n : RaftNode Id} (h : Applying d b p F i (k + 1) n) :
    Applying d b p F i k (n.issued n.storage.db) :=
  ⟨h.1, htail _ h.2.1, h.2.2.1.tail, hF _ _ h.2.2.2⟩

/-- One round of the loop: entry `i + 1` is read and written to the table. -/
theorem triple_applyRound {b : ℤ} {i k : ℕ} {e : LogEntry} (hi : d.lastApplied.toNat ≤ i)
    (he : d.log[i]? = some e)
    (hE : ∀ n, n.durable = { d.upTo i with lastApplied := b } → p n.pending →
      n.pending.head? = some .crashes → F n → E (n.issued n.storage.db)) :
    Triple (Applying d b p F i (k + 1 + 1))
      (do applyToStateMachine (← onStorage (SQLiteStorage.getLogEntry ((i : ℤ) + 1))))
      (fun _ => Applying d b p F (i + 1) k) E := by
  have hread : Triple (Applying d b p F i (k + 1 + 1))
      (onStorage (SQLiteStorage.getLogEntry ((i : ℤ) + 1)))
      (fun entry n => Applying d b p F i (k + 1) n ∧ entry = some e) E := by
    refine triple_rethrow (fun n hn _ _ => ⟨hn.tail htail hF, ?_⟩) (fun n hn herr => ?_)
    · have hlog : n.storage.db.logs.entries = d.log := congrArg Durable.log hn.1
      show n.storage.db.logs.selectIndex _ = _
      rw [LogTable.selectIndex_eq, hlog, if_pos (by omega), ← he]
      congr 1
      omega
    · rcases herr with hfail | hcrash
      · exact absurd hfail hn.2.2.1.head
      · exact hE n hn.1 hn.2.1 hcrash hn.2.2.2
  refine hread.bind fun entry => Triple.of_forall fun m hm => ?_
  obtain ⟨hm, rfl⟩ := hm
  refine Triple.pre (P := Applying d b p F i (k + 1)) ?_ fun n hn => hn ▸ hm
  refine triple_printStackTrace (fun n hn _ _ => ?_)
    (fun n hn hfail => absurd hfail hn.2.2.1.head)
    (fun n hn hcrash => hE n hn.1 hn.2.1 hcrash hn.2.2.2)
  refine ⟨?_, htail _ hn.2.1, hn.2.2.1.tail, hF _ _ hn.2.2.2⟩
  rw [← Durable.upTo_succ hi he]
  exact congrArg (fun d' : Durable => { d' with
    kvStore := Function.update d'.kvStore e.key (some e.value) }) hn.1

section Loop

variable {b : ℤ} (hE : ∀ n i, d.lastApplied.toNat ≤ i →
    (i : ℤ) ≤ max d.lastApplied d.commitIndex →
    n.durable = { d.upTo i with lastApplied := b } → p n.pending →
    n.pending.head? = some .crashes → F n → E (n.issued n.storage.db))
  (h0 : 0 ≤ d.lastApplied) (hc : d.commitIndex ≤ d.log.length)
include hE h0 hc

/-- The loop of `applyCommittedEntries` when no statement fails. -/
theorem triple_applyLoop (r : ℕ) : ∀ rounds i : ℕ, d.lastApplied.toNat ≤ i →
    (i + rounds : ℤ) ≤ max d.lastApplied d.commitIndex →
    Triple (Applying d b p F i (2 * rounds + r)) (applyLoop i rounds)
      (fun a n => a = (i + rounds : ℕ) ∧ Applying d b p F (i + rounds) r n) E := by
  intro rounds
  induction rounds with
  | zero =>
      intro i _ _
      refine Triple.pure fun n hn => ⟨rfl, ?_⟩
      simpa using hn
  | succ rounds ih =>
      intro i hi hle
      have hlt : i < d.log.length := by omega
      have hround := triple_applyRound (k := 2 * rounds + r) htail hF hi
        (List.getElem?_eq_getElem hlt) fun n => hE n i hi (by omega)
      have hrest := ih (i + 1) (by omega) (by push_cast; omega)
      rw [show i + 1 + rounds = i + (rounds + 1) by omega] at hrest
      rw [show 2 * (rounds + 1) + r = 2 * rounds + r + 1 + 1 by omega, applyLoop, ← bind_assoc]
      exact hround.bind fun _ => by exact_mod_cast hrest

/-- The loop and the statement that records how far it went. -/
theorem triple_applyLoop_record (rounds : ℕ)
    (hle : d.lastApplied + rounds ≤ max d.lastApplied d.commitIndex) :
    Triple
      (fun n => n.durable = { d with lastApplied := b } ∧ p n.pending ∧
        Spared (2 * rounds + 1) n.pending ∧ F n)
      (do onStorage (SQLiteStorage.setLastApplied (← applyLoop d.lastApplied rounds)))
      (fun _ n => n.durable = { d.upTo (d.lastApplied.toNat + rounds) with
          lastApplied := d.lastApplied + rounds } ∧ p n.pending ∧ F n) E := by
  have hloop := triple_applyLoop htail hF hE h0 hc 1 rounds d.lastApplied.toNat le_rfl (by omega)
  rw [Int.toNat_of_nonneg h0] at hloop
  refine Triple.bind (Triple.pre hloop ?_) fun a => ?_
  · rintro n ⟨hd, hrest⟩
    refine ⟨hd.trans ?_, hrest⟩
    rw [Durable.upTo_lastApplied]
  refine triple_printStackTrace (fun n hn _ _ => ?_)
    (fun n hn hfail => absurd hfail hn.2.2.2.1.head)
    (fun n hn hcrash =>
      hE n _ (Nat.le_add_right _ _) (by omega) hn.2.1 hn.2.2.1 hcrash hn.2.2.2.2)
  obtain ⟨ha, hd, hp, -, hf⟩ := hn
  refine ⟨?_, htail _ hp, hF _ _ hf⟩
  have hsum : a = d.lastApplied + rounds := by
    rw [ha]
    push_cast
    omega
  show (n.issued { n.storage.db with
      state := n.storage.db.state.updateAll fun r => { r with lastApplied := a } }).durable = _
  rw [durable_setLastApplied, hd, hsum]

end Loop

/-- **`applyCommittedEntries` when no statement fails**: it finishes, or the
process dies with the table brought up to some index. -/
theorem triple_applyCommittedEntries
    (hE : ∀ n i, d.lastApplied.toNat ≤ i → (i : ℤ) ≤ max d.lastApplied d.commitIndex →
      n.durable = d.upTo i → p n.pending → n.pending.head? = some .crashes → F n →
      E (n.issued n.storage.db))
    (h0 : 0 ≤ d.lastApplied) (hc : d.commitIndex ≤ d.log.length) :
    Triple
      (fun n => n.durable = d ∧ p n.pending ∧
        Spared (2 * (d.commitIndex - d.lastApplied).toNat + 3) n.pending ∧ F n)
      applyCommittedEntries
      (fun _ n => n.durable = d.applied ∧ p n.pending ∧ F n) E := by
  set rounds := (d.commitIndex - d.lastApplied).toNat with hrounds
  -- the two reads see what is stored
  have hdies : ∀ n : RaftNode Id, n.durable = d → p n.pending →
      n.pending.head? = some .crashes → F n → E (n.issued n.storage.db) :=
    fun n hd => hE n _ le_rfl (by omega) (hd.trans Durable.upTo_lastApplied.symm)
  have hlast : Triple
      (fun n => n.durable = d ∧ p n.pending ∧ Spared (2 * rounds + 1 + 1 + 1) n.pending ∧ F n)
      (onStorage SQLiteStorage.getLastApplied)
      (fun a n => a = d.lastApplied ∧ n.durable = d ∧ p n.pending ∧
        Spared (2 * rounds + 1 + 1) n.pending ∧ F n) E :=
    triple_printStackTrace
      (fun n hn _ _ => ⟨congrArg Durable.lastApplied hn.1, hn.1, htail _ hn.2.1,
        hn.2.2.1.tail, hF _ _ hn.2.2.2⟩)
      (fun n hn hfail => absurd hfail hn.2.2.1.head)
      (fun n hn hcrash => hdies n hn.1 hn.2.1 hcrash hn.2.2.2)
  refine hlast.bind fun a => ?_
  have hcommit : Triple
      (fun n => a = d.lastApplied ∧ n.durable = d ∧ p n.pending ∧
        Spared (2 * rounds + 1 + 1) n.pending ∧ F n)
      (onStorage SQLiteStorage.getCommitIndex)
      (fun c n => (a = d.lastApplied ∧ c = d.commitIndex) ∧ n.durable = d ∧ p n.pending ∧
        Spared (2 * rounds + 1) n.pending ∧ F n) E :=
    triple_printStackTrace
      (fun n hn _ _ => ⟨⟨hn.1, congrArg Durable.commitIndex hn.2.1⟩, hn.2.1, htail _ hn.2.2.1,
        hn.2.2.2.1.tail, hF _ _ hn.2.2.2.2⟩)
      (fun n hn hfail => absurd hfail hn.2.2.2.1.head)
      (fun n hn hcrash => hdies n hn.2.1 hn.2.2.1 hcrash hn.2.2.2.2)
  refine hcommit.bind fun c => Triple.of_forall fun m hm => ?_
  obtain ⟨⟨rfl, rfl⟩, hm⟩ := hm
  refine Triple.post (Triple.pre (triple_applyLoop_record (b := d.lastApplied) htail hF hE h0 hc
    rounds (by omega)) fun n hn => hn ▸ hm) ?_
  rintro _ n ⟨hd, hrest⟩
  refine ⟨hd.trans ?_, hrest⟩
  rw [Durable.upTo_rounds h0, Durable.applied,
    show d.lastApplied + rounds = max d.lastApplied d.commitIndex by omega]

end Apply

/-! ## When an election throws -/

/-- The next statement succeeds. -/
def NextSucceeds (l : List Outcome) : Prop := ∀ outcome ∈ l.head?, outcome = .succeeds

instance (l : List Outcome) : Decidable (NextSucceeds l) :=
  inferInstanceAs (Decidable (∀ outcome ∈ l.head?, _))

/-- The reads of `startElection` succeed: two of the last index, and a third one if the log
has a last entry. -/
def ElectionReads (n : RaftNode Id) : Prop :=
  NextSucceeds n.pending ∧ NextSucceeds n.pending.tail ∧
    (n.log ≠ [] → NextSucceeds n.pending.tail.tail)

instance (n : RaftNode Id) : Decidable n.ElectionReads :=
  inferInstanceAs (Decidable (_ ∧ _ ∧ _))

/-- A read that is rethrown when it fails returns exactly if the next statement succeeds. -/
theorem triple_read_exact {α : Type} {message : String} {column : Database → α}
    (db : Database) (p : List Outcome) :
    Triple (fun n : RaftNode Id => n.storage.db = db ∧ n.pending = p)
      (onStorage (SQLiteStorage.rethrow message (SQLiteStorage.query column)))
      (fun a n => (n.storage.db = db ∧ n.pending = p.tail) ∧ a = column db ∧ NextSucceeds p)
      (fun _ => ¬ NextSucceeds p) := by
  refine triple_rethrow (fun n hn hfail hcrash => ?_) (fun n hn herr hnext => ?_)
  · obtain ⟨rfl, rfl⟩ := hn
    refine ⟨⟨rfl, rfl⟩, rfl, fun outcome hout => ?_⟩
    cases outcome with
    | succeeds => rfl
    | fails => exact absurd hout hfail
    | crashes => exact absurd hout hcrash
  · obtain ⟨-, rfl⟩ := hn
    rcases herr with herr | herr
    · cases hnext _ herr
    · cases hnext _ herr

/-- **An election returns exactly if its reads succeed.** -/
theorem triple_startElection_exact (n : RaftNode Id) :
    Triple (fun m => m = n) startElection (fun _ _ => n.ElectionReads)
      (fun _ => ¬ n.ElectionReads) := by
  have hlen : n.storage.db.logs.maxIndex.getD 0 = n.log.length := LogTable.maxIndex_getD _
  rw [startElection]
  refine Triple.bind (Triple.modify (Q := fun _ m => m.storage.db = n.storage.db ∧
    m.pending = n.pending) ?_) fun _ => ?_
  · rintro m rfl
    exact ⟨rfl, rfl⟩
  -- the last index, read for the request
  refine Triple.bind ((triple_read_exact n.storage.db n.pending).conseq (fun _ h => h)
    (fun _ _ h => h) fun _ h hreads => h hreads.1) fun last => ?_
  rw [SQLiteStorage.getLastLogTerm, onStorage_bind]
  refine Triple.bind (R := fun _ _ => n.ElectionReads) ?_ fun _ => Triple.pure fun _ h => h
  -- the last index, read for the last term
  refine Triple.of_forall fun m hm => ?_
  obtain ⟨hm, -, hfirst⟩ := hm
  refine Triple.bind ((triple_read_exact n.storage.db n.pending.tail).conseq
    (fun t ht => ht ▸ hm) (fun _ _ h => h) fun _ h hreads => h hreads.2.1) fun last => ?_
  refine Triple.of_forall fun m' hm' => ?_
  obtain ⟨hm', rfl, hsecond⟩ := hm'
  rw [hlen]
  split_ifs with hpos
  · have hne : n.log ≠ [] := by
      rintro hnil
      rw [hnil] at hpos
      exact absurd hpos (by decide)
    rw [onStorage_bind]
    refine Triple.bind ((triple_read_exact n.storage.db n.pending.tail.tail).conseq
      (fun t ht => ht ▸ hm') (fun _ _ h => h) fun _ h hreads => h (hreads.2.2 hne)) fun entry => ?_
    cases entry with
    | none => exact Triple.pure fun t ht => ⟨hfirst, hsecond, fun _ => ht.2.2⟩
    | some entry => exact Triple.pure fun t ht => ⟨hfirst, hsecond, fun _ => ht.2.2⟩
  · refine Triple.pure fun t _ => ⟨hfirst, hsecond, fun hne => ?_⟩
    have := List.length_pos_iff.mpr hne
    omega

/-- Of a process that does not die. -/
theorem nextSucceeds_iff {l : List Outcome} (h : .crashes ∉ l) :
    NextSucceeds l ↔ l.head? ≠ some .fails := by
  constructor
  · intro hnext hfails
    cases hnext _ hfails
  · intro hhead outcome hout
    cases outcome with
    | succeeds => rfl
    | fails => exact absurd hout hhead
    | crashes => exact absurd (List.mem_of_head? hout) h

/-- The next statement is spared, and the `k` after it. -/
theorem spared_succ {k : ℕ} {l : List Outcome} :
    Spared (k + 1) l ↔ l.head? ≠ some .fails ∧ Spared k l.tail := by
  constructor
  · exact fun h => ⟨h.head, h.tail⟩
  · rintro ⟨hhead, htail⟩
    cases l with
    | nil => exact List.not_mem_nil
    | cons outcome l =>
        rintro hmem
        rcases List.mem_cons.mp hmem with rfl | hmem
        · exact hhead rfl
        · exact htail hmem

/-- Where the process survives, an election needs its two or three reads spared. -/
theorem electionReads_iff_spared {n : RaftNode Id} (h : .crashes ∉ n.pending) :
    n.ElectionReads ↔ Spared (if n.log = [] then 2 else 3) n.pending := by
  have h' : Outcome.crashes ∉ n.pending.tail := fun hc => h (List.mem_of_mem_tail hc)
  have h'' : Outcome.crashes ∉ n.pending.tail.tail := fun hc => h' (List.mem_of_mem_tail hc)
  have hdone : ∀ l : List Outcome, Spared 0 l := fun _ => List.not_mem_nil
  unfold ElectionReads
  rw [nextSucceeds_iff h, nextSucceeds_iff h', nextSucceeds_iff h'']
  split_ifs with hlog
  · simp [spared_succ, hdone, hlog]
  · simp [spared_succ, hdone, hlog]

/-! ## Guards -/

end RaftNode

/-- Conditions on the statements to come, asked where the commit index is read to
decide how far to commit, and where `applyCommittedEntries` begins. -/
structure Guard where
  read : SQLiteStorage → Bool
  apply : SQLiteStorage → Bool

namespace Guard

open RaftNode

variable {Id : Type} (G : Guard)

/-- `setCommitIndex(x); applyCommittedEntries();` keeps to the guard. -/
def commit (x : ℤ) : RaftNode Id → Bool :=
  afterOk (onStorage (SQLiteStorage.setCommitIndex x)) fun _ n => G.apply n.storage

/-- A failed read is harmless if the call commits nothing anyway, or nothing below
what is committed. -/
def followCommit (leaderCommit : ℤ) (n : RaftNode Id) : Bool :=
  (G.read n.storage || decide (leaderCommit ≤ 0) ||
      decide (n.commitIndex ≤ min leaderCommit n.log.length)) &&
    afterOk (onStorage SQLiteStorage.getCommitIndex) (fun c n =>
      if leaderCommit > c then
        afterOk (onStorage SQLiteStorage.getLastLogIndex)
          (fun last n => G.commit (min leaderCommit last) n) n
      else true) n

def appendEntries (req : AppendEntriesRequest Id) (n : RaftNode Id) : Bool :=
  if req.term < n.state.currentTerm then true
  else
    afterOk (logMismatch req.prevLogIndex req.prevLogTerm) (fun refused n =>
      if refused then true
      else afterOk (mergeLoop (req.prevLogIndex + 1) req.entries)
        (fun _ n => G.followCommit req.leaderCommit n) n) (n.observed req.term)

variable [DecidableEq Id]

def tryCommit (i : ℤ) : RaftNode Id → Bool :=
  afterOk (do nonNull (← onStorage (SQLiteStorage.getLogEntry i))) fun entry n =>
    if entry.term = n.state.currentTerm then
      if n.replicationCount i > n.peers.length / 2 then G.commit i n else true
    else true

def commitLoop (i : ℤ) : ℕ → RaftNode Id → Bool
  | 0, _ => true
  | rounds + 1, n =>
      G.tryCommit i n &&
        afterOk (RaftNode.tryCommit i) (fun _ n => commitLoop (i + 1) rounds n) n

def updateCommitIndex : RaftNode Id → Bool :=
  afterOk (onStorage SQLiteStorage.getLastLogIndex) fun last n =>
    G.read n.storage &&
      afterOk (onStorage SQLiteStorage.getCommitIndex)
        (fun c n => G.commitLoop (c + 1) (last - c).toNat n) n

/-- Only the success branch commits. -/
def recordAppendEntries (follower : Id) (success : Bool) (n : RaftNode Id) : Bool :=
  if success then
    afterOk (onStorage SQLiteStorage.getLastLogIndex) (fun last n =>
      afterOk (onStorage SQLiteStorage.getLastLogIndex) (fun last' n =>
        G.updateCommitIndex { n with matchIndex := n.matchIndex.insert follower last' })
        { n with nextIndex := n.nextIndex.insert follower (last + 1) }) n
  else true

def sendAppendEntries (follower : Id) : RaftNode Id → Bool :=
  afterOk (buildAppendEntries follower) fun req n =>
    G.appendEntries req n &&
      afterOk (RaftNode.appendEntries req)
        (fun success n => G.recordAppendEntries follower success n) n

def sendAll : List Id → RaftNode Id → Bool
  | [], _ => true
  | peer :: peers, n =>
      G.sendAppendEntries peer n &&
        afterOk (RaftNode.sendAppendEntries peer) (fun _ n => sendAll peers n) n

def replicateEntry (n : RaftNode Id) : Bool :=
  G.sendAll n.peers n && afterOk (RaftNode.sendAll n.peers) (fun _ n => G.updateCommitIndex n) n

def proposeEntry (key value : String) (n : RaftNode Id) : Bool :=
  if n.state.currentRole ≠ .LEADER then true
  else
    afterOk (onStorage (SQLiteStorage.appendLogEntry ⟨n.state.currentTerm, key, value⟩))
      (fun _ n => afterOk (onStorage SQLiteStorage.getLastLogIndex)
        (fun _ n => G.replicateEntry n) n) n

/-- The event keeps to the guard. -/
def meets (n : RaftNode Id) : Event Id → Bool
  | .put key value => G.proposeEntry key value n
  | .sendAppendEntries follower => G.sendAppendEntries follower n
  | .appendEntries req => G.appendEntries req n
  | _ => true

end Guard

end KVStore
