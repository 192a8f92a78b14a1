/-
# The SQLite storage of a node (`SQLiteStorage.java`)

Three tables: `kv_store`, the replicated `logs`, and `state` with the commit
bookkeeping.  The `logs` table is kept as its rows in primary-key order, each
with the index the database gave it; that the indices are `1, 2, …, n` without
gaps is carried by the type (`LogTable.contiguous`), because both statements
that change the table keep it.  The `state` table has no key: every opening of
the storage inserts one more row, updates write all rows, reads see the first.

Each method of the class issues one SQL statement.  What SQLite does with the
statements to come is the list `pending`: a statement succeeds, fails with an
`SQLException` that leaves its table unchanged, or never happens because the
process dies.  The empty list stands for a database on which every statement
succeeds (`SQLiteStorage.Healthy`).
-/
import Mathlib.Algebra.Order.Group.Int
import Mathlib.Algebra.Order.Group.Nat
import KVStore.Exec
import KVStore.Replay

namespace KVStore

/-- The log entry message of `raft.proto`.  Its `index` field is set and read
nowhere. -/
structure LogEntry where
  term : ℤ
  key : String
  value : String
  deriving DecidableEq, Repr, Inhabited

/-- What a Java method may throw here. -/
inductive JavaException : Type where
  | sqlException
  | runtimeException (message : String)
  | nullPointerException
  | classCastException
  /-- The process dies: no handler sees it, the database file stays as it is. -/
  | processCrash
  deriving DecidableEq, Repr

/-! ## The `logs` table -/

/-- A row of `logs (index INTEGER PRIMARY KEY, term, key, value)`. -/
structure LogRow where
  index : ℤ
  entry : LogEntry
  deriving DecidableEq, Repr

/-- Number entries consecutively from `k` on. -/
def LogRow.number (k : ℤ) : List LogEntry → List LogRow
  | [] => []
  | e :: es => ⟨k, e⟩ :: LogRow.number (k + 1) es

/-- The `logs` table: its rows in primary-key order, indexed `1, 2, …`. -/
@[ext]
structure LogTable where
  rows : List LogRow
  contiguous : rows = LogRow.number 1 (rows.map LogRow.entry)
  deriving DecidableEq

open LogRow (number)

/-- Numbering the rows leaves their entries. -/
theorem map_entry_number (k : ℤ) (l : List LogEntry) :
    (number k l).map LogRow.entry = l := by
  induction l generalizing k with
  | nil => rfl
  | cons e l ih => simp [number, ih]

/-- The indices are consecutive. -/
theorem map_index_number (k : ℤ) (l : List LogEntry) :
    (number k l).map LogRow.index = (List.range l.length).map fun i : ℕ => k + i := by
  induction l generalizing k with
  | nil => rfl
  | cons e l ih =>
      rw [number, List.map_cons, ih, List.length_cons, List.range_succ_eq_map,
        List.map_cons, List.map_map]
      congr 1
      · simp
      · apply List.map_congr_left
        intro i _
        simp only [Function.comp_apply]
        push_cast
        omega

/-- The numbers go on where the first list ends. -/
theorem number_append (k : ℤ) (l l' : List LogEntry) :
    number k (l ++ l') = number k l ++ number (k + l.length) l' := by
  induction l generalizing k with
  | nil => simp [number]
  | cons e l ih =>
      simp only [List.cons_append, number, ih, List.length_cons]
      rw [show k + 1 + (l.length : ℤ) = k + ((l.length + 1 : ℕ) : ℤ) by push_cast; omega]

/-- Deleting from index `i` on keeps the rows below it. -/
theorem filter_number_lt (k i : ℤ) (l : List LogEntry) :
    (number k l).filter (fun r => !decide (r.index ≥ i)) = number k (l.take (i - k).toNat) := by
  induction l generalizing k with
  | nil => simp [number]
  | cons e l ih =>
      rcases lt_or_ge k i with hlt | hge
      · rw [show (i - k).toNat = (i - (k + 1)).toNat + 1 by omega]
        simp [number, hlt, ih]
      · have hk : (i - k).toNat = 0 := by omega
        have hk' : (i - (k + 1)).toNat = 0 := by omega
        simp [number, hge, ih, hk, hk']

/-- The rows with an index in `s..t`, in order. -/
theorem filter_number_range (k s t : ℤ) (l : List LogEntry) :
    ((number k l).filter (fun r => decide (r.index ≥ s) && decide (r.index ≤ t))).map
        LogRow.entry
      = (l.take (t - k + 1).toNat).drop (s - k).toNat := by
  induction l generalizing k with
  | nil => simp [number]
  | cons e l ih =>
      rcases lt_or_ge t k with htk | hkt
      · have h0 : (t - k + 1).toNat = 0 := by omega
        have h0' : (t - (k + 1) + 1).toNat = 0 := by omega
        simp [number, ih, h0, h0', not_le.mpr htk]
      · rw [show (t - k + 1).toNat = (t - (k + 1) + 1).toNat + 1 by omega]
        rcases lt_or_ge k s with hks | hsk
        · rw [show (s - k).toNat = (s - (k + 1)).toNat + 1 by omega]
          simp [number, ih, not_le.mpr hks]
        · have h0 : (s - k).toNat = 0 := by omega
          have h0' : (s - (k + 1)).toNat = 0 := by omega
          simp [number, ih, hsk, hkt, h0, h0']

/-- The row with index `i`. -/
theorem find_number (k i : ℤ) (l : List LogEntry) :
    ((number k l).find? (fun r => decide (r.index = i))).map LogRow.entry
      = if k ≤ i then l[(i - k).toNat]? else none := by
  induction l generalizing k with
  | nil => simp [number]
  | cons e l ih =>
      rcases lt_trichotomy k i with hlt | rfl | hgt
      · rw [show (i - k).toNat = (i - (k + 1)).toNat + 1 by omega]
        simp [number, hlt.ne, hlt.le, ih, Int.add_one_le_iff.mpr hlt]
      · simp [number]
      · simp [number, hgt.ne', not_le.mpr hgt, ih, show ¬ k + 1 ≤ i by omega]

/-- The greatest index is the number of rows. -/
theorem max_number (k : ℤ) (l : List LogEntry) :
    ((number k l).map LogRow.index).max? = if l = [] then none else some (k + l.length - 1) := by
  induction l generalizing k with
  | nil => rfl
  | cons e l ih =>
      rw [number, List.map_cons, List.max?_cons, ih]
      by_cases hl : l = []
      · simp [hl]
      · have : 0 < l.length := List.length_pos_iff.mpr hl
        simp only [hl, if_false, Option.elim_some, List.length_cons, reduceCtorEq]
        congr 1
        rw [max_eq_right (by omega)]
        push_cast
        omega

namespace LogTable

/-- The list the table stores. -/
def entries (t : LogTable) : List LogEntry := t.rows.map LogRow.entry

/-- The rows are the entries, numbered from `1`. -/
theorem rows_eq (t : LogTable) : t.rows = number 1 t.entries := t.contiguous

/-- A table is determined by the list it stores. -/
theorem ext_entries {t t' : LogTable} (h : t.entries = t'.entries) : t = t' := by
  apply LogTable.ext
  rw [t.rows_eq, t'.rows_eq, h]

/-- The table that stores `l`. -/
def ofEntries (l : List LogEntry) : LogTable :=
  ⟨number 1 l, by rw [map_entry_number]⟩

@[simp] theorem entries_ofEntries (l : List LogEntry) : (ofEntries l).entries = l :=
  map_entry_number 1 l

/-- `SELECT MAX(index) FROM logs`, `NULL` on the empty table. -/
def maxIndex (t : LogTable) : Option ℤ := (t.rows.map LogRow.index).max?

/-- The greatest index is the number of entries. -/
theorem maxIndex_getD (t : LogTable) : t.maxIndex.getD 0 = t.entries.length := by
  rw [maxIndex, rows_eq, max_number]
  split_ifs with h
  · simp [h]
  · simp

/-- `INSERT INTO logs (term, key, value)`: the omitted primary key gets the
greatest index plus one, `1` on the empty table. -/
def insert (t : LogTable) (e : LogEntry) : LogTable where
  rows := t.rows ++ [⟨t.maxIndex.getD 0 + 1, e⟩]
  contiguous := by
    rw [maxIndex_getD, List.map_append, ← entries, number_append, ← rows_eq]
    simp [number, add_comm]

@[simp] theorem entries_insert (t : LogTable) (e : LogEntry) :
    (t.insert e).entries = t.entries ++ [e] := by
  simp [entries, insert]

/-- `DELETE FROM logs WHERE index >= ?`. -/
def deleteFrom (t : LogTable) (i : ℤ) : LogTable where
  rows := t.rows.filter (fun r => !decide (r.index ≥ i))
  contiguous := by
    rw [rows_eq, filter_number_lt, map_entry_number]

@[simp] theorem entries_deleteFrom (t : LogTable) (i : ℤ) :
    (t.deleteFrom i).entries = t.entries.take (i - 1).toNat := by
  show (t.rows.filter _).map LogRow.entry = _
  rw [rows_eq, filter_number_lt, map_entry_number]

/-- `SELECT term, key, value FROM logs WHERE index >= ? AND index <= ?`. -/
def selectRange (t : LogTable) (s e : ℤ) : List LogEntry :=
  (t.rows.filter (fun r => decide (r.index ≥ s) && decide (r.index ≤ e))).map LogRow.entry

/-- A range of rows is a stretch of the entries. -/
theorem selectRange_eq (t : LogTable) (s e : ℤ) :
    t.selectRange s e = (t.entries.take e.toNat).drop (s - 1).toNat := by
  rw [selectRange, rows_eq, filter_number_range, sub_add_cancel]

/-- `SELECT term, key, value FROM logs WHERE index = ?`. -/
def selectIndex (t : LogTable) (i : ℤ) : Option LogEntry :=
  (t.rows.find? (fun r => decide (r.index = i))).map LogRow.entry

/-- The row at an index is the entry there. -/
theorem selectIndex_eq (t : LogTable) (i : ℤ) :
    t.selectIndex i = if 1 ≤ i then t.entries[(i - 1).toNat]? else none := by
  rw [selectIndex, rows_eq, find_number]

end LogTable

/-! ## The `state` table -/

/-- A row of `state`.  The columns `currentTerm` and `votedFor` are filled when
the row is inserted and never touched again. -/
structure StateRow where
  lastApplied : ℤ
  commitIndex : ℤ
  currentTerm : ℤ
  votedFor : Option String
  deriving DecidableEq, Repr

/-- The row every opening inserts: `VALUES (0, 0, 0, NULL)`. -/
def StateRow.initial : StateRow := ⟨0, 0, 0, none⟩

/-- The `state` table of an opened storage, rows in insertion order. -/
@[ext]
structure StateTable where
  rows : List StateRow
  nonempty : rows ≠ []
  deriving DecidableEq

namespace StateTable

/-- `UPDATE state SET …` has no `WHERE`: it writes every row. -/
def updateAll (t : StateTable) (f : StateRow → StateRow) : StateTable :=
  ⟨t.rows.map f, by simpa using t.nonempty⟩

/-- The row a `SELECT … FROM state` sees first. -/
def first (t : StateTable) : StateRow := t.rows.head t.nonempty

@[simp] theorem first_updateAll (t : StateTable) (f : StateRow → StateRow) :
    (t.updateAll f).first = f t.first := by
  simp [first, updateAll]

end StateTable

/-! ## The database and the statements -/

/-- The content of the database file of an opened storage. -/
structure Database where
  kvStore : String → Option String
  logs : LogTable
  state : StateTable

/-- `initializeDatabase`: create the tables that do not exist and insert a row
into `state`.  Since `state` has no key, `INSERT OR IGNORE` never ignores. -/
def Database.initializeDatabase : Option Database → Database
  | none => ⟨fun _ => none, LogTable.ofEntries [], ⟨[StateRow.initial], by simp⟩⟩
  | some db => { db with state := ⟨db.state.rows ++ [StateRow.initial], by simp⟩ }

/-- What happens to one SQL statement. -/
inductive Outcome : Type where
  | succeeds
  | fails
  | crashes
  deriving DecidableEq, Repr

/-- An opened storage: the database and the fate of the statements to come. -/
structure SQLiteStorage where
  db : Database
  pending : List Outcome

namespace SQLiteStorage

/-- `new SQLiteStorage(dbUrl)` on a file with the given content. -/
def create (file : Option Database) : SQLiteStorage := ⟨Database.initializeDatabase file, []⟩

/-- Every statement to come succeeds. -/
def Healthy (s : SQLiteStorage) : Prop := s.pending = []

/-- Issue one statement. -/
def execute {α : Type} (f : Database → α × Database) :
    EStateM JavaException SQLiteStorage α := fun s =>
  match s.pending with
  | [] => .ok (f s.db).1 ⟨(f s.db).2, []⟩
  | .succeeds :: rest => .ok (f s.db).1 ⟨(f s.db).2, rest⟩
  | .fails :: rest => .error .sqlException ⟨s.db, rest⟩
  | .crashes :: rest => .error .processCrash ⟨s.db, rest⟩

/-- A `SELECT`. -/
def query {α : Type} (f : Database → α) : EStateM JavaException SQLiteStorage α :=
  execute fun db => (f db, db)

/-- An `INSERT`, `UPDATE` or `DELETE`. -/
def update (f : Database → Database) : EStateM JavaException SQLiteStorage Unit :=
  execute fun db => ((), f db)

/-- `catch (SQLException e) { throw new RuntimeException(message, e); }` -/
def rethrow {α : Type} (message : String) (m : EStateM JavaException SQLiteStorage α) :
    EStateM JavaException SQLiteStorage α :=
  tryCatch m fun
    | .sqlException => throw (.runtimeException message)
    | e => throw e

/-- `catch (SQLException e) { e.printStackTrace(); } return default;` -/
def printStackTrace {α : Type} (default : α) (m : EStateM JavaException SQLiteStorage α) :
    EStateM JavaException SQLiteStorage α :=
  tryCatch m fun
    | .sqlException => pure default
    | e => throw e

/-! ## The methods of the class -/

def appendLogEntry (entry : LogEntry) : EStateM JavaException SQLiteStorage ℤ :=
  rethrow "Failed to append log entry" <|
    execute fun db =>
      (db.logs.maxIndex.getD 0 + 1, { db with logs := db.logs.insert entry })

def getLogEntries (startIdx endIdx : ℤ) : EStateM JavaException SQLiteStorage (List LogEntry) :=
  rethrow "Failed to get log entries" <| query fun db => db.logs.selectRange startIdx endIdx

/-- `null` when there is no such row. -/
def getLogEntry (index : ℤ) : EStateM JavaException SQLiteStorage (Option LogEntry) :=
  rethrow "Failed to get log entry" <| query fun db => db.logs.selectIndex index

/-- `MAX` of the empty table is `NULL`, which `getLong` reads as `0`. -/
def getLastLogIndex : EStateM JavaException SQLiteStorage ℤ :=
  rethrow "Failed to get log index" <| query fun db => db.logs.maxIndex.getD 0

def getLastLogTerm : EStateM JavaException SQLiteStorage ℤ := do
  let lastIndex ← getLastLogIndex
  if lastIndex > 0 then
    match ← getLogEntry lastIndex with
    | some entry => return entry.term
    | none => return 0
  else
    return 0

def getCommitIndex : EStateM JavaException SQLiteStorage ℤ :=
  printStackTrace 0 <| query fun db => db.state.first.commitIndex

def setCommitIndex (commitIndex : ℤ) : EStateM JavaException SQLiteStorage Unit :=
  printStackTrace () <| update fun db =>
    { db with state := db.state.updateAll fun r => { r with commitIndex := commitIndex } }

def getLastApplied : EStateM JavaException SQLiteStorage ℤ :=
  printStackTrace 0 <| query fun db => db.state.first.lastApplied

def setLastApplied (lastApplied : ℤ) : EStateM JavaException SQLiteStorage Unit :=
  printStackTrace () <| update fun db =>
    { db with state := db.state.updateAll fun r => { r with lastApplied := lastApplied } }

def deleteLogEntriesFrom (index : ℤ) : EStateM JavaException SQLiteStorage Unit :=
  printStackTrace () <| update fun db => { db with logs := db.logs.deleteFrom index }

/-- `INSERT OR REPLACE INTO kv_store`. -/
def updateKeyValue (key value : String) : EStateM JavaException SQLiteStorage Unit :=
  printStackTrace () <| update fun db =>
    { db with kvStore := Function.update db.kvStore key (some value) }

/-- `null` when the key has no row. -/
def get (key : String) : EStateM JavaException SQLiteStorage (Option String) :=
  printStackTrace none <| query fun db => db.kvStore key

/-! ## What a storage holds -/

/-- The log, as the list of its entries. -/
def log (s : SQLiteStorage) : List LogEntry := s.db.logs.entries

def commitIndex (s : SQLiteStorage) : ℤ := s.db.state.first.commitIndex

def lastApplied (s : SQLiteStorage) : ℤ := s.db.state.first.lastApplied

def kvStore (s : SQLiteStorage) : String → Option String := s.db.kvStore

def withLog (s : SQLiteStorage) (l : List LogEntry) : SQLiteStorage :=
  { s with db := { s.db with logs := LogTable.ofEntries l } }

def withCommitIndex (s : SQLiteStorage) (c : ℤ) : SQLiteStorage :=
  { s with db := { s.db with
      state := s.db.state.updateAll fun r => { r with commitIndex := c } } }

def withLastApplied (s : SQLiteStorage) (a : ℤ) : SQLiteStorage :=
  { s with db := { s.db with
      state := s.db.state.updateAll fun r => { r with lastApplied := a } } }

def withKvStore (s : SQLiteStorage) (kv : String → Option String) : SQLiteStorage :=
  { s with db := { s.db with kvStore := kv } }

variable (s : SQLiteStorage)

@[simp] theorem log_withLog (l) : (s.withLog l).log = l := LogTable.entries_ofEntries l
@[simp] theorem log_withCommitIndex (c) : (s.withCommitIndex c).log = s.log := rfl
@[simp] theorem log_withLastApplied (a) : (s.withLastApplied a).log = s.log := rfl
@[simp] theorem log_withKvStore (kv) : (s.withKvStore kv).log = s.log := rfl

@[simp] theorem commitIndex_withLog (l) : (s.withLog l).commitIndex = s.commitIndex := rfl
@[simp] theorem commitIndex_withCommitIndex (c) : (s.withCommitIndex c).commitIndex = c := by
  simp [commitIndex, withCommitIndex]
@[simp] theorem commitIndex_withLastApplied (a) :
    (s.withLastApplied a).commitIndex = s.commitIndex := by
  simp [commitIndex, withLastApplied]
@[simp] theorem commitIndex_withKvStore (kv) :
    (s.withKvStore kv).commitIndex = s.commitIndex := rfl

@[simp] theorem lastApplied_withLog (l) : (s.withLog l).lastApplied = s.lastApplied := rfl
@[simp] theorem lastApplied_withCommitIndex (c) :
    (s.withCommitIndex c).lastApplied = s.lastApplied := by
  simp [lastApplied, withCommitIndex]
@[simp] theorem lastApplied_withLastApplied (a) : (s.withLastApplied a).lastApplied = a := by
  simp [lastApplied, withLastApplied]
@[simp] theorem lastApplied_withKvStore (kv) :
    (s.withKvStore kv).lastApplied = s.lastApplied := rfl

@[simp] theorem kvStore_withLog (l) : (s.withLog l).kvStore = s.kvStore := rfl
@[simp] theorem kvStore_withCommitIndex (c) : (s.withCommitIndex c).kvStore = s.kvStore := rfl
@[simp] theorem kvStore_withLastApplied (a) : (s.withLastApplied a).kvStore = s.kvStore := rfl
@[simp] theorem kvStore_withKvStore (kv) : (s.withKvStore kv).kvStore = kv := rfl

@[simp] theorem healthy_withLog (l) : (s.withLog l).Healthy ↔ s.Healthy := Iff.rfl
@[simp] theorem healthy_withCommitIndex (c) : (s.withCommitIndex c).Healthy ↔ s.Healthy :=
  Iff.rfl
@[simp] theorem healthy_withLastApplied (a) : (s.withLastApplied a).Healthy ↔ s.Healthy :=
  Iff.rfl
@[simp] theorem healthy_withKvStore (kv) : (s.withKvStore kv).Healthy ↔ s.Healthy := Iff.rfl

@[simp] theorem withLog_withLog (l l') : (s.withLog l).withLog l' = s.withLog l' := rfl

/-- Writing back the log a storage holds changes nothing. -/
@[simp] theorem withLog_log : s.withLog s.log = s := by
  have : LogTable.ofEntries s.db.logs.entries = s.db.logs :=
    LogTable.ext_entries (LogTable.entries_ofEntries _)
  simp [withLog, log, this]

/-! ## On a healthy storage a method does what its statement says -/

variable {s} {α : Type}

/-- A statement of a healthy storage takes effect. -/
theorem run_execute (h : s.Healthy) (f : Database → α × Database) :
    (execute f).run s = .ok (f s.db).1 ⟨(f s.db).2, s.pending⟩ := by
  show execute f s = _
  unfold execute
  rw [show s.pending = [] from h]

/-- There is nothing to rethrow where nothing is thrown. -/
theorem run_rethrow_ok {m : EStateM JavaException SQLiteStorage α} {message : String} {a : α}
    {s' : SQLiteStorage} (h : m.run s = .ok a s') : (rethrow message m).run s = .ok a s' := by
  show EStateM.tryCatch m _ s = _
  unfold EStateM.tryCatch
  rw [show m s = .ok a s' from h]

/-- There is nothing to print where nothing is thrown. -/
theorem run_printStackTrace_ok {m : EStateM JavaException SQLiteStorage α} {default a : α}
    {s' : SQLiteStorage} (h : m.run s = .ok a s') :
    (printStackTrace default m).run s = .ok a s' := by
  show EStateM.tryCatch m _ s = _
  unfold EStateM.tryCatch
  rw [show m s = .ok a s' from h]

/-- The entry at a 1-based index, `none` outside the log. -/
def entryAt (l : List LogEntry) (i : ℤ) : Option LogEntry :=
  if 1 ≤ i then l[(i - 1).toNat]? else none

/-- `SELECT MAX(index)`. -/
theorem run_getLastLogIndex (h : s.Healthy) :
    getLastLogIndex.run s = .ok (s.log.length : ℤ) s := by
  refine run_rethrow_ok ?_
  rw [query, run_execute h, LogTable.maxIndex_getD]
  rfl

/-- The row at an index. -/
theorem run_getLogEntry (h : s.Healthy) (i : ℤ) :
    (getLogEntry i).run s = .ok (entryAt s.log i) s := by
  refine run_rethrow_ok ?_
  rw [query, run_execute h, LogTable.selectIndex_eq]
  rfl

/-- The rows of a range. -/
theorem run_getLogEntries (h : s.Healthy) (i j : ℤ) :
    (getLogEntries i j).run s = .ok ((s.log.take j.toNat).drop (i - 1).toNat) s := by
  refine run_rethrow_ok ?_
  rw [query, run_execute h, LogTable.selectRange_eq]
  rfl

/-- An insert, with the index it generates. -/
theorem run_appendLogEntry (h : s.Healthy) (e : LogEntry) :
    (appendLogEntry e).run s = .ok (s.log.length + 1 : ℤ) (s.withLog (s.log ++ [e])) := by
  refine run_rethrow_ok ?_
  have hins : s.db.logs.insert e = LogTable.ofEntries (s.log ++ [e]) :=
    LogTable.ext_entries (by simp [log])
  rw [run_execute h, LogTable.maxIndex_getD, hins]
  rfl

/-- A delete from an index on. -/
theorem run_deleteLogEntriesFrom (h : s.Healthy) (i : ℤ) :
    (deleteLogEntriesFrom i).run s = .ok () (s.withLog (s.log.take (i - 1).toNat)) := by
  refine run_printStackTrace_ok ?_
  have hdel : s.db.logs.deleteFrom i = LogTable.ofEntries (s.log.take (i - 1).toNat) :=
    LogTable.ext_entries (by simp [log])
  rw [update, run_execute h, hdel]
  rfl

/-- The commit index of the state row. -/
theorem run_getCommitIndex (h : s.Healthy) : getCommitIndex.run s = .ok s.commitIndex s :=
  run_printStackTrace_ok (run_execute h _)

/-- An update of the commit index. -/
theorem run_setCommitIndex (h : s.Healthy) (c : ℤ) :
    (setCommitIndex c).run s = .ok () (s.withCommitIndex c) :=
  run_printStackTrace_ok (run_execute h _)

/-- The applied index of the state row. -/
theorem run_getLastApplied (h : s.Healthy) : getLastApplied.run s = .ok s.lastApplied s :=
  run_printStackTrace_ok (run_execute h _)

/-- An update of the applied index. -/
theorem run_setLastApplied (h : s.Healthy) (a : ℤ) :
    (setLastApplied a).run s = .ok () (s.withLastApplied a) :=
  run_printStackTrace_ok (run_execute h _)

/-- An insert or a replacement under the key. -/
theorem run_updateKeyValue (h : s.Healthy) (k v : String) :
    (updateKeyValue k v).run s
      = .ok () (s.withKvStore (Function.update s.kvStore k (some v))) :=
  run_printStackTrace_ok (run_execute h _)

/-- The value under the key. -/
theorem run_get (h : s.Healthy) (k : String) : (get k).run s = .ok (s.kvStore k) s :=
  run_printStackTrace_ok (run_execute h _)

/-- The last entry's term, `0` on the empty log. -/
theorem run_getLastLogTerm (h : s.Healthy) :
    getLastLogTerm.run s = .ok ((s.log.getLast?.map LogEntry.term).getD 0) s := by
  rw [getLastLogTerm, Exec.run_bind_ok (run_getLastLogIndex h)]
  rcases hl : s.log with _ | ⟨e, l⟩
  · simp
  · have hpos : ((e :: l).length : ℤ) > 0 := by simp
    rw [if_pos hpos, Exec.run_bind_ok (run_getLogEntry h _), hl, entryAt,
      if_pos (by omega), show (((e :: l).length : ℤ) - 1).toNat = (e :: l).length - 1 by omega,
      ← List.getLast?_eq_getElem?]
    rw [List.getLast?_eq_some_getLast (by simp)]
    rfl

end SQLiteStorage

end KVStore
