import Tikv.LibBatch
import Tikv.LibRun
import Tikv.CodecBytes
import Tikv.MvccResolve
import Tikv.MvccSnapshot
/-!
# MvccFlashback — flashback of a key range (`txn::actions::flashback_to_version`, `txn::commands`)

A flashback puts the keys of a range back to what they were at a version.  The prepare request rolls all locks of the range
back and prewrites the first key that has changed since the version.  The finish request writes the old version of every
other changed key again, at the commit timestamp of the flashback, and commits the first key last.  Both go on in batches,
each a read command that scans and a write command that writes what was scanned; a command may be executed again.

The scans leave out `hint_min_ts`, which only keeps files out whose records are not above the version.
-/
namespace Tikv
namespace Mvcc

open Lib List

structure KeyStore where
  keys : List Bytes
  ascending : keys.Pairwise (· < ·)
  state : Bytes → KeyState

namespace KeyStore

def userKeys (s : KeyStore) : UserKeys := s.keys.map fun key => (key, s.state key)

def write (s : KeyStore) (batch : List (Bytes × List Modify)) : KeyStore :=
  { s with state := fun key => (s.state key).apply (batch.flatMap fun x => if x.1 = key then x.2 else []) }

end KeyStore

def pastEnd (endKey : Option Bytes) (key : Bytes) : Bool := endKey.any (· ≤ key)

structure FlashbackConfig where
  startTs : Nat
  commitTs : Nat
  version : Nat
  startKey : Bytes
  endKey : Option Bytes

def FlashbackConfig.InRange (c : FlashbackConfig) (key : Bytes) : Prop :=
  c.startKey ≤ key ∧ pastEnd c.endKey key = false

/-! ## Scans -/

def scanLocksFrom (endKey : Option Bytes) (filter : Bytes → Lock → Bool) : (limit : Nat) → List (Bytes × Lock) →
    List (Bytes × Lock)
  | _, [] => []
  | limit, (key, lock) :: rest =>
    if pastEnd endKey key then []
    else if filter key lock then
      (key, lock) :: if limit = 1 then [] else scanLocksFrom endKey filter (limit - 1) rest
    else scanLocksFrom endKey filter limit rest

def scanLocksFromStorage (ks : UserKeys) (start : Bytes) (endKey : Option Bytes) (filter : Bytes → Lock → Bool)
    (limit : Nat) : List (Bytes × Lock) :=
  scanLocksFrom endKey filter limit (lockCf (ks.filter fun x => start ≤ x.1))

/-- The loop of `scan_latest_user_keys`, over the write column family from the start key on.  The seek past the other
versions of a key that was taken is going on with them: they are versions of `curUserKey`. -/
def scanLatestFrom (endKey : Option Bytes) (filter : Bytes → Nat → Bool) : (limit : Nat) → (curUserKey : Option Bytes) →
    List WriteEntry → List Bytes
  | _, _, [] => []
  | limit, cur, e :: rest =>
    if pastEnd endKey e.userKey then []
    else if e.write.isData = false then scanLatestFrom endKey filter limit cur rest
    else if cur = some e.userKey ∨ filter e.userKey e.commitTs = false then
      scanLatestFrom endKey filter limit (some e.userKey) rest
    else e.userKey :: if limit = 1 then [] else scanLatestFrom endKey filter (limit - 1) (some e.userKey) rest

def scanLatestUserKeys (ks : UserKeys) (start : Bytes) (endKey : Option Bytes) (filter : Bytes → Nat → Bool)
    (limit : Nat) : List Bytes :=
  scanLatestFrom endKey filter limit none (writeCf (ks.filter fun x => start ≤ x.1))

/-! ## Actions -/

inductive FlashbackError
  | mvcc (e : MvccError)
  | invalidTxnTso (startTs commitTs : Nat)
  | flashbackNotPrepared
  | unreachable

section

variable (c : FlashbackConfig)

/-- `flashback_to_version_read_lock`; the lock of the prewrite is skipped. -/
def flashbackToVersionReadLock (limit : Nat) (s : KeyStore) (nextLockKey : Bytes) : List (Bytes × Lock) :=
  scanLocksFromStorage s.userKeys nextLockKey c.endKey (fun _ lock => lock.ts ≠ c.startTs) limit

def flashbackToVersionReadWrite (limit : Nat) (s : KeyStore) (nextWriteKey startKey : Bytes) : List Bytes :=
  scanLatestUserKeys s.userKeys nextWriteKey c.endKey
    (fun key latestCommitTs => key ≠ startKey && c.version < latestCommitTs && latestCommitTs < c.commitTs) limit

def getFirstUserKey (s : KeyStore) (startKey : Bytes) : Option Bytes :=
  (scanLatestUserKeys s.userKeys startKey c.endKey (fun _ latestCommitTs => c.version < latestCommitTs) 1).getLast?

/-- `MvccReader::get_write` with `None` for the limit of gc fences: no fence is at or below zero. -/
def getWrite (v : Versions) (ts : Nat) : Except MvccError (Option Write) :=
  (getWriteWithCommitTs v 0 ts).map (Option.map Prod.fst)

/-- The write size of a command reaches `MAX_TXN_WRITE_SIZE` after `room` elements; the key to go on with is the next one. -/
def writeUntilFull {α : Type} (key : α → Bytes) (write : α → Except MvccError (List Modify)) : (room : Nat) → List α →
    Except MvccError (List (Bytes × List Modify) × Option Bytes)
  | _, [] => .ok ([], none)
  | 0, x :: _ => .ok ([], some (key x))
  | room + 1, x :: rest =>
    match write x with
    | .error e => .error e
    | .ok ms =>
      match writeUntilFull key write room rest with
      | .error e => .error e
      | .ok (batch, next) => .ok ((key x, ms) :: batch, next)

def rollbackLocks (room : Nat) (s : KeyStore) (keyLocks : List (Bytes × Lock)) :
    Except MvccError (List (Bytes × List Modify) × Option Bytes) :=
  writeUntilFull Prod.fst (fun x => rollbackLock x.1 (s.state x.1).writes x.2 true) room keyLocks

/-- A value that is not in the record is put at the start timestamp of the flashback. -/
def oldValue (k : KeyState) (oldWrite : Write) : Except MvccError (List Modify) :=
  if oldWrite.writeType = .put ∧ oldWrite.shortValue = none then
    (loadData k oldWrite).map fun value => [.putValue c.startTs value]
  else .ok []

def flashbackToVersionWriteKey (k : KeyState) : Except MvccError (List Modify) :=
  match getWrite k.writes c.version with
  | .error e => .error e
  | .ok none => .ok [.putWrite c.commitTs (Write.new .delete c.startTs none)]
  | .ok (some oldWrite) =>
    (oldValue c k oldWrite).map fun ms =>
      ms ++ [.putWrite c.commitTs (Write.new oldWrite.writeType c.startTs oldWrite.shortValue)]

def flashbackToVersionWrite (room : Nat) (s : KeyStore) (keys : List Bytes) :
    Except MvccError (List (Bytes × List Modify) × Option Bytes) :=
  writeUntilFull id (fun key => flashbackToVersionWriteKey c (s.state key)) room keys

/-- The lock that stands for the old version.  Its primary is the encoded key. -/
def flashbackLock (keyToLock : Bytes) (oldWrite : Option Write) : Lock :=
  Lock.new
    (match oldWrite with
      | none => .delete
      | some w => if w.writeType = .delete then .delete else .put)
    (Codec.encodeBytes keyToLock) c.startTs 0 (oldWrite.bind (·.shortValue)) 0 1 0 false

def prewriteFlashbackKey (keyToLock : Bytes) (k : KeyState) : Except MvccError (List Modify) :=
  match k.lock with
  | some _ => .ok []
  | none =>
    match getWrite k.writes c.version with
    | .error e => .error e
    | .ok none => .ok [.putLock (flashbackLock c keyToLock none)]
    | .ok (some oldWrite) =>
      -- a value that is there is not written again
      (if k.values.lookup c.startTs = none then oldValue c k oldWrite else .ok []).map fun ms =>
        ms ++ [.putLock (flashbackLock c keyToLock (some oldWrite))]

def commitFlashbackKey (k : KeyState) : Except MvccError (List Modify) :=
  match k.lock with
  | none => .error (.txnLockNotFound c.commitTs)
  | some lock =>
    match WriteType.fromLockType lock.lockType with
    | none => .error (.panic "called `Option::unwrap()` on a `None` value")
    | some writeType =>
      .ok [.putWrite c.commitTs { Write.new writeType c.startTs lock.shortValue with
          lastChange := lock.lastChange, txnSource := lock.txnSource }, .unlockKey]

def checkFlashbackCommit (k : KeyState) : Except FlashbackError Bool :=
  match k.lock with
  | some lock => if lock.ts = c.startTs then .ok false else .error .flashbackNotPrepared
  | none =>
    match seekWrite k.writes c.commitTs with
    | some (commitTs, write) =>
      if commitTs = c.commitTs ∧ write.startTs = c.startTs then .ok true else .error .flashbackNotPrepared
    | none => .error .flashbackNotPrepared

end

/-! ## Commands -/

inductive FlashbackToVersionState
  | rollbackLock (nextLockKey : Bytes) (keyLocks : List (Bytes × Lock))
  | prewrite (keyToLock : Bytes)
  | flashbackWrite (nextWriteKey : Bytes) (keys : List Bytes)
  | commit (keyToCommit : Bytes)

inductive FlashbackCommand
  | read (startKey : Bytes) (state : FlashbackToVersionState)
  | write (startKey : Bytes) (state : FlashbackToVersionState)

section

variable (c : FlashbackConfig)

def newFlashbackRollbackLockCmd : FlashbackCommand := .read c.startKey (.rollbackLock c.startKey [])

def newFlashbackWriteCmd : FlashbackCommand := .read c.startKey (.flashbackWrite c.startKey [])

def scannedWrite (startKey : Bytes) (keys : List Bytes) : FlashbackToVersionState :=
  match batchOf keys with
  | none => .commit startKey
  | some (next, batch) => .flashbackWrite next batch

/-- `FlashbackToVersionReadPhase::process_read`: the command to go on with, or none if the request is answered.  A scan
gives at most `limit` keys. -/
def processRead (limit : Nat) (s : KeyStore) (startKey : Bytes) :
    FlashbackToVersionState → Except FlashbackError (Option FlashbackCommand)
  | .rollbackLock nextLockKey _ =>
    match batchOf (flashbackToVersionReadLock c limit s nextLockKey) with
    | some (next, keyLocks) => .ok (some (.write startKey (.rollbackLock next.1 keyLocks)))
    | none =>
      match getFirstUserKey c s startKey with
      | none => .ok none
      | some firstKey => .ok (some (.write startKey (.prewrite firstKey)))
  | .flashbackWrite nextWriteKey _ =>
    if c.commitTs ≤ c.startTs then .error (.invalidTxnTso c.startTs c.commitTs)
    else if nextWriteKey = startKey then
      match getFirstUserKey c s startKey with
      | none => .ok none
      | some firstKey =>
        match checkFlashbackCommit c (s.state firstKey) with
        | .error e => .error e
        | .ok true => .ok none
        | .ok false =>
          .ok (some (.write firstKey (scannedWrite firstKey (flashbackToVersionReadWrite c limit s firstKey firstKey))))
    else .ok (some (.write startKey (scannedWrite startKey (flashbackToVersionReadWrite c limit s nextWriteKey startKey))))
  | .prewrite _ | .commit _ => .error .unreachable

/-- `FlashbackToVersion::process_write`: what is written, and the command to go on with. -/
def processWrite (room : Nat) (s : KeyStore) (startKey : Bytes) :
    FlashbackToVersionState → Except FlashbackError (List (Bytes × List Modify) × Option FlashbackCommand)
  | .rollbackLock nextLockKey keyLocks =>
    match rollbackLocks room s keyLocks with
    | .error e => .error (.mvcc e)
    | .ok (batch, next) => .ok (batch, some (.read startKey (.rollbackLock (next.getD nextLockKey) [])))
  | .prewrite keyToLock =>
    match prewriteFlashbackKey c keyToLock (s.state keyToLock) with
    | .error e => .error (.mvcc e)
    | .ok ms => .ok ([(keyToLock, ms)], none)
  | .flashbackWrite nextWriteKey keys =>
    match flashbackToVersionWrite c room s keys with
    | .error e => .error (.mvcc e)
    | .ok (batch, next) => .ok (batch, some (.read startKey (.flashbackWrite (next.getD nextWriteKey) [])))
  | .commit keyToCommit =>
    match commitFlashbackKey c (s.state keyToCommit) with
    | .error e => .error (.mvcc e)
    | .ok ms => .ok ([(keyToCommit, ms)], none)

end

/-! ## Runs -/

/-- A flashback under way: the commands issued so far, whether a prepare request has been answered, and whether a finish
request has been answered and nothing prewritten since. -/
structure Flashback where
  store : KeyStore
  commands : List FlashbackCommand
  prepared : Bool
  finished : Bool

def Flashback.init (store : KeyStore) : Flashback := ⟨store, [], false, false⟩

/-- The two requests, and the execution of a command with its batch limit and the room for what it writes. -/
inductive FlashbackEvent
  | prepare
  | finish
  | execute (command : FlashbackCommand) (limit room : Nat)

/-- Only an issued command is executed; it stays, to be executed again. -/
def FlashbackEvent.Issued (f : Flashback) : FlashbackEvent → Prop
  | prepare | finish => True
  | execute command _ _ => command ∈ f.commands

namespace Flashback

variable (c : FlashbackConfig)

def answer (f : Flashback) : FlashbackToVersionState → Flashback
  | .rollbackLock .. => { f with prepared := true }
  | .flashbackWrite .. => { f with finished := true }
  | .prewrite _ | .commit _ => f

def written (f : Flashback) : FlashbackToVersionState → Flashback
  | .rollbackLock .. | .flashbackWrite .. => f
  | .prewrite _ => { f with prepared := true, finished := false }
  | .commit _ => { f with finished := true }

def step (f : Flashback) : FlashbackEvent → Flashback
  | .prepare => { f with commands := newFlashbackRollbackLockCmd c :: f.commands }
  | .finish => { f with commands := newFlashbackWriteCmd c :: f.commands }
  | .execute (.read startKey state) limit _ =>
    match processRead c limit f.store startKey state with
    | .error _ => f
    | .ok none => f.answer state
    | .ok (some next) => { f with commands := next :: f.commands }
  | .execute (.write startKey state) _ room =>
    match processWrite c room f.store startKey state with
    | .error _ => f
    | .ok (batch, next) =>
      { f with store := f.store.write batch, commands := next.toList ++ f.commands }.written state

end Flashback

/-! ## What a scan gives -/

def newestData (v : Versions) : Option (Nat × Write) := v.find fun e => e.2.isData

def takesLatest (filter : Bytes → Nat → Bool) (x : Bytes × KeyState) : Bool :=
  (newestData x.2.writes).any fun e => filter x.1 e.1

section

variable {endKey : Option Bytes}

theorem pastEnd_of_lt {key key' : Bytes} (h : pastEnd endKey key = true) (hlt : key < key') :
    pastEnd endKey key' = true := by
  cases endKey with
  | none => cases h
  | some e =>
    have hle : e ≤ key := by simpa [pastEnd] using h
    simpa [pastEnd] using hle.trans (le_of_lt hlt)

theorem mem_lockCf {ks : UserKeys} {x : Bytes × Lock} : x ∈ lockCf ks ↔ ∃ k, (x.1, k) ∈ ks ∧ k.lock = some x.2 := by
  unfold lockCf
  rw [mem_filterMap]
  constructor
  · rintro ⟨⟨key, k⟩, hmem, hlock⟩
    obtain ⟨lock, hheld, rfl⟩ := Option.map_eq_some_iff.1 hlock
    exact ⟨k, hmem, hheld⟩
  · rintro ⟨k, hmem, hlock⟩
    exact ⟨(x.1, k), hmem, by rw [hlock]; rfl⟩

theorem lockCf_pairwise {ks : UserKeys} (h : Ascending ks) : (lockCf ks).Pairwise fun a b => a.1 < b.1 := by
  refine List.Pairwise.filterMap _ (fun a b hlt x hx y hy => ?_) h
  obtain ⟨_, _, rfl⟩ := Option.map_eq_some_iff.1 hx
  obtain ⟨_, _, rfl⟩ := Option.map_eq_some_iff.1 hy
  exact hlt

theorem scanLocksFrom_eq (filter : Bytes → Lock → Bool) : ∀ (limit : Nat) {l : List (Bytes × Lock)},
    (l.Pairwise fun a b => a.1 < b.1) →
    scanLocksFrom endKey filter limit l = upTo limit (l.filter fun x => !pastEnd endKey x.1 && filter x.1 x.2)
  | limit, [], _ => (upTo_nil limit).symm
  | limit, (key, lock) :: l, hl => by
    obtain ⟨hhead, htail⟩ := pairwise_cons.1 hl
    unfold scanLocksFrom
    by_cases hend : pastEnd endKey key = true
    · -- the keys that follow are past the end as well
      rw [if_pos hend, filter_cons_of_neg (by simp [hend]), filter_eq_nil_iff.2, upTo_nil]
      intro x hx
      simp [pastEnd_of_lt hend (hhead x hx)]
    · rw [if_neg hend]
      by_cases hfilter : filter key lock = true
      · rw [if_pos hfilter, filter_cons_of_pos (by simp [hend, hfilter]), upTo_cons,
          scanLocksFrom_eq filter (limit - 1) htail]
      · rw [if_neg hfilter, filter_cons_of_neg (by simp [hfilter]), scanLocksFrom_eq filter limit htail]

variable (filter : Bytes → Nat → Bool)

theorem scanLatestFrom_entriesOf (key : Bytes) (hend : pastEnd endKey key = false) (limit : Nat)
    (rest : List WriteEntry) : ∀ (d : List (Nat × Write)) (cur : Option Bytes),
    scanLatestFrom endKey filter limit cur (entriesOf key d ++ rest) =
      match d.find? fun e => e.2.isData with
      | none => scanLatestFrom endKey filter limit cur rest
      | some e =>
        if cur = some key ∨ filter key e.1 = false then scanLatestFrom endKey filter limit (some key) rest
        else key :: if limit = 1 then [] else scanLatestFrom endKey filter (limit - 1) (some key) rest
  | [], _ => rfl
  | e :: d, cur => by
    -- once the key is the current one, all of its versions are passed
    have hseen : ∀ (n : Nat) (d : List (Nat × Write)),
        scanLatestFrom endKey filter n (some key) (entriesOf key d ++ rest) =
          scanLatestFrom endKey filter n (some key) rest := by
      intro n d
      induction d with
      | nil => rfl
      | cons e d ih =>
        rw [entriesOf_cons, cons_append, scanLatestFrom, if_neg (by simp [hend])]
        by_cases hdata : e.2.isData = false
        · rw [if_pos hdata, ih]
        · rw [if_neg hdata, if_pos (.inl rfl), ih]
    rw [entriesOf_cons, cons_append, scanLatestFrom, if_neg (by simp [hend])]
    by_cases hdata : e.2.isData = false
    · rw [if_pos hdata, find?_cons_of_neg (by simp [hdata])]
      exact scanLatestFrom_entriesOf key hend limit rest d cur
    rw [if_neg hdata, find?_cons_of_pos (by simpa using hdata)]
    rw [hseen, hseen]

theorem scanLatestFrom_pastEnd (limit : Nat) (cur : Option Bytes) :
    ∀ {es : List WriteEntry}, (∀ e ∈ es, pastEnd endKey e.userKey = true) → scanLatestFrom endKey filter limit cur es = []
  | [], _ => rfl
  | e :: es, h => by
    unfold scanLatestFrom
    rw [if_pos (h e mem_cons_self)]

/-- **A scan of the latest versions** gives up to `limit` of the keys before the end whose newest PUT or DELETE passes the
filter. -/
theorem scanLatestFrom_eq : ∀ (limit : Nat) (cur : Option Bytes) {ks : UserKeys},
    Ascending ks → (∀ x ∈ ks, cur ≠ some x.1) →
    scanLatestFrom endKey filter limit cur (writeCf ks) =
      upTo limit ((ks.filter fun x => !pastEnd endKey x.1 && takesLatest filter x).map (·.1))
  | limit, _, [], _, _ => (upTo_nil limit).symm
  | limit, cur, x :: ks, hks, hcur => by
    obtain ⟨hhead, htail⟩ := pairwise_cons.1 hks
    by_cases hend : pastEnd endKey x.1 = true
    · have hall : ∀ y ∈ x :: ks, pastEnd endKey y.1 = true :=
        forall_mem_cons.2 ⟨hend, fun y hy => pastEnd_of_lt hend (hhead y hy)⟩
      rw [scanLatestFrom_pastEnd, filter_eq_nil_iff.2, map_nil, upTo_nil]
      · intro y hy
        simp [hall y hy]
      · intro e he
        obtain ⟨y, hy, hkey⟩ := exists_of_mem_writeCf he
        rw [hkey]
        exact hall y hy
    · have hnotEnd : pastEnd endKey x.1 = false := Bool.eq_false_iff.2 hend
      have hlater : ∀ y ∈ ks, some x.1 ≠ some y.1 := fun y hy heq => ne_of_lt (hhead y hy) (Option.some.inj heq)
      rw [writeCf_cons, scanLatestFrom_entriesOf filter x.1 hnotEnd]
      cases hnewest : newestData x.2.writes with
      | none =>
        have htakes : takesLatest filter x = false := by simp [takesLatest, hnewest]
        rw [show x.2.writes.entries.find? (fun e => e.2.isData) = none from hnewest]
        rw [filter_cons_of_neg (by simp [htakes])]
        exact scanLatestFrom_eq limit cur htail fun y hy => hcur y (mem_cons_of_mem _ hy)
      | some e =>
        have htakes : takesLatest filter x = filter x.1 e.1 := by simp [takesLatest, hnewest]
        rw [show x.2.writes.entries.find? (fun e => e.2.isData) = some e from hnewest]
        dsimp only
        by_cases hfilter : filter x.1 e.1 = true
        · rw [if_neg (by simp [hfilter, hcur x mem_cons_self]), filter_cons_of_pos (by simp [hnotEnd, htakes, hfilter]),
            map_cons, upTo_cons, scanLatestFrom_eq (limit - 1) _ htail hlater]
        rw [if_pos (.inr (Bool.eq_false_iff.2 hfilter)), filter_cons_of_neg (by simp [htakes, hfilter])]
        exact scanLatestFrom_eq limit _ htail hlater

end

namespace KeyStore

theorem ascending_userKeys (s : KeyStore) : Ascending s.userKeys :=
  pairwise_map.2 s.ascending

theorem mem_userKeys {s : KeyStore} {x : Bytes × KeyState} : x ∈ s.userKeys ↔ x.1 ∈ s.keys ∧ s.state x.1 = x.2 := by
  unfold userKeys
  rw [mem_map]
  constructor
  · rintro ⟨key, hkey, rfl⟩
    exact ⟨hkey, rfl⟩
  · rintro ⟨hkey, hstate⟩
    exact ⟨x.1, hkey, by rw [hstate]⟩

end KeyStore

/-- What a scan from `start` to the end of the range gives: keys of the store that it is to give, in order, and what it
leaves out comes later. -/
structure Scans (endKey : Option Bytes) (s : KeyStore) (start : Bytes) (wanted : Bytes → Prop) (limit : Nat)
    (found : List Bytes) : Prop where
  few : limit ≠ 0 → found.length ≤ limit
  sorted : found.Pairwise (· < ·)
  sound : ∀ key ∈ found, key ∈ s.keys ∧ start ≤ key ∧ pastEnd endKey key = false ∧ wanted key
  complete : ∀ key ∈ s.keys, start ≤ key → pastEnd endKey key = false → wanted key →
    key ∈ found ∨ found ≠ [] ∧ ∀ key' ∈ found, key' < key

theorem Scans.of_upTo {endKey : Option Bytes} {s : KeyStore} {start : Bytes} {wanted : Bytes → Prop} {l : List Bytes}
    (hsorted : l.Pairwise (· < ·))
    (hmem : ∀ key, key ∈ l ↔ key ∈ s.keys ∧ start ≤ key ∧ pastEnd endKey key = false ∧ wanted key)
    (limit : Nat) : Scans endKey s start wanted limit (upTo limit l) where
  few hlimit := length_upTo_le _ _ hlimit
  sorted := hsorted.sublist (upTo_sublist _ _)
  sound key hkey := (hmem key).1 ((upTo_sublist _ _).subset hkey)
  complete key hkey hstart hend hwanted := mem_upTo_or hsorted ((hmem key).2 ⟨hkey, hstart, hend, hwanted⟩)

variable (s : KeyStore) (start : Bytes) (endKey : Option Bytes)

theorem scanLatestUserKeys_spec (filter : Bytes → Nat → Bool) (limit : Nat) :
    Scans endKey s start (fun key => takesLatest filter (key, s.state key) = true) limit
      (scanLatestUserKeys s.userKeys start endKey filter limit) := by
  have hasc : Ascending (s.userKeys.filter fun x => start ≤ x.1) := s.ascending_userKeys.filter _
  unfold scanLatestUserKeys
  rw [scanLatestFrom_eq filter limit none hasc nofun]
  refine .of_upTo (pairwise_map.2 (hasc.filter _)) (fun key => ?_) limit
  simp only [mem_map, mem_filter, KeyStore.mem_userKeys, decide_eq_true_eq, Bool.and_eq_true, Bool.not_eq_true']
  constructor
  · rintro ⟨x, ⟨⟨⟨hkey, hstate⟩, hstart⟩, hend, htakes⟩, rfl⟩
    exact ⟨hkey, hstart, hend, by rw [hstate]; exact htakes⟩
  · rintro ⟨hkey, hstart, hend, htakes⟩
    exact ⟨(key, s.state key), ⟨⟨⟨hkey, rfl⟩, hstart⟩, hend, htakes⟩, rfl⟩

theorem scanLocksFromStorage_spec (filter : Bytes → Lock → Bool) (limit : Nat) :
    Scans endKey s start (fun key => ∃ lock, (s.state key).lock = some lock ∧ filter key lock = true) limit
      ((scanLocksFromStorage s.userKeys start endKey filter limit).map (·.1)) ∧
    ∀ x ∈ scanLocksFromStorage s.userKeys start endKey filter limit,
      (s.state x.1).lock = some x.2 ∧ filter x.1 x.2 = true := by
  have hpair := lockCf_pairwise (s.ascending_userKeys.filter fun x => start ≤ x.1)
  unfold scanLocksFromStorage
  rw [scanLocksFrom_eq filter limit hpair, map_upTo]
  refine ⟨.of_upTo (pairwise_map.2 (hpair.filter _)) (fun key => ?_) limit, fun x hx => ?_⟩
  · simp only [mem_map, mem_filter, mem_lockCf, KeyStore.mem_userKeys, decide_eq_true_eq, Bool.and_eq_true,
      Bool.not_eq_true']
    constructor
    · rintro ⟨x, ⟨⟨k, ⟨⟨hkey, rfl⟩, hstart⟩, hlock⟩, hend, hfilter⟩, rfl⟩
      exact ⟨hkey, hstart, hend, x.2, hlock, hfilter⟩
    · rintro ⟨hkey, hstart, hend, lock, hlock, hfilter⟩
      exact ⟨(key, lock), ⟨⟨_, ⟨⟨hkey, rfl⟩, hstart⟩, hlock⟩, hend, hfilter⟩, rfl⟩
  · obtain ⟨hcf, htakes⟩ := mem_filter.1 ((upTo_sublist _ _).subset hx)
    obtain ⟨k, hmem, hlock⟩ := mem_lockCf.1 hcf
    rw [(KeyStore.mem_userKeys.1 (mem_filter.1 hmem).1).2]
    exact ⟨hlock, (Bool.and_eq_true_iff.1 htakes).2⟩

end Mvcc
end Tikv
