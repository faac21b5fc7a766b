import Tikv.LibMap
import Tikv.LibRun
import Tikv.UtilMemory
/-!
# CdcLockTracker — a delegate's locks and the memory they are charged (`delegate.rs`)

A delegate tracks the locks of its region: while the region's locks are scanned it only lists what is locked and
unlocked, afterwards it has them in a map.  The heap of the keys it holds is charged to a quota that it shares with
others.  Two places get the account wrong: a lock for a key that the map has not is put in before it is charged, and
stays when the quota refuses it (`pushLock`); and `enablePcr` puts an empty map in the tracker's place and gives nothing
back.  `KeepsExact` says what a call has to meet for the account to stay exact (`exact_of_run`).

`none` is a failed assertion of the source.
-/
namespace Tikv
namespace Cdc
namespace Track

open Lib Util MemoryQuota Option

/-! ## The tracker -/

/-- An encoded key in a buffer of its own. -/
structure Key where
  bytes : Bytes
  capacity : Nat
  length_le : bytes.length ≤ capacity
deriving DecidableEq, Repr

def Key.approximateHeapSize (k : Key) : Nat := k.capacity

structure MiniLock where
  ts : Nat
  txnSource : Nat
deriving DecidableEq, Repr

inductive PendingLock
  | track (key : Key) (startTs : MiniLock)
  | untrack (key : Key) (startTs : Nat)
deriving DecidableEq, Repr

def PendingLock.approximateHeapSize : PendingLock → Nat
  | .track key _ => key.approximateHeapSize
  | .untrack key _ => key.approximateHeapSize

structure Region where
  startKey : Bytes
  endKey : Bytes
  version : Nat
deriving DecidableEq, Repr

def Region.default : Region := ⟨[], [], 0⟩

/-- The map from keys to locks: keys are the same when their bytes are, and the map keeps the first one's buffer. -/
abbrev LockMap := Map Bytes (Key × MiniLock)

inductive LockTracker
  | pending
  | preparing (locks : List PendingLock)
  | prepared (region : Region) (locks : LockMap)

/-- What `enable_pcr` puts in the tracker's place: "Force lock_tracker to Prepared, bypassing lock resolution." -/
def LockTracker.enablePcr : LockTracker := .prepared Region.default ∅

open Track.LockTracker

def LockTracker.heldBytes : LockTracker → Nat
  | .pending => 0
  | .preparing locks => (locks.map (·.approximateHeapSize)).sum
  | .prepared _ locks => Map.weigh (fun _ held => held.1.approximateHeapSize) locks

structure LockModifiedCount where
  startTs : Nat
  count : Int
deriving DecidableEq, Repr

structure Delegate where
  memoryQuota : MemoryQuota
  lockTracker : LockTracker

open Track.Delegate

/-- `Result` of the calls that charge the quota: `none` is `MemoryQuotaExceeded`. -/
abbrev Counts := Option (List LockModifiedCount)

namespace Delegate

/-- "PCR: Start as Preparing so push_lock works even if CDC events arrive before enable_pcr" -/
def new (memoryQuota : MemoryQuota) : Delegate := ⟨memoryQuota, .preparing []⟩

def pushLock (d : Delegate) (key : Key) (startTs : MiniLock) : Option (Delegate × Counts) :=
  let bytes := key.approximateHeapSize
  match d.lockTracker with
  | .pending => none
  | .preparing locks =>
    match d.memoryQuota.alloc bytes with
    | none => some (d, none)
    | some q => some (⟨q, .preparing (locks ++ [.track key startTs])⟩, some [])
  | .prepared region locks =>
    match locks.lookup key.bytes with
    | some (held, old) =>
      if old.ts ≠ startTs.ts then
        some ({ d with lockTracker := .prepared region (locks.insert key.bytes (held, startTs)) },
          some [⟨old.ts, -1⟩, ⟨startTs.ts, 1⟩])
      else some (d, some [])
    | none =>
      -- the entry is put in first, and stays there when the quota has no room
      let tracker := .prepared region (locks.insert key.bytes (key, startTs))
      match d.memoryQuota.alloc bytes with
      | none => some ({ d with lockTracker := tracker }, none)
      | some q => some (⟨q, tracker⟩, some [⟨startTs.ts, 1⟩])

def popLock (d : Delegate) (key : Key) (startTs : Nat) : Option (Delegate × Counts) :=
  match d.lockTracker with
  | .pending => none
  | .preparing locks =>
    match d.memoryQuota.alloc key.approximateHeapSize with
    | none => some (d, none)
    | some q => some (⟨q, .preparing (locks ++ [.untrack key startTs])⟩, some [])
  | .prepared region locks =>
    match locks.lookup key.bytes with
    | some (held, lock) =>
      if lock.ts = startTs then
        some (⟨d.memoryQuota.free held.approximateHeapSize, .prepared region (locks.erase key.bytes)⟩,
          some [⟨startTs, -1⟩])
      else some (d, some [])
    | none => some (d, some [])

def initLockTracker (d : Delegate) : Delegate × Bool :=
  match d.lockTracker with
  | .pending => ({ d with lockTracker := .preparing [] }, true)
  | _ => (d, false)

/-- One listed change on the scanned locks; a lock that the scan has otherwise fails an assertion. -/
def applyPending (locks : LockMap) : PendingLock → Option LockMap
  | .track key startTs =>
    match locks.lookup key.bytes with
    | none => some (locks.insert key.bytes (key, startTs))
    | some (_, old) => if old = startTs then some locks else none
  | .untrack key startTs =>
    match locks.lookup key.bytes with
    | some (_, lock) => if lock.ts = startTs then some (locks.erase key.bytes) else some locks
    | none => some locks

/-- `finish_prepare_lock_tracker`, with whether the quota had room; without it the tracker is left `pending`. -/
def finishPrepareLockTracker (d : Delegate) (region : Region) (locks : LockMap) : Option (Delegate × Bool) :=
  match d.lockTracker with
  | .preparing delta =>
    match delta.foldlM applyPending locks with
    | none => none
    | some locks =>
      let q := d.memoryQuota.free (LockTracker.preparing delta).heldBytes
      match q.alloc (LockTracker.prepared region locks).heldBytes with
      | none => some (⟨q, .pending⟩, false)
      | some q => some (⟨q, .prepared region locks⟩, true)
  | _ => none

def enablePcr (d : Delegate) : Delegate := { d with lockTracker := .enablePcr }

def drop (d : Delegate) : MemoryQuota :=
  match d.lockTracker with
  | .pending => d.memoryQuota
  | tracker => d.memoryQuota.free tracker.heldBytes

end Delegate

/-! ## A delegate among the users of the quota -/

inductive Account
  | live (d : Delegate) (others : Nat)
  | dropped (q : MemoryQuota) (others : Nat)

namespace Account

def charged : Account → Int
  | live d others => d.memoryQuota.inUse - others
  | dropped q others => q.inUse - others

def held : Account → Nat
  | live d _ => d.lockTracker.heldBytes
  | dropped _ _ => 0

def Exact (a : Account) : Prop := a.charged = a.held

instance instDecidableExact (a : Account) : Decidable a.Exact := inferInstanceAs (Decidable (_ = _))

end Account

/-- The calls on the delegate; and what others do to the quota in between. -/
inductive Call
  | pushLock (key : Key) (startTs : MiniLock)
  | popLock (key : Key) (startTs : Nat)
  | initLockTracker
  | finishPrepareLockTracker (region : Region) (locks : LockMap)
  | enablePcr
  | drop
  | others (charged : Nat)
  | setCapacity (capacity : Nat)

def Account.run : Account → Call → Option Account
  | .live d others, .pushLock key startTs => (d.pushLock key startTs).map fun r => .live r.1 others
  | .live d others, .popLock key startTs => (d.popLock key startTs).map fun r => .live r.1 others
  | .live d others, .initLockTracker => some (.live d.initLockTracker.1 others)
  | .live d others, .finishPrepareLockTracker region locks =>
    (d.finishPrepareLockTracker region locks).map fun r => .live r.1 others
  | .live d others, .enablePcr => some (.live d.enablePcr others)
  | .live d others, .drop => some (.dropped d.drop others)
  | .live d others, .others charged =>
    some (.live { d with memoryQuota := { d.memoryQuota with inUse := d.memoryQuota.inUse - others + charged } } charged)
  | .live d others, .setCapacity capacity =>
    some (.live { d with memoryQuota := { d.memoryQuota with capacity } } others)
  | .dropped q others, .others charged => some (.dropped { q with inUse := q.inUse - others + charged } charged)
  | .dropped q others, .setCapacity capacity => some (.dropped { q with capacity } others)
  | .dropped _ _, _ => none

def Account.Step (a : Account) (c : Call) (a' : Account) : Prop := a.run c = some a'

def Delegate.uncharged (d : Delegate) (key : Key) : Nat :=
  match d.lockTracker with
  | .prepared _ locks =>
    if (locks.lookup key.bytes).isNone ∧ (d.memoryQuota.alloc key.approximateHeapSize).isNone then
      key.approximateHeapSize
    else 0
  | _ => 0

/-- **What a call has to meet** for the account to stay exact: no lock goes into the map uncharged; PCR is enabled on a
tracker that holds nothing; and what is given back at once is not more than the quota takes back at once. -/
def KeepsExact : Account → Call → Prop
  | .live d _, .pushLock key _ => d.uncharged key = 0
  | .live d _, .finishPrepareLockTracker _ _ => d.lockTracker.heldBytes ≤ maxMemoryAllocSize
  | .live d _, .enablePcr => d.lockTracker.heldBytes = 0
  | .live d _, .drop => d.lockTracker.heldBytes ≤ maxMemoryAllocSize
  | _, _ => True

/-! ## What the calls do to the account -/

def Delegate.balance (d : Delegate) : Int := d.memoryQuota.inUse - d.lockTracker.heldBytes

def LockTracker.Small : LockTracker → Prop
  | .prepared _ locks => ∀ bytes held, locks.lookup bytes = some held → held.1.approximateHeapSize ≤ maxMemoryAllocSize
  | _ => True

section

variable {d d' : Delegate} {region : Region} {locks : LockMap}

theorem heldBytes_append (locks : List PendingLock) (l : PendingLock) :
    (preparing (locks ++ [l])).heldBytes =
      (preparing locks).heldBytes + l.approximateHeapSize := by
  simp [heldBytes]

variable {bytes : Bytes} {held : Key × MiniLock}

theorem heldBytes_erase (region : Region) (h : locks.lookup bytes = some held) :
    (prepared region locks).heldBytes =
      (prepared region (locks.erase bytes)).heldBytes + held.1.approximateHeapSize := by
  have hsplit := Map.weigh_eq_erase (fun _ (held : Key × MiniLock) => held.1.approximateHeapSize) bytes locks
  rw [h] at hsplit
  simp only [heldBytes, hsplit, Option.elim]
  omega

theorem heldBytes_insert_none (held : Key × MiniLock) (h : locks.lookup bytes = none) :
    (prepared region (locks.insert bytes held)).heldBytes =
      (prepared region locks).heldBytes + held.1.approximateHeapSize := by
  have hsplit := Map.weigh_eq_erase (fun _ (held : Key × MiniLock) => held.1.approximateHeapSize) bytes locks
  rw [h] at hsplit
  simp only [heldBytes, Map.weigh_insert, hsplit, Option.elim]
  omega

theorem heldBytes_replace {held : Key} {old : MiniLock} (new : MiniLock) (h : locks.lookup bytes = some (held, old)) :
    (prepared region (locks.insert bytes (held, new))).heldBytes =
      (prepared region locks).heldBytes := by
  have herase := heldBytes_erase region h
  simp only [heldBytes, Map.weigh_insert] at herase ⊢
  omega

theorem le_heldBytes (h : locks.lookup bytes = some held) :
    held.1.approximateHeapSize ≤ (prepared region locks).heldBytes := by
  have := heldBytes_erase region h
  omega

theorem balance_append {q q' : MemoryQuota} {delta : List PendingLock} {l : PendingLock}
    (h : q.alloc l.approximateHeapSize = some q') :
    (⟨q', .preparing (delta ++ [l])⟩ : Delegate).balance = (⟨q, .preparing delta⟩ : Delegate).balance := by
  unfold balance
  rw [alloc_eq_some h, heldBytes_append]
  dsimp only
  omega

variable {key : Key} {counts : Counts}

theorem small_insert (hs : (prepared region locks).Small) (hle : held.1.approximateHeapSize ≤ maxMemoryAllocSize) :
    (prepared region (locks.insert bytes held)).Small := by
  intro bytes' held' h
  rcases Map.lookup_insert_cases h with ⟨-, rfl⟩ | h
  · exact hle
  · exact hs bytes' held' h

theorem small_erase (hs : (prepared region locks).Small) :
    (prepared region (locks.erase bytes)).Small := fun _ _ h => hs _ _ (Map.lookup_of_erase h)

theorem small_of_heldBytes_le (h : (prepared region locks).heldBytes ≤ maxMemoryAllocSize) :
    (prepared region locks).Small := fun _ _ hl => (le_heldBytes hl).trans h

/-- **A lock is charged as it comes in**, unless the quota has no room for one that the map has not. -/
theorem pushLock_balance {startTs : MiniLock} (h : d.pushLock key startTs = some (d', counts)) :
    d'.balance = d.balance - d.uncharged key ∧
      (d.lockTracker.Small → d.uncharged key = 0 → d'.lockTracker.Small) := by
  obtain ⟨q, tracker⟩ := d
  unfold pushLock at h
  unfold uncharged
  cases tracker with
  | pending => cases h
  | preparing delta =>
    dsimp only at h ⊢
    split at h
    · cases h; exact ⟨by simp, fun hs _ => hs⟩
    rename_i hq
    cases h
    rw [balance_append (l := .track key startTs) hq]
    exact ⟨by simp, fun _ _ => trivial⟩
  | prepared region locks =>
    dsimp only at h ⊢
    split at h
    · rename_i held old hl
      rw [hl]
      split at h
      · cases h
        unfold balance
        rw [heldBytes_replace startTs hl]
        exact ⟨by simp, fun hs _ => small_insert hs (hs key.bytes (held, old) hl)⟩
      · cases h; exact ⟨by simp, fun hs _ => hs⟩
    · rename_i hl
      rw [hl]
      unfold balance
      split at h
      · rename_i hq
        cases h
        rw [heldBytes_insert_none (key, startTs) hl, hq]
        simp only [isNone_none, and_self, if_true]
        -- a key that is let in uncharged has no heap
        exact ⟨by omega, fun hs hu => small_insert hs (le_of_eq_of_le hu (Nat.zero_le _))⟩
      · rename_i hq
        cases h
        rw [heldBytes_insert_none (key, startTs) hl, hq, if_neg (fun hc => nomatch hc.2), alloc_eq_some hq]
        exact ⟨by dsimp only; omega, fun hs _ => small_insert hs (le_of_alloc hq)⟩

theorem popLock_balance {startTs : Nat} (h : d.popLock key startTs = some (d', counts))
    (hs : d.lockTracker.Small) (hb : 0 ≤ d.balance) : d'.balance = d.balance ∧ d'.lockTracker.Small := by
  obtain ⟨q, tracker⟩ := d
  unfold popLock at h
  cases tracker with
  | pending => cases h
  | preparing delta =>
    dsimp only at h
    split at h
    · cases h; exact ⟨rfl, hs⟩
    · cases h; exact ⟨balance_append (l := .untrack key startTs) ‹_›, trivial⟩
  | prepared region locks =>
    dsimp only at h
    split at h
    · rename_i hl
      split at h
      · cases h
        have herase := heldBytes_erase region hl
        unfold balance at hb ⊢
        refine ⟨?_, small_erase hs⟩
        dsimp only at hb herase ⊢
        rw [free_of_le (hs _ _ hl) (by dsimp only; omega)]
        dsimp only
        omega
      · cases h; exact ⟨rfl, hs⟩
    · cases h; exact ⟨rfl, hs⟩

theorem finishPrepareLockTracker_balance {scanned : LockMap} {ok : Bool}
    (h : d.finishPrepareLockTracker region scanned = some (d', ok)) (hb : 0 ≤ d.balance) :
    (d'.balance = d.balance ↔ d.lockTracker.heldBytes ≤ maxMemoryAllocSize) ∧ d'.lockTracker.Small := by
  obtain ⟨q, tracker⟩ := d
  unfold finishPrepareLockTracker at h
  cases tracker with
  | pending | prepared => cases h
  | preparing delta =>
    dsimp only at h hb ⊢
    generalize hdelta : (preparing delta).heldBytes = n at h hb ⊢
    -- what is in use once the list is given back
    have hfree : ((q.free n).inUse = q.inUse - n ↔ n ≤ maxMemoryAllocSize) :=
      inUse_free_iff (by unfold balance at hb; dsimp only at hb; omega)
    split at h
    · cases h
    unfold balance
    rw [hdelta]
    split at h
    · cases h
      refine ⟨Iff.trans ?_ hfree, trivial⟩
      simp only [heldBytes]
      omega
    · rename_i hq
      cases h
      refine ⟨Iff.trans ?_ hfree, small_of_heldBytes_le (le_of_alloc hq)⟩
      rw [alloc_eq_some hq]
      dsimp only
      omega

theorem drop_inUse (hb : 0 ≤ d.balance) :
    d.drop.inUse = d.balance ↔ d.lockTracker.heldBytes ≤ maxMemoryAllocSize := by
  obtain ⟨q, tracker⟩ := d
  have hfree : (q.free tracker.heldBytes).inUse = (⟨q, tracker⟩ : Delegate).balance ↔
      tracker.heldBytes ≤ maxMemoryAllocSize :=
    inUse_free_iff (by unfold balance at hb; dsimp only at hb; omega)
  cases tracker with
  | pending =>
    simp [drop, balance, heldBytes]
  | _ => exact hfree

end

/-! ## Runs -/

def Account.Sound : Account → Prop
  | .live d others => d.balance = others ∧ d.lockTracker.Small
  | .dropped q others => q.inUse = others

theorem Account.Sound.exact {a : Account} (h : a.Sound) : a.Exact := by
  cases a with
  | live d others =>
    have := h.1
    unfold balance at this
    show d.memoryQuota.inUse - others = d.lockTracker.heldBytes
    omega
  | dropped q others =>
    have : q.inUse = others := h
    show q.inUse - others = (0 : Nat)
    omega

theorem sound_step (a : Account) (c : Call) (a' : Account) (hs : a.Sound) (hok : KeepsExact a c)
    (hstep : a.Step c a') : a'.Sound := by
  cases a with
  | dropped q others =>
    have hq : q.inUse = others := hs
    cases c with
    | others charged =>
      cases hstep
      show q.inUse - others + charged = charged
      omega
    | setCapacity capacity => cases hstep; exact hq
    | _ => cases hstep
  | live d others =>
    obtain ⟨hb, hsmall⟩ := hs
    have hpos : 0 ≤ d.balance := by omega
    cases c with
    | pushLock key startTs =>
      obtain ⟨⟨d', counts⟩, h, rfl⟩ := map_eq_some_iff.1 hstep
      have hu : d.uncharged key = 0 := hok
      obtain ⟨hbal, hsmall'⟩ := pushLock_balance h
      refine ⟨?_, hsmall' hsmall hu⟩
      rw [hbal, hu, hb]
      simp
    | popLock key startTs =>
      obtain ⟨⟨d', counts⟩, h, rfl⟩ := map_eq_some_iff.1 hstep
      obtain ⟨hbal, hsmall'⟩ := popLock_balance h hsmall hpos
      exact ⟨hbal.trans hb, hsmall'⟩
    | initLockTracker =>
      cases hstep
      obtain ⟨q, tracker⟩ := d
      cases tracker with
      | prepared region locks => exact ⟨hb, hsmall⟩
      | _ => exact ⟨hb, trivial⟩
    | finishPrepareLockTracker region locks =>
      obtain ⟨⟨d', ok⟩, h, rfl⟩ := map_eq_some_iff.1 hstep
      obtain ⟨hbal, hsmall'⟩ := finishPrepareLockTracker_balance h hpos
      exact ⟨(hbal.2 hok).trans hb, hsmall'⟩
    | enablePcr =>
      cases hstep
      have hheld : d.lockTracker.heldBytes = 0 := hok
      refine ⟨?_, small_of_heldBytes_le (Nat.zero_le _)⟩
      unfold balance at hb ⊢
      rw [hheld] at hb
      exact hb
    | drop =>
      cases hstep
      exact ((drop_inUse hpos).2 hok).trans hb
    | others charged =>
      cases hstep
      refine ⟨?_, hsmall⟩
      unfold balance at hb ⊢
      dsimp only
      omega
    | setCapacity capacity => cases hstep; exact ⟨hb, hsmall⟩

def Account.new (capacity others : Nat) : Account := .live (.new ⟨others, capacity⟩) others

/-- **The account is exact after every run whose calls meet `KeepsExact`**, and so is nothing charged once the delegate
is dropped. -/
theorem exact_of_run {capacity others : Nat} {calls : List Call} {a : Account}
    (h : Run Account.Step KeepsExact (.new capacity others) calls a) : a.Exact := by
  refine (h.invariant sound_step ⟨?_, trivial⟩).exact
  simp [balance, new, heldBytes]

def sampleKey : Key := ⟨[0x61], 17, Nat.le_of_ble_eq_true rfl⟩

theorem exact_of_run_lockAndDrop : ∃ a, Run Account.Step KeepsExact (.new 100 5)
      [.pushLock sampleKey ⟨10, 0⟩, .finishPrepareLockTracker Region.default ∅, .popLock sampleKey 10, .drop] a ∧
      a.Exact ∧ a.charged = 0 := by
  refine ⟨.dropped ⟨5, 100⟩ 5, ?_⟩
  have hrun : Run Account.Step KeepsExact (.new 100 5)
      [.pushLock sampleKey ⟨10, 0⟩, .finishPrepareLockTracker Region.default ∅, .popLock sampleKey 10, .drop]
      (.dropped ⟨5, 100⟩ 5) :=
    .cons rfl rfl (.cons (Nat.le_of_ble_eq_true rfl) rfl
      (.cons trivial rfl (.cons (Nat.le_of_ble_eq_true rfl) rfl (.nil _))))
  exact ⟨hrun, exact_of_run hrun, rfl⟩

/-- **The account goes wrong twice**: PCR takes the tracker's place and its charge stays, even when the delegate is
dropped; and a lock that the quota refuses stays in the map. -/
theorem exact_fails :
    (∃ a, Run Account.Step always (.new 100 0) [.pushLock sampleKey ⟨10, 0⟩, .enablePcr, .drop] a ∧ ¬ a.Exact) ∧
    ∃ a, Run Account.Step always (.new 16 0)
      [.finishPrepareLockTracker Region.default ∅, .pushLock sampleKey ⟨10, 0⟩] a ∧ ¬ a.Exact := by
  refine ⟨⟨.dropped ⟨17, 100⟩ 0, ?_, by decide⟩,
    ⟨.live ⟨⟨0, 16⟩, .prepared Region.default (AList.insert [0x61] (sampleKey, ⟨10, 0⟩) ∅)⟩ 0, ?_, by decide⟩⟩
  all_goals exact .of_foldlM rfl

end Track
end Cdc
end Tikv
