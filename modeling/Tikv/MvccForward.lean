import Mathlib.Data.List.TakeWhile
import Tikv.MvccSnapshot
/-!
# MvccForward — the forward scanner (`scanner/forward.rs`, `ForwardKvScanner`)

The write cursor is what is left of the column family from its entry on: it only moves ahead.  In a turn the scanner checks
the lock of the current user key, moves to the read timestamp by a few steps and then a seek, and takes the record it finds
there, or goes on to older ones.  On consistent records a turn reads the key and leaves both cursors at the next user key
(`forwardTurn_eq`), so the scan puts out what is read of every key (`forwardScan_eq`).
-/
namespace Tikv
namespace Mvcc

open Lib List

structure ForwardCursors where
  write : List WriteEntry
  lock : List (Bytes × Lock)

section

variable (cfg : ReadConfig) (dflt : Nat → Option Bytes) (key : Bytes)

/-- `seek`: a forward cursor stays if it is already past the version. -/
def seekVersion (ts : Nat) (l : List WriteEntry) : List WriteEntry := l.dropWhile (·.before key ts)

def nextUserKeyFrom : (n : Nat) → List WriteEntry → List WriteEntry
  | 0, l => l
  | _ + 1, [] => []
  | n + 1, e :: l =>
    if e.userKey ≠ key then e :: l
    else if n = 0 then seekVersion key 0 (e :: l)
    else nextUserKeyFrom n l

def moveWriteCursorToNextUserKey (l : List WriteEntry) : List WriteEntry := nextUserKeyFrom key seekBound l

def toTsFrom : (n : Nat) → List WriteEntry → Except ReadError Bool × List WriteEntry
  | 0, l => (.ok false, l)
  | _ + 1, [] => (.ok false, [])
  | n + 1, e :: l =>
    if e.userKey ≠ key then (.ok false, e :: l)
    else if e.commitTs ≤ cfg.ts then (.ok true, e :: l)
    else if cfg.isolationLevel = .rcCheckTs then (.error (.writeConflict 0 e.commitTs), e :: l)
    else if n = 0 then
      let l' := seekVersion key cfg.ts (e :: l)
      (.ok (l'.head?.any (·.userKey = key)), l')
    else toTsFrom n l

def moveWriteCursorToTs (l : List WriteEntry) : Except ReadError Bool × List WriteEntry :=
  toTsFrom cfg key seekBound l

/-- The loop of `LatestKvPolicy::handle_write`.  It comes to an end if every seek moves the cursor; `fuel` bounds the
moves. -/
def handleWriteFrom : (fuel : Nat) → List WriteEntry → Except ReadError (Option Bytes) × List WriteEntry
  | 0, l => (.error (.panic "the seek to last_change_ts does not move the cursor"), l)
  | _ + 1, [] => (.ok none, [])
  | fuel + 1, e :: l =>
    if e.userKey ≠ key then (.ok none, e :: l)
    else match e.write.verdict cfg.ts with
      | .value =>
        -- the cursor is left where it is if the value cannot be loaded
        match loadWrite cfg dflt e.write with
        | .ok v => (.ok v, moveWriteCursorToNextUserKey key (e :: l))
        | .error err => (.error err, e :: l)
      | .absent => (.ok none, moveWriteCursorToNextUserKey key (e :: l))
      | .older =>
        match e.write.lastChange with
        | .notExist => (.ok none, moveWriteCursorToNextUserKey key (e :: l))
        | .unknown => handleWriteFrom fuel l
        | .exist lastChangeTs estimatedVersions =>
          if estimatedVersions < seekBound then handleWriteFrom fuel l
          else handleWriteFrom fuel (seekVersion key lastChangeTs (e :: l))

def handleWrite (l : List WriteEntry) : Except ReadError (Option Bytes) × List WriteEntry :=
  handleWriteFrom cfg dflt key (l.length + 1) l

/-- `LatestKvPolicy::handle_lock`: what the lock decides, if it does; the lock cursor is past the lock. -/
def handleLock (c : ForwardCursors) : Option (Except ReadError (Option Bytes)) × ForwardCursors :=
  match c.lock with
  | [] => (none, c)
  | (_, lock) :: rest =>
    match readLock cfg key dflt lock with
    | some r => (some r, ⟨moveWriteCursorToNextUserKey key c.write, rest⟩)
    | none => (none, ⟨c.write, rest⟩)

def forwardWrites (l : List WriteEntry) : Except ReadError (Option Bytes) × List WriteEntry :=
  match moveWriteCursorToTs cfg key l with
  | (.error e, l') => (.error e, l')
  | (.ok false, l') => (.ok none, l')
  | (.ok true, l') => handleWrite cfg dflt key l'

def forwardWriteTurn (hasWrite : Bool) (c : ForwardCursors) : Option (Bytes × Except ReadError Bytes) × ForwardCursors :=
  if hasWrite then
    let (r, l) := forwardWrites cfg dflt key c.write
    (output key r, ⟨l, c.lock⟩)
  else (none, c)

end

def forwardTurn (cfg : ReadConfig) (dflt : Bytes → Nat → Option Bytes) (c : ForwardCursors) :
    Option (Option (Bytes × Except ReadError Bytes) × ForwardCursors) :=
  match currentUserKey (fun a b => a < b) (c.write.head?.map (·.userKey)) (c.lock.head?.map (·.1)) with
  | none => none
  | some (key, hasWrite, hasLock) =>
    match if hasLock then handleLock cfg (dflt key) key c else (none, c) with
    | (some r, c) => some (output key r, c)
    | (none, c) => some (forwardWriteTurn cfg (dflt key) key hasWrite c)

def forwardCursors (cfg : ReadConfig) (ks : UserKeys) : ForwardCursors := ⟨writeCf ks, lockCursor cfg ks⟩

/-- **The list a `ForwardKvScanner` puts out**, to a caller that draws `n` times at most. -/
def forwardScan (cfg : ReadConfig) (s : Snapshot) (lower upper : Option Bytes) (n : Nat) :
    List (Bytes × Except ReadError Bytes) :=
  drain (forwardTurn cfg (defaultCf s.keys)) n (forwardCursors cfg (s.range lower upper))

/-! ## The moves of the write cursor -/

section Moves

variable {cfg : ReadConfig} {key : Bytes} {rest : List WriteEntry}

def Later (key : Bytes) (rest : List WriteEntry) : Prop := ∀ e ∈ rest, key < e.userKey

variable (hrest : Later key rest)
include hrest

theorem seekVersion_rest (ts : Nat) : seekVersion key ts rest = rest := by
  cases rest with
  | nil => rfl
  | cons e l =>
    have hlt := hrest e mem_cons_self
    refine dropWhile_cons_of_neg ?_
    unfold WriteEntry.before
    simp [lt_asymm hlt, ne_of_gt hlt]

theorem seekVersion_entriesOf (ts : Nat) : ∀ d : List (Nat × Write),
    seekVersion key ts (entriesOf key d ++ rest) = entriesOf key (d.dropWhile fun e => decide (ts < e.1)) ++ rest
  | [] => seekVersion_rest hrest ts
  | e :: d => by
    by_cases he : ts < e.1
    · rw [dropWhile_cons_of_pos (by simpa using he), ← seekVersion_entriesOf ts d]
      exact dropWhile_cons_of_pos (by simp [WriteEntry.before, he])
    rw [dropWhile_cons_of_neg (by simpa using he)]
    exact dropWhile_cons_of_neg (by simp [WriteEntry.before, he])

theorem nextUserKeyFrom_rest (n : Nat) : nextUserKeyFrom key n rest = rest := by
  cases n with
  | zero => rfl
  | succ n =>
    cases rest with
    | nil => rfl
    | cons e l => exact if_pos (ne_of_gt (hrest e mem_cons_self))

theorem nextUserKeyFrom_entriesOf : ∀ (n : Nat) {d : List (Nat × Write)}, (∀ e ∈ d, 0 < e.1) →
    nextUserKeyFrom key (n + 1) (entriesOf key d ++ rest) = rest
  | n, [], _ => nextUserKeyFrom_rest hrest (n + 1)
  | n, e :: d, hd => by
    rw [entriesOf_cons, cons_append, nextUserKeyFrom, if_neg (by simp)]
    cases n with
    | zero =>
      have hdrop : (e :: d).dropWhile (fun e => decide (0 < e.1)) = [] :=
        dropWhile_eq_nil_iff.2 fun e he => decide_eq_true (hd e he)
      rw [← cons_append, ← entriesOf_cons, seekVersion_entriesOf hrest, hdrop]
      rfl
    | succ n =>
      exact nextUserKeyFrom_entriesOf n fun e he => hd e (mem_cons_of_mem _ he)

theorem moveWriteCursorToNextUserKey_eq {d : List (Nat × Write)} (hd : ∀ e ∈ d, 0 < e.1) :
    moveWriteCursorToNextUserKey key (entriesOf key d ++ rest) = rest := nextUserKeyFrom_entriesOf hrest 7 hd

theorem head?_append_any (d : List (Nat × Write)) :
    (entriesOf key d ++ rest).head?.any (·.userKey = key) = !d.isEmpty := by
  cases d with
  | cons e d => simp
  | nil =>
    cases rest with
    | nil => rfl
    | cons e l => simpa using ne_of_gt (hrest e mem_cons_self)

theorem toTsFrom_rest (n : Nat) : toTsFrom cfg key n rest = (.ok false, rest) := by
  cases n with
  | zero => rfl
  | succ n =>
    cases rest with
    | nil => rfl
    | cons e l => exact if_pos (ne_of_gt (hrest e mem_cons_self))

theorem toTsFrom_entriesOf (hiso : cfg.isolationLevel ≠ .rcCheckTs) :
    ∀ (n : Nat) (d : List (Nat × Write)), toTsFrom cfg key (n + 1) (entriesOf key d ++ rest) =
        (.ok !(d.dropWhile fun e => decide (cfg.ts < e.1)).isEmpty,
          entriesOf key (d.dropWhile fun e => decide (cfg.ts < e.1)) ++ rest)
  | n, [] => toTsFrom_rest hrest (n + 1)
  | n, e :: d => by
    rw [entriesOf_cons, cons_append, toTsFrom, if_neg (by simp)]
    by_cases he : cfg.ts < e.1
    · rw [if_neg (not_le.2 he), if_neg hiso]
      cases n with
      | zero =>
        rw [if_pos rfl, ← cons_append, ← entriesOf_cons, seekVersion_entriesOf hrest]
        dsimp only
        rw [head?_append_any hrest]
      | succ n =>
        rw [dropWhile_cons_of_pos (by simpa using he)]
        exact toTsFrom_entriesOf hiso n d
    · rw [if_pos (not_lt.1 he), dropWhile_cons_of_neg (by simpa using he)]
      rfl

end Moves

/-! ## A turn reads the key -/

section Turn

variable {cfg : ReadConfig} {key : Bytes} {k : KeyState} {rest : List WriteEntry}

theorem Consistent.loadWrite_eq (hk : Consistent k) (cfg : ReadConfig) {e : Nat × Write} (he : e ∈ k.writes.entries)
    (hput : e.2.writeType = .put) : ∃ v, loadWrite cfg k.values.lookup e.2 = .ok v := by
  unfold loadWrite loadValue
  split
  · exact ⟨_, rfl⟩
  cases hshort : e.2.shortValue with
  | some v => exact ⟨_, rfl⟩
  | none =>
    obtain ⟨v, hv⟩ := hk.value e he hput hshort
    dsimp only
    rw [hv]
    exact ⟨_, rfl⟩

theorem handleWriteFrom_eq (hk : Consistent k) (hrest : Later key rest) :
    ∀ (fuel : Nat) {d : List (Nat × Write)}, CameTo k.writes cfg.ts d → d.length < fuel →
      handleWriteFrom cfg k.values.lookup key fuel (entriesOf key d ++ rest) =
        (readVisible cfg k.writes k.values.lookup, rest)
  | 0, _, _, hlen => absurd hlen (Nat.not_lt_zero _)
  | fuel + 1, [], h, _ => by
    unfold readVisible
    rw [h.visible_nil]
    cases rest with
    | nil => rfl
    | cons e l => exact if_pos (ne_of_gt (hrest e mem_cons_self))
  | fuel + 1, e :: d, h, hlen => by
    have hnextKey : moveWriteCursorToNextUserKey key (entriesOf key (e :: d) ++ rest) = rest :=
      moveWriteCursorToNextUserKey_eq hrest fun e' he' => hk.commitTs_pos e' (h.isSuffix.subset he')
    rw [entriesOf_cons, cons_append] at hnextKey ⊢
    rw [handleWriteFrom, if_neg (by simp)]
    rw [hnextKey]
    cases hv : e.2.verdict cfg.ts with
    | value =>
      obtain ⟨v, hload⟩ := hk.loadWrite_eq cfg h.mem (Write.verdict_eq_value.1 hv).1
      unfold readVisible
      rw [h.visible_of_value hv]
      dsimp only
      rw [hload]
    | absent =>
      unfold readVisible
      rw [h.visible_of_absent (hk.consistentAt _) hv]
    | older =>
      obtain ⟨hdata, _⟩ := Write.verdict_eq_older.1 hv
      have hnext := handleWriteFrom_eq hk hrest fuel (h.next hdata) (Nat.lt_of_succ_lt_succ hlen)
      cases hlast : e.2.lastChange with
      | unknown => exact hnext
      | notExist =>
        unfold readVisible
        rw [h.visible_of_notExist (hk.consistentAt _) hdata hlast]
      | exist t n =>
        dsimp only
        split
        · exact hnext
        obtain ⟨hlt, hcase⟩ := hk.exist e h.mem hdata t n hlast
        have hbetween : ∀ e' ∈ k.writes.entries, e'.1 < e.1 → e'.2.isData = true → e'.1 ≤ t := by
          rcases hcase with ⟨_, _, _, hmax⟩ | ⟨_, hno⟩
          · exact hmax
          intro e' he' hlt' hdata'
          rw [hno e' he' hlt'] at hdata'
          cases hdata'
        have hshorter : ((e :: d).dropWhile fun e => decide (t < e.1)).length < fuel := by
          rw [dropWhile_cons_of_pos (by simpa using hlt)]
          exact lt_of_le_of_lt (dropWhile_suffix _).length_le (Nat.lt_of_succ_lt_succ hlen)
        rw [← cons_append, ← entriesOf_cons, seekVersion_entriesOf hrest]
        exact handleWriteFrom_eq hk hrest fuel (h.seek hdata hbetween) hshorter

variable (hiso : cfg.isolationLevel ≠ .rcCheckTs)

include hiso in
theorem forwardWrites_eq (hk : Consistent k) (hrest : Later key rest) :
    forwardWrites cfg k.values.lookup key (entriesOf key k.writes.entries ++ rest) =
      (readVisible cfg k.writes k.values.lookup, rest) := by
  unfold forwardWrites moveWriteCursorToTs
  rw [show seekBound = 7 + 1 from rfl, toTsFrom_entriesOf hrest hiso]
  have hcame := cameTo_dropWhile k.writes cfg.ts
  generalize k.writes.entries.dropWhile (fun e => decide (cfg.ts < e.1)) = d at hcame
  cases d with
  | nil =>
    unfold readVisible
    rw [hcame.visible_nil]
    rfl
  | cons e d =>
    refine handleWriteFrom_eq hk hrest _ hcame ?_
    rw [length_append, entriesOf, length_map]
    omega

variable {ks : UserKeys} (hks : Ascending ((key, k) :: ks))
include hks

theorem later_writeCf : Later key (writeCf ks) := by
  intro e he
  obtain ⟨x, hx, heq⟩ := exists_of_mem_writeCf he
  rw [heq]
  exact (pairwise_cons.1 hks).1 x hx

theorem currentUserKey_forward (hmet : isMet cfg k = true) :
    currentUserKey (fun a b => a < b) ((forwardCursors cfg ((key, k) :: ks)).write.head?.map (·.userKey))
        ((forwardCursors cfg ((key, k) :: ks)).lock.head?.map (·.1)) =
      some (key, !k.writes.entries.isEmpty, (heldLock cfg k).isSome) := by
  have hlater : ∀ key' : Bytes, key < key' → decide (key < key') = true ∧ decide (key' < key) = false :=
    fun _ h => ⟨decide_eq_true h, decide_eq_false (lt_asymm h)⟩
  refine currentUserKey_eq (decide_eq_false (lt_irrefl key)) ?_ ?_ hmet
  · unfold forwardCursors
    cases hwrites : k.writes.entries with
    | cons e d =>
      rw [writeCf_cons, hwrites]
      rfl
    | nil =>
      intro wk hwk
      rw [writeCf_cons, hwrites] at hwk
      obtain ⟨e, he, rfl⟩ := Option.map_eq_some_iff.1 hwk
      exact hlater _ (later_writeCf hks e (mem_of_head? he))
  · unfold forwardCursors
    rw [lockCursor_cons]
    cases hheld : heldLock cfg k with
    | some lock => rfl
    | none =>
      intro lk hlk
      obtain ⟨l, hl, rfl⟩ := Option.map_eq_some_iff.1 hlk
      obtain ⟨x, hx, heq⟩ := exists_of_mem_lockCursor (mem_of_head? hl)
      rw [heq]
      exact hlater _ ((pairwise_cons.1 hks).1 x hx)

include hiso in
theorem forwardWriteTurn_eq (hk : Consistent k) :
    forwardWriteTurn cfg k.values.lookup key (!k.writes.entries.isEmpty) ⟨writeCf ((key, k) :: ks), lockCursor cfg ks⟩ =
      (output key (readVisible cfg k.writes k.values.lookup), forwardCursors cfg ks) := by
  unfold forwardWriteTurn
  split
  · rw [writeCf_cons, forwardWrites_eq hiso hk (later_writeCf hks)]
    rfl
  rename_i hempty
  rw [Bool.not_eq_true', Bool.not_eq_false, List.isEmpty_iff] at hempty
  rw [readVisible_of_nil hempty, writeCf_cons, hempty]
  rfl

variable {dflt : Bytes → Nat → Option Bytes}

theorem forwardTurn_of_isMet (hdflt : dflt key = k.values.lookup) (hmet : isMet cfg k = true) :
    forwardTurn cfg dflt (forwardCursors cfg ((key, k) :: ks)) = some (match lockRead cfg key k with
      | some r =>
        (output key r, ⟨moveWriteCursorToNextUserKey key (writeCf ((key, k) :: ks)), lockCursor cfg ks⟩)
      | none =>
        forwardWriteTurn cfg k.values.lookup key (!k.writes.entries.isEmpty)
          ⟨writeCf ((key, k) :: ks), lockCursor cfg ks⟩) := by
  unfold forwardTurn
  rw [currentUserKey_forward hks hmet]
  dsimp only
  rw [hdflt]
  unfold lockRead forwardCursors
  rw [lockCursor_cons]
  cases heldLock cfg k with
  | none => rfl
  | some lock =>
    rw [Option.bind_some]
    unfold handleLock
    dsimp only
    cases readLock cfg key k.values.lookup lock <;> rfl

include hiso in
theorem forwardTurn_eq (hdflt : dflt key = k.values.lookup) (hk : Consistent k) (hmet : isMet cfg k = true) :
    forwardTurn cfg dflt (forwardCursors cfg ((key, k) :: ks)) =
      some (output key (readKey cfg key k), forwardCursors cfg ks) := by
  rw [forwardTurn_of_isMet hks hdflt hmet]
  unfold readKey
  cases lockRead cfg key k with
  | none => exact congrArg some (forwardWriteTurn_eq hiso hks hk)
  | some r =>
    have hnext : moveWriteCursorToNextUserKey key (writeCf ((key, k) :: ks)) = writeCf ks :=
      moveWriteCursorToNextUserKey_eq (later_writeCf hks) hk.commitTs_pos
    rw [hnext]
    rfl

omit hks

theorem forwardCursors_of_not_isMet (hmet : isMet cfg k = false) :
    forwardCursors cfg ((key, k) :: ks) = forwardCursors cfg ks := by
  obtain ⟨hwrites, hheld⟩ := not_isMet.1 hmet
  unfold forwardCursors
  rw [writeCf_cons, lockCursor_cons, hwrites, hheld]
  rfl

include hiso in
/-- **The turns of a forward scan**: one for each user key that a cursor comes to, in ascending order. -/
theorem turns_forward : ∀ {ks : UserKeys}, Ascending ks → (∀ x ∈ ks, Consistent x.2 ∧ dflt x.1 = x.2.values.lookup) →
      Turns (forwardTurn cfg dflt) (forwardCursors cfg ks)
        ((ks.filter fun x => isMet cfg x.2).map fun x => output x.1 (readKey cfg x.1 x.2))
  | [], _, _ => .done (by unfold forwardCursors lockCursor; split <;> rfl)
  | (key, k) :: ks, hks, hall => by
    have hrest := turns_forward (pairwise_cons.1 hks).2 fun x hx => hall x (mem_cons_of_mem _ hx)
    cases hmet : isMet cfg k with
    | true =>
      obtain ⟨hk, hdflt⟩ := hall _ mem_cons_self
      rw [filter_cons_of_pos (by exact hmet)]
      exact .step (forwardTurn_eq hiso hks hdflt hk hmet) hrest
    | false =>
      rw [filter_cons_of_neg (by rw [hmet]; decide), forwardCursors_of_not_isMet hmet]
      exact hrest

end Turn

/-- **A forward scan puts out what is read of every user key of its range.** -/
theorem forwardScan_eq {cfg : ReadConfig} (hiso : cfg.isolationLevel ≠ .rcCheckTs) {s : Snapshot}
    (hs : ∀ x ∈ s.keys, Consistent x.2) {lower upper : Option Bytes} {n : Nat} (hn : (s.range lower upper).length ≤ n) :
    forwardScan cfg s lower upper n = (s.range lower upper).filterMap fun x => output x.1 (readKey cfg x.1 x.2) := by
  have hturns := turns_forward hiso (s.ascending_range lower upper) fun x hx =>
    ⟨hs x (mem_of_mem_filter hx), defaultCf_eq s.ascending (mem_of_mem_filter hx)⟩
  rw [← filterMap_output]
  refine drain_of_turns hturns ?_
  rw [length_map]
  exact (length_filter_le _ _).trans hn

end Mvcc
end Tikv
