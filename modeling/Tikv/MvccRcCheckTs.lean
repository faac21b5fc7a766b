import Tikv.MvccScan
/-!
# MvccRcCheckTs — newer versions under `RcCheckTs`

Under `RcCheckTs` a read of a key with a version newer than its timestamp is a write conflict, and so is a read under a lock.
The point getter and the forward scanner look at the newest version first.  The backward scanner meets a newer version only
on its way up, so it knows of one as long as fewer than sixteen versions are at or below the timestamp.
-/
namespace Tikv
namespace Mvcc

open Lib List Option

/-- The lock of a transaction that may have written the key, and that the reader does not know to be resolved. -/
def Lock.blocks (cfg : ReadConfig) (lock : Lock) : Prop :=
  (lock.lockType = .put ∨ lock.lockType = .delete) ∧ lock.ts ∉ cfg.bypassLocks

def HasNewer (cfg : ReadConfig) (k : KeyState) : Prop :=
  ∃ e ∈ k.writes.entries, e.2.isData = true ∧ cfg.ts < e.1

/-- **The key is in conflict with the read**: by its lock, unless the lock is one to read through; if no lock blocks it, by a
newer PUT or DELETE. -/
def Conflicts (cfg : ReadConfig) (k : KeyState) : Prop :=
  (∃ lock, k.lock = some lock ∧ lock.blocks cfg ∧ lock.ts ∉ cfg.accessLocks) ∨
    (∀ lock, k.lock = some lock → ¬ lock.blocks cfg) ∧ HasNewer cfg k

def IsConflict {α : Type} (r : Except ReadError α) : Prop := ∃ a b, r = .error (.writeConflict a b)

def Reports {σ : Type} (key : Bytes) (turn : Option (Option (Bytes × Except ReadError Bytes) × σ)) : Prop :=
  ∃ r c, turn = some (some (key, r), c) ∧ IsConflict r

/-! ## What is not a conflict -/

section NotConflict

variable {cfg : ReadConfig} {dflt : Nat → Option Bytes} {α : Type}

theorem isConflict_writeConflict (a b : Nat) :
    IsConflict (.error (.writeConflict a b) : Except ReadError α) := ⟨a, b, rfl⟩

theorem not_isConflict_ok (a : α) : ¬ IsConflict (.ok a : Except ReadError α) := by
  rintro ⟨_, _, h⟩
  cases h

theorem not_isConflict_panic (message : String) : ¬ IsConflict (.error (.panic message) : Except ReadError α) := by
  rintro ⟨_, _, h⟩
  cases h

theorem not_isConflict_loadValue (shortValue : Option Bytes) (startTs : Nat) :
    ¬ IsConflict ((loadValue cfg dflt shortValue startTs).map some) := by
  unfold loadValue
  split
  · exact not_isConflict_ok _
  split
  · exact not_isConflict_ok _
  split
  · exact not_isConflict_ok _
  · rintro ⟨_, _, h⟩
    cases h

theorem not_isConflict_loadWrite (w : Write) : ¬ IsConflict (loadWrite cfg dflt w) :=
  not_isConflict_loadValue w.shortValue w.startTs

theorem not_isConflict_loadDataByLock (lock : Lock) : ¬ IsConflict (loadDataByLock cfg dflt lock) := by
  unfold loadDataByLock
  cases lock.lockType with
  | put => exact not_isConflict_loadValue _ _
  | delete => exact not_isConflict_ok _
  | _ => exact not_isConflict_panic _

theorem not_isConflict_handleLastVersion (o : Option Write) : ¬ IsConflict (handleLastVersion cfg dflt o) := by
  cases o with
  | none => exact not_isConflict_ok _
  | some w =>
    rw [handleLastVersion]
    split
    · exact not_isConflict_ok _
    cases w.writeType with
    | put => exact not_isConflict_loadWrite w
    | delete => exact not_isConflict_ok _
    | _ => exact not_isConflict_panic _

theorem not_isConflict_pointFrom {v : Versions} : ∀ d : List (Nat × Write), ¬ IsConflict (pointFrom cfg v dflt d)
  | [] => not_isConflict_ok _
  | (_, w) :: d => by
    have hnext : ¬ IsConflict (pointFrom cfg v dflt d) := not_isConflict_pointFrom d
    rw [pointFrom]
    cases w.verdict cfg.ts with
    | value => exact not_isConflict_loadWrite w
    | absent => exact not_isConflict_ok _
    | older =>
      cases w.lastChange with
      | notExist => exact not_isConflict_ok _
      | unknown => exact hnext
      | exist t n =>
        dsimp only
        split
        · exact hnext
        cases v.lookup t with
        | none => exact not_isConflict_ok _
        | some last =>
          dsimp only
          split
          · exact not_isConflict_panic _
          cases last.verdict cfg.ts with
          | value => exact not_isConflict_loadWrite last
          | _ => exact not_isConflict_ok _

theorem not_isConflict_handleWriteFrom {key : Bytes} : ∀ (fuel : Nat) (l : List WriteEntry),
    ¬ IsConflict (handleWriteFrom cfg dflt key fuel l).1
  | 0, _ => not_isConflict_panic _
  | _ + 1, [] => not_isConflict_ok _
  | fuel + 1, e :: l => by
    have hnext : ∀ l, ¬ IsConflict (handleWriteFrom cfg dflt key fuel l).1 := not_isConflict_handleWriteFrom fuel
    rw [handleWriteFrom]
    split
    · exact not_isConflict_ok _
    cases e.write.verdict cfg.ts with
    | value =>
      have hload : ¬ IsConflict (loadWrite cfg dflt e.write) := not_isConflict_loadWrite _
      cases hres : loadWrite cfg dflt e.write with
      | ok v => exact not_isConflict_ok _
      | error err => rwa [hres] at hload
    | absent => exact not_isConflict_ok _
    | older =>
      cases e.write.lastChange with
      | notExist => exact not_isConflict_ok _
      | unknown => exact hnext l
      | exist t n =>
        dsimp only
        split
        · exact hnext l
        · exact hnext _

variable {lastVersion : Option Write} {newer : NewerTsCheckState} {lastTs : Nat}

theorem not_isConflict_seekDownFrom :
    ∀ upto after : List WriteEntry, ¬ IsConflict (seekDownFrom cfg dflt newer lastVersion lastTs upto after).result
  | [], _ => by
    rw [seekDownFrom.eq_def]
    exact not_isConflict_panic _
  | e :: upto, after => by
    rw [seekDownFrom.eq_def]
    dsimp only
    split
    · exact not_isConflict_handleLastVersion _
    cases e.write.verdict cfg.ts with
    | value => exact not_isConflict_loadWrite _
    | absent => exact not_isConflict_ok _
    | older =>
      cases after with
      | nil => exact not_isConflict_panic _
      | cons e' after => exact not_isConflict_seekDownFrom _ after

theorem not_isConflict_reverseSeek {key : Bytes}
    {c : Cursor WriteEntry} : ¬ IsConflict (reverseSeek cfg dflt key newer lastVersion lastTs c).result := by
  have hlast : ¬ IsConflict (handleLastVersion cfg dflt lastVersion) := not_isConflict_handleLastVersion _
  unfold reverseSeek
  split
  · split
    · split
      · exact hlast
      · split <;> exact hlast
    · exact hlast
  · split
    · exact not_isConflict_panic _
    · exact not_isConflict_seekDownFrom _ _

end NotConflict

/-! ## The lock -/

section Lock

variable {cfg : ReadConfig} {key : Bytes} {k : KeyState}

section

variable (hiso : cfg.isolationLevel = .rcCheckTs)
include hiso

theorem checkTsConflict_rcCheckTs (key : Bytes) (lock : Lock) :
    (lock.blocks cfg ∧ lock.checkTsConflict key cfg = .error (.writeConflict lock.ts 0)) ∨
      (¬ lock.blocks cfg ∧ lock.checkTsConflict key cfg = .ok ()) := by
  unfold Lock.blocks Lock.checkTsConflict Lock.checkTsConflictRcCheckTs Lock.isPessimisticLock
  rw [hiso]
  cases lock.lockType <;> by_cases hbypass : lock.ts ∈ cfg.bypassLocks <;> simp [hbypass]

theorem heldLock_rcCheckTs : heldLock cfg k = k.lock := by
  unfold heldLock
  rw [hiso]
  rfl

theorem isConflict_of_lockRead {r : Except ReadError (Option Bytes)}
    (h : lockRead cfg key k = some r) : IsConflict r ↔ Conflicts cfg k := by
  unfold lockRead at h
  rw [heldLock_rcCheckTs hiso] at h
  obtain ⟨lock, hlock, hread⟩ := bind_eq_some_iff.1 h
  unfold readLock at hread
  rcases checkTsConflict_rcCheckTs hiso key lock with ⟨hblocks, hcheck⟩ | ⟨_, hcheck⟩
  · rw [hcheck] at hread
    obtain rfl := some.inj hread
    have honly : ∀ l, k.lock = some l → l = lock := fun l hl => some.inj (hl.symm.trans hlock)
    split
    · rename_i haccess
      refine iff_of_false (not_isConflict_loadDataByLock lock) ?_
      rintro (⟨l, hl, _, hnot⟩ | ⟨hnone, _⟩)
      · exact hnot (honly l hl ▸ haccess)
      · exact hnone lock hlock hblocks
    · rename_i haccess
      exact iff_of_true (isConflict_writeConflict _ _) (.inl ⟨lock, hlock, hblocks, haccess⟩)
  · rw [hcheck] at hread
    cases hread

theorem conflicts_of_lockRead (h : lockRead cfg key k = none) :
    Conflicts cfg k ↔ HasNewer cfg k := by
  have hfree : ∀ lock, k.lock = some lock → ¬ lock.blocks cfg := by
    intro lock hlock
    unfold lockRead at h
    rw [heldLock_rcCheckTs hiso, hlock, bind_some] at h
    unfold readLock at h
    rcases checkTsConflict_rcCheckTs hiso key lock with ⟨_, hcheck⟩ | ⟨hnot, _⟩
    · rw [hcheck] at h
      cases h
    · exact hnot
  constructor
  · rintro (⟨lock, hlock, hblocks, _⟩ | ⟨_, hnewer⟩)
    · exact absurd hblocks (hfree lock hlock)
    · exact hnewer
  · exact fun hnewer => .inr ⟨hfree, hnewer⟩

end

end Lock

/-! ## The newest version -/

section Newest

variable {cfg : ReadConfig} {k : KeyState} (hiso : cfg.isolationLevel = .rcCheckTs)
  (hdata : ∀ e ∈ k.writes.entries, e.2.isData = true)

theorem not_hasNewer_of_nil (h : k.writes.entries = []) : ¬ HasNewer cfg k := by
  rintro ⟨e, he, _⟩
  rw [h] at he
  cases he

include hdata

theorem hasNewer_iff {e : Nat × Write} {d : List (Nat × Write)} (h : k.writes.entries = e :: d) :
    HasNewer cfg k ↔ cfg.ts < e.1 := by
  have he : e ∈ k.writes.entries := by rw [h]; exact mem_cons_self
  constructor
  · rintro ⟨e', he', _, hlt⟩
    have hsorted := k.writes.sorted
    rw [h] at he' hsorted
    rcases mem_cons.1 he' with rfl | he'
    · exact hlt
    · exact hlt.trans ((pairwise_cons.1 hsorted).1 e' he')
  · exact fun hlt => ⟨e, he, hdata e he, hlt⟩

include hiso

theorem isConflict_pointLoad (newer : NewerTsCheckState) (dflt : Nat → Option Bytes) :
    IsConflict (pointLoad cfg newer k.writes dflt).1 ↔ HasNewer cfg k := by
  unfold pointLoad newestWrite
  rw [if_pos (.inr hiso)]
  cases hentries : k.writes.entries with
  | nil => exact iff_of_false (not_isConflict_ok _) (not_hasNewer_of_nil hentries)
  | cons e d =>
    rw [hasNewer_iff hdata hentries]
    dsimp only [head?_cons]
    split
    · rename_i hlt
      exact iff_of_true (isConflict_writeConflict _ _) hlt
    rename_i hle
    exact iff_of_false (not_isConflict_pointFrom _) hle

theorem isConflict_forwardWrites (hne : k.writes.entries ≠ []) (dflt : Nat → Option Bytes) (key : Bytes)
    (rest : List WriteEntry) :
    IsConflict (forwardWrites cfg dflt key (entriesOf key k.writes.entries ++ rest)).1 ↔ HasNewer cfg k := by
  obtain ⟨e, d, hentries⟩ := exists_cons_of_ne_nil hne
  rw [hasNewer_iff hdata hentries, hentries, entriesOf_cons, cons_append]
  unfold forwardWrites moveWriteCursorToTs
  rw [show seekBound = 7 + 1 from rfl, toTsFrom, if_neg (by simp)]
  by_cases hlt : cfg.ts < e.1
  · rw [if_neg (not_le.2 hlt), if_pos hiso]
    exact iff_of_true (isConflict_writeConflict _ _) hlt
  rw [if_pos (not_lt.1 hlt)]
  exact iff_of_false (not_isConflict_handleWriteFrom _ _) hlt

/-! ## From the oldest version up -/

variable {dflt : Nat → Option Bytes} {key : Bytes} {newer : NewerTsCheckState} {before after : List WriteEntry}

omit hdata in
theorem reverseFrom_conflict {e : Nat × Write} (he : cfg.ts < e.1)
    {up : List (Nat × Write)} : ∀ (old : List (Nat × Write)) {n : Nat} (lastVersion : Option Write)
      (rest : List WriteEntry), (∀ x ∈ old, x.1 ≤ cfg.ts) → old.length < n →
      ∃ g, reverseFrom cfg dflt key newer n lastVersion ⟨entriesOf key (old ++ e :: up) ++ before, rest⟩ = .done g ∧
        IsConflict g.result
  | _, 0, _, _, _, hlen => absurd hlen (Nat.not_lt_zero _)
  | [], n + 1, lastVersion, rest, _, _ => by
    rw [nil_append, entriesOf_cons, cons_append, reverseFrom]
    dsimp only
    rw [if_neg (by simp), if_pos he, if_pos hiso]
    exact ⟨_, rfl, isConflict_writeConflict _ _⟩
  | x :: old, n + 1, lastVersion, rest, hold, hlen => by
    have hx := hold x mem_cons_self
    have hlen' : old.length < n := Nat.lt_of_succ_lt_succ hlen
    rw [cons_append, entriesOf_cons, cons_append, reverseFrom]
    dsimp only
    rw [if_neg (by simp), if_neg (not_lt.2 hx), if_neg (ne_of_gt (Nat.zero_lt_of_lt hlen'))]
    exact reverseFrom_conflict he old _ _ (fun y hy => hold y (mem_cons_of_mem _ hy)) hlen'

omit hiso hdata in
theorem not_isConflict_reverseFrom : ∀ (n : Nat) (lastVersion : Option Write) (c : Cursor WriteEntry),
    (∀ e ∈ c.upto, e.userKey = key → e.commitTs ≤ cfg.ts) →
      ∀ g, reverseFrom cfg dflt key newer n lastVersion c = .done g → ¬ IsConflict g.result
  | 0, _, _, _, _, hdone => nomatch hdone
  | n + 1, lastVersion, ⟨upto, rest⟩, hle, g, hdone => by
    rw [reverseFrom] at hdone
    cases upto with
    | nil =>
      obtain rfl := ReverseWalk.done.inj hdone
      exact not_isConflict_handleLastVersion _
    | cons e upto =>
      dsimp only at hdone
      split at hdone
      · obtain rfl := ReverseWalk.done.inj hdone
        exact not_isConflict_handleLastVersion _
      rename_i hkey
      have hts := hle e mem_cons_self (not_not.1 hkey)
      rw [if_neg (not_lt.2 hts)] at hdone
      split at hdone
      · cases hdone
      · exact not_isConflict_reverseFrom n _ _ (fun x hx => hle x (mem_cons_of_mem _ hx)) g hdone

/-- **The backward scanner knows of a newer version** if fewer than sixteen versions are at or below the timestamp. -/
theorem isConflict_reverseGet (ha : Around key before after)
    (hfew : (k.writes.entries.countP fun e => decide (e.1 ≤ cfg.ts)) < reverseSeekBound) :
    IsConflict (reverseGet cfg dflt key newer ⟨entriesOf key k.writes.entries.reverse ++ before, after⟩).result ↔
      HasNewer cfg k := by
  unfold reverseGet
  constructor
  · intro hconflict
    apply Classical.byContradiction
    intro hnone
    have hle : ∀ e ∈ entriesOf key k.writes.entries.reverse ++ before, e.userKey = key → e.commitTs ≤ cfg.ts := by
      intro e he hkey
      rcases mem_append.1 he with he | he
      · have hmem := mem_reverse.1 (mem_entriesOf.1 he).2
        exact not_lt.1 fun hlt => hnone ⟨_, hmem, hdata _ hmem, hlt⟩
      · exact absurd hkey (ne_of_lt (ha.before_lt e he))
    split at hconflict
    · rename_i g hdone
      exact not_isConflict_reverseFrom _ _ _ hle g hdone hconflict
    · exact not_isConflict_reverseSeek hconflict
  · rintro ⟨x, hx, _, hxlt⟩
    -- the first newer version on the way up, and the versions before it
    obtain ⟨e, hfind⟩ := isSome_iff_exists.1
      (find?_isSome.2 ⟨x, mem_reverse.2 hx, decide_eq_true hxlt⟩ :
        (k.writes.entries.reverse.find? fun y => decide (cfg.ts < y.1)).isSome)
    obtain ⟨he, old, up, hsplit, hold⟩ := find?_eq_some_iff_append.1 hfind
    have hle : ∀ y ∈ old, y.1 ≤ cfg.ts := by simpa using hold
    have hlen : old.length < reverseSeekBound := by
      have hcount : (old.countP fun y => decide (y.1 ≤ cfg.ts)) = old.length :=
        countP_eq_length.2 fun y hy => decide_eq_true (hle y hy)
      rw [← countP_reverse, hsplit, countP_append] at hfew
      omega
    obtain ⟨g, hdone, hg⟩ := reverseFrom_conflict hiso (of_decide_eq_true he) old none after hle hlen
    rw [hsplit, hdone]
    exact hg

end Newest

/-! ## The turns -/

section Turns

variable {cfg : ReadConfig} {key : Bytes} {k : KeyState} {r : Except ReadError (Option Bytes)}

theorem reports_iff {σ : Type} {turn : Option (Option (Bytes × Except ReadError Bytes) × σ)}
    {c : σ} (h : turn = some (output key r, c)) : Reports key turn ↔ IsConflict r := by
  subst h
  constructor
  · rintro ⟨r', c', heq, a, b, rfl⟩
    obtain ⟨hout, rfl⟩ := Prod.mk.inj (some.inj heq)
    match r, hout with
    | .error _, hout =>
      cases hout
      exact ⟨a, b, rfl⟩
  · rintro ⟨a, b, rfl⟩
    exact ⟨_, c, rfl, a, b, rfl⟩

variable {x : Except ReadError Bytes}

theorem eq_of_output {key' : Bytes} (h : output key r = some (key', x)) : key' = key := by
  match r, h with
  | .ok (some _), h => cases h; rfl
  | .error _, h => cases h; rfl

theorem mem_of_currentUserKey {first : Bytes → Bytes → Bool} {writeKey lockKey : Option Bytes} {has : Bool × Bool}
    (h : currentUserKey first writeKey lockKey = some (key, has)) : key ∈ writeKey ∨ key ∈ lockKey := by
  unfold currentUserKey at h
  repeat' split at h
  all_goals cases h
  all_goals simp

variable {dflt : Bytes → Nat → Option Bytes}

theorem mem_of_forwardTurn {c c' : ForwardCursors} (h : forwardTurn cfg dflt c = some (some (key, x), c')) :
    key ∈ c.write.head?.map (·.userKey) ∨ key ∈ c.lock.head?.map (·.1) := by
  unfold forwardTurn at h
  split at h
  · cases h
  rename_i key' hasWrite hasLock hkey
  have hmem := mem_of_currentUserKey hkey
  obtain rfl : key = key' := by
    split at h
    · exact eq_of_output (Prod.mk.inj (some.inj h)).1
    unfold forwardWriteTurn at h
    split at h
    · exact eq_of_output (Prod.mk.inj (some.inj h)).1
    · cases h
  exact hmem

theorem mem_of_backwardTurn {c c' : BackwardCursors} (h : backwardTurn cfg dflt c = some (some (key, x), c')) :
    key ∈ c.write.upto.head?.map (·.userKey) ∨ key ∈ c.lock.head?.map (·.1) := by
  have hwrites : ∀ {dflt key' hasWrite c₀}, some (backwardWriteTurn cfg dflt key' hasWrite c₀) = some (some (key, x), c') →
      key = key' := by
    intro dflt key' hasWrite c₀ h
    unfold backwardWriteTurn at h
    split at h
    · exact eq_of_output (Prod.mk.inj (some.inj h)).1
    · cases h
  unfold backwardTurn at h
  split at h
  · cases h
  rename_i key' hasWrite hasLock hkey
  have hmem := mem_of_currentUserKey hkey
  obtain rfl : key = key' := by
    split at h
    · dsimp only at h
      split at h
      · exact eq_of_output (Prod.mk.inj (some.inj h)).1
      · exact hwrites h
    · exact hwrites h
  exact hmem

section

variable (hiso : cfg.isolationLevel = .rcCheckTs) (hdata : ∀ e ∈ k.writes.entries, e.2.isData = true)
include hiso

theorem not_conflicts_of_not_isMet (hmet : isMet cfg k = false) : ¬ Conflicts cfg k := by
  obtain ⟨hwrites, hheld⟩ := not_isMet.1 hmet
  rw [heldLock_rcCheckTs hiso] at hheld
  rintro (⟨lock, hlock, _⟩ | ⟨_, hnewer⟩)
  · rw [hheld] at hlock
    cases hlock
  · exact not_hasNewer_of_nil hwrites hnewer

theorem reports_of_lockRead {σ : Type} {turn : Option (Option (Bytes × Except ReadError Bytes) × σ)} {c : σ}
    {onWrites : Option (Bytes × Except ReadError Bytes) × σ} (hturn : turn = some (match lockRead cfg key k with
      | some r => (output key r, c)
      | none => onWrites))
    (hwrites : ∃ r c', onWrites = (output key r, c') ∧ (IsConflict r ↔ HasNewer cfg k)) :
    Reports key turn ↔ Conflicts cfg k := by
  cases hread : lockRead cfg key k with
  | some r =>
    rw [hread] at hturn
    exact (reports_iff hturn).trans (isConflict_of_lockRead hiso hread)
  | none =>
    rw [hread] at hturn
    obtain ⟨r, c', rfl, hr⟩ := hwrites
    rw [conflicts_of_lockRead hiso hread]
    exact (reports_iff hturn).trans hr

include hdata

theorem forward_reports (hdflt : dflt key = k.values.lookup) {ks : UserKeys} (hks : Ascending ((key, k) :: ks)) :
    Reports key (forwardTurn cfg dflt (forwardCursors cfg ((key, k) :: ks))) ↔ Conflicts cfg k := by
  cases hmet : isMet cfg k with
  | false =>
    refine iff_of_false ?_ (not_conflicts_of_not_isMet hiso hmet)
    rintro ⟨r, c, hturn, _⟩
    rw [forwardCursors_of_not_isMet hmet] at hturn
    obtain ⟨x, hx, heq⟩ : ∃ x ∈ ks, key = x.1 := by
      rcases mem_of_forwardTurn hturn with hmem | hmem
      · obtain ⟨e, he, rfl⟩ := map_eq_some_iff.1 hmem
        exact exists_of_mem_writeCf (mem_of_head? he)
      obtain ⟨l, hl, rfl⟩ := map_eq_some_iff.1 hmem
      exact exists_of_mem_lockCursor (mem_of_head? hl)
    exact absurd heq (ne_of_lt ((pairwise_cons.1 hks).1 x hx))
  | true =>
    refine reports_of_lockRead hiso (forwardTurn_of_isMet hks hdflt hmet) ?_
    cases hempty : k.writes.entries.isEmpty with
    | true => exact ⟨.ok none, _, rfl, iff_of_false (not_isConflict_ok _) (not_hasNewer_of_nil (isEmpty_iff.1 hempty))⟩
    | false => exact ⟨_, _, rfl, isConflict_forwardWrites hiso hdata (isEmpty_eq_false_iff.1 hempty) _ key (writeCf ks)⟩

theorem backward_reports (hdflt : dflt key = k.values.lookup) {below : UserKeys}
    (hks : Ascending (below ++ [(key, k)])) {after : List WriteEntry} (hafter : ∀ e ∈ after, key < e.userKey)
    (hfew : (k.writes.entries.countP fun e => decide (e.1 ≤ cfg.ts)) < reverseSeekBound) (newer : NewerTsCheckState) :
    Reports key (backwardTurn cfg dflt (backwardCursors cfg (below ++ [(key, k)]) after newer)) ↔ Conflicts cfg k := by
  cases hmet : isMet cfg k with
  | false =>
    refine iff_of_false ?_ (not_conflicts_of_not_isMet hiso hmet)
    rintro ⟨r, c, hturn, _⟩
    rw [backwardCursors_of_not_isMet hmet] at hturn
    obtain ⟨x, hx, heq⟩ : ∃ x ∈ below, key = x.1 := by
      rcases mem_of_backwardTurn hturn with hmem | hmem
      · obtain ⟨e, he, rfl⟩ := map_eq_some_iff.1 hmem
        exact exists_of_mem_writeCf (mem_reverse.1 (mem_of_head? he))
      obtain ⟨l, hl, rfl⟩ := map_eq_some_iff.1 hmem
      exact exists_of_mem_lockCursor (mem_reverse.1 (mem_of_head? hl))
    exact absurd heq (ne_of_gt ((pairwise_append.1 hks).2.2 x hx _ mem_cons_self))
  | true =>
    obtain ⟨newer', hturn⟩ := backwardTurn_of_isMet hks hdflt hmet after newer
    refine reports_of_lockRead hiso hturn ?_
    cases hempty : k.writes.entries.isEmpty with
    | true => exact ⟨.ok none, _, rfl, iff_of_false (not_isConflict_ok _) (not_hasNewer_of_nil (isEmpty_iff.1 hempty))⟩
    | false => exact ⟨_, _, rfl, isConflict_reverseGet hiso hdata (around_writeCf hks hafter) hfew⟩

end

end Turns

/-- **Who reports a write conflict under `RcCheckTs`**: of a key with PUT and DELETE records the point getter and the forward
scanner do just if the key is in conflict, and the backward scanner too if fewer than sixteen versions of it are at or below
the timestamp. -/
theorem reports_iff_conflicts {cfg : ReadConfig} (hiso : cfg.isolationLevel = .rcCheckTs) {s : Snapshot}
    {lower upper : Option Bytes} {below above : UserKeys} {key : Bytes} {k : KeyState}
    (hrange : s.range lower upper = below ++ (key, k) :: above)
    (hdata : ∀ e ∈ k.writes.entries, e.2.isData = true) (newer newer' : NewerTsCheckState) :
    (IsConflict (pointGet cfg newer key k).1 ↔ Conflicts cfg k) ∧
      (Reports key (forwardTurn cfg (defaultCf s.keys) (forwardCursors cfg ((key, k) :: above))) ↔ Conflicts cfg k) ∧
      ((k.writes.entries.countP fun e => decide (e.1 ≤ cfg.ts)) < reverseSeekBound →
        (Reports key (backwardTurn cfg (defaultCf s.keys)
          (backwardCursors cfg (below ++ [(key, k)]) (writeCf above) newer')) ↔ Conflicts cfg k)) := by
  have hasc := s.ascending_range lower upper
  rw [hrange] at hasc
  have hmem : (key, k) ∈ s.range lower upper := by rw [hrange]; simp
  have hdflt := defaultCf_eq s.ascending (mem_of_mem_filter hmem)
  have habove : Ascending ((key, k) :: above) := (pairwise_append.1 hasc).2.1
  have hbelow : Ascending (below ++ [(key, k)]) := hasc.sublist (by simp)
  refine ⟨?_, forward_reports hiso hdata hdflt habove,
    fun hfew => backward_reports hiso hdata hdflt hbelow (later_writeCf habove) hfew newer'⟩
  obtain ⟨newer₁, hget⟩ := pointGet_fst cfg newer key k
  rw [hget]
  cases hread : lockRead cfg key k with
  | some r => exact isConflict_of_lockRead hiso hread
  | none =>
    rw [conflicts_of_lockRead hiso hread]
    exact isConflict_pointLoad hiso hdata newer₁ _

def rcCheckTsAt (ts : Nat) : ReadConfig := ⟨ts, .rcCheckTs, false, [], []⟩

def keyOfPuts (n : Nat) : KeyState :=
  ⟨none, (List.range n).foldl (fun v i => v.insert (i + 1) (.new .put i (some [1]))) .empty, ∅⟩

def oneKey (k : KeyState) : Snapshot := ⟨[([1], k)], List.pairwise_singleton _ _⟩

theorem reports_iff_conflicts_three : Conflicts (rcCheckTsAt 2) (keyOfPuts 3) ∧
    IsConflict (pointGet (rcCheckTsAt 2) .unknown [1] (keyOfPuts 3)).1 ∧
    Reports [1] (forwardTurn (rcCheckTsAt 2) (defaultCf (oneKey (keyOfPuts 3)).keys)
      (forwardCursors (rcCheckTsAt 2) [([1], keyOfPuts 3)])) ∧
    Reports [1] (backwardTurn (rcCheckTsAt 2) (defaultCf (oneKey (keyOfPuts 3)).keys)
      (backwardCursors (rcCheckTsAt 2) [([1], keyOfPuts 3)] [] .unknown)) := by
  have hconf : Conflicts (rcCheckTsAt 2) (keyOfPuts 3) :=
    .inr ⟨nofun, (3, .new .put 2 (some [1])), by decide, rfl, by decide⟩
  obtain ⟨hpoint, hforward, hbackward⟩ := @reports_iff_conflicts (rcCheckTsAt 2) rfl (oneKey (keyOfPuts 3)) none none
    [] [] [1] (keyOfPuts 3) rfl (by decide) .unknown .unknown
  exact ⟨hconf, hpoint.2 hconf, hforward.2 hconf, (hbackward (by decide)).2 hconf⟩

/-- A lock is a conflict without a newer version.  Of seventeen versions read at the sixteenth the backward scanner reports
no conflict. -/
theorem not_reports_iff_hasNewer :
    (IsConflict (pointGet (rcCheckTsAt 10) .unknown [1] lockedKey).1 ∧ ¬ HasNewer (rcCheckTsAt 10) lockedKey) ∧
    (HasNewer (rcCheckTsAt 16) (keyOfPuts 17) ∧
      ¬ Reports [1] (backwardTurn (rcCheckTsAt 16) (defaultCf (oneKey (keyOfPuts 17)).keys)
        (backwardCursors (rcCheckTsAt 16) [([1], keyOfPuts 17)] [] .unknown))) := by
  refine ⟨⟨⟨7, 0, by decide⟩, ?_⟩, ⟨(17, .new .put 16 (some [1])), by decide, rfl, by decide⟩, ?_⟩
  · have hle : ∀ e ∈ lockedKey.writes.entries, e.1 ≤ 10 := by decide
    rintro ⟨e, he, _, hlt⟩
    exact absurd hlt (not_lt.2 (hle e he))
  · have hread : (backwardTurn (rcCheckTsAt 16) (defaultCf (oneKey (keyOfPuts 17)).keys)
        (backwardCursors (rcCheckTsAt 16) [([1], keyOfPuts 17)] [] .unknown)).map (·.1) = some (some ([1], .ok [1])) := by
      decide
    rintro ⟨r, c, hturn, a, b, rfl⟩
    rw [hturn] at hread
    cases hread

end Mvcc
end Tikv
