import Mathlib.Data.List.TakeWhile
import Tikv.MvccSnapshot
/-!
# MvccBackward — the backward scanner (`scanner/backward.rs`, `BackwardKvScanner`)

The backward scanner comes to a user key at its oldest version.  It walks up to newer versions for at most sixteen looks and
keeps the last PUT or DELETE at or below the read timestamp; if it has still not met a newer version it seeks the read
timestamp and walks down to where it has been.  On consistent records a turn reads the key and leaves both cursors at the
user key before it (`backwardTurn_eq`), so the scan puts out what is read of every key, last key first (`backwardScan_eq`).
-/
namespace Tikv
namespace Mvcc

open Lib List

def reverseSeekBound : Nat := 16

structure BackwardCursors where
  write : Cursor WriteEntry
  lock : List (Bytes × Lock)
  newer : NewerTsCheckState

section

variable (cfg : ReadConfig) (dflt : Nat → Option Bytes) (key : Bytes) (newer : NewerTsCheckState)

def handleLastVersion : Option Write → Except ReadError (Option Bytes)
  | none => .ok none
  | some write =>
    if write.checkGcFence cfg.ts = false then .ok none
    else match write.writeType with
      | .put => loadWrite cfg dflt write
      | .delete => .ok none
      | .lock | .rollback => .error (.panic "internal error: entered unreachable code")

structure ReverseGet where
  result : Except ReadError (Option Bytes)
  metPrevUserKey : Bool
  write : Cursor WriteEntry
  newer : NewerTsCheckState

inductive ReverseWalk
  | done (r : ReverseGet)
  | seek (lastVersion : Option Write) (lastCheckedCommitTs : Nat) (write : Cursor WriteEntry)

def reverseFrom : (n : Nat) → (lastVersion : Option Write) → Cursor WriteEntry → ReverseWalk
  | 0, lastVersion, c => .seek lastVersion 0 c
  | n + 1, lastVersion, c =>
    match c.upto with
    | [] => .done ⟨handleLastVersion cfg dflt lastVersion, false, c, newer⟩
    | e :: _ =>
      if e.userKey ≠ key then .done ⟨handleLastVersion cfg dflt lastVersion, true, c, newer⟩
      else if cfg.ts < e.commitTs then
        .done ⟨if cfg.isolationLevel = .rcCheckTs then .error (.writeConflict 0 e.commitTs)
            else handleLastVersion cfg dflt lastVersion,
          false, c, if newer = .notMetYet then .met else newer⟩
      else
        let lastVersion := if e.write.isData then some e.write else lastVersion
        if n = 0 then .seek lastVersion e.commitTs c else reverseFrom n lastVersion c.prev

def seekDownFrom (lastVersion : Option Write) (lastCheckedCommitTs : Nat) : (upto after : List WriteEntry) → ReverseGet
  | [], after => ⟨.error (.panic "assertion failed: self.write_cursor.valid()?"), false, ⟨[], after⟩, newer⟩
  | e :: upto, after =>
    if e.commitTs ≤ lastCheckedCommitTs then
      ⟨handleLastVersion cfg dflt lastVersion, false, ⟨e :: upto, after⟩, newer⟩
    else match e.write.verdict cfg.ts with
      | .value => ⟨loadWrite cfg dflt e.write, false, ⟨e :: upto, after⟩, newer⟩
      | .absent => ⟨.ok none, false, ⟨e :: upto, after⟩, newer⟩
      | .older =>
        match after with
        | [] => ⟨.error (.panic "assertion failed: self.write_cursor.valid()?"), false, ⟨[], []⟩, newer⟩
        | e' :: after => seekDownFrom lastVersion lastCheckedCommitTs (e' :: e :: upto) after

def reverseSeek (lastVersion : Option Write) (lastCheckedCommitTs : Nat) (c : Cursor WriteEntry) : ReverseGet :=
  if lastCheckedCommitTs = cfg.ts then
    let result := handleLastVersion cfg dflt lastVersion
    if newer = .notMetYet then
      -- one version further, for the report of newer data
      match c.prev.upto with
      | [] => ⟨result, false, c.prev, newer⟩
      | e :: _ => if e.userKey = key then ⟨result, false, c.prev, .met⟩ else ⟨result, true, c.prev, newer⟩
    else ⟨result, false, c, newer⟩
  else if cfg.ts < lastCheckedCommitTs then
    ⟨.error (.panic "assertion failed: ts > last_checked_commit_ts"), false, c, newer⟩
  else
    -- the newest version is looked at only for the report
    let c' := if newer = .notMetYet then c.seek (·.userKey < key) else c
    let newer' := if newer = .notMetYet ∧ c'.upto.head?.any (cfg.ts < ·.commitTs) then .met else newer
    let c'' := c'.seek (·.before key cfg.ts)
    seekDownFrom cfg dflt newer' lastVersion lastCheckedCommitTs c''.upto c''.after

def reverseGet (c : Cursor WriteEntry) : ReverseGet :=
  match reverseFrom cfg dflt key newer reverseSeekBound none c with
  | .done r => r
  | .seek lastVersion lastCheckedCommitTs c => reverseSeek cfg dflt key newer lastVersion lastCheckedCommitTs c

def prevUserKeyFrom : (n : Nat) → Cursor WriteEntry → Cursor WriteEntry
  | 0, c => c
  | n + 1, c =>
    match c.upto with
    | [] => c
    | e :: _ =>
      if e.userKey ≠ key then c
      else if n = 0 then c.seekForPrev (·.userKey < key)
      else prevUserKeyFrom n c.prev

def moveWriteCursorToPrevUserKey (c : Cursor WriteEntry) : Cursor WriteEntry := prevUserKeyFrom key seekBound c

def backwardWriteTurn (hasWrite : Bool) (c : BackwardCursors) : Option (Bytes × Except ReadError Bytes) × BackwardCursors :=
  if hasWrite then
    let g := reverseGet cfg dflt key c.newer c.write
    (output key g.result, ⟨if g.metPrevUserKey then g.write else moveWriteCursorToPrevUserKey key g.write, c.lock, g.newer⟩)
  else (none, c)

end

/-- One turn of the loop of `read_next`.  A lock that decides the read has the write cursor moved past the key. -/
def backwardTurn (cfg : ReadConfig) (dflt : Bytes → Nat → Option Bytes) (c : BackwardCursors) :
    Option (Option (Bytes × Except ReadError Bytes) × BackwardCursors) :=
  match currentUserKey (fun a b => b < a) (c.write.upto.head?.map (·.userKey)) (c.lock.head?.map (·.1)) with
  | none => none
  | some (key, hasWrite, hasLock) =>
    if hasLock then
      let newer := if c.newer = .notMetYet then .met else c.newer
      match c.lock.head?.bind fun l => readLock cfg key (dflt key) l.2 with
      | some r =>
        some (output key r,
          ⟨if hasWrite then moveWriteCursorToPrevUserKey key c.write else c.write, c.lock.tail, newer⟩)
      | none => some (backwardWriteTurn cfg (dflt key) key hasWrite ⟨c.write, c.lock.tail, newer⟩)
    else some (backwardWriteTurn cfg (dflt key) key hasWrite c)

def backwardCursors (cfg : ReadConfig) (ks : UserKeys) (after : List WriteEntry) (newer : NewerTsCheckState) :
    BackwardCursors := ⟨⟨(writeCf ks).reverse, after⟩, (lockCursor cfg ks).reverse, newer⟩

/-- **The list a `BackwardKvScanner` puts out**, to a caller that draws `n` times at most. -/
def backwardScan (cfg : ReadConfig) (newer : NewerTsCheckState) (s : Snapshot) (lower upper : Option Bytes) (n : Nat) :
    List (Bytes × Except ReadError Bytes) :=
  drain (backwardTurn cfg (defaultCf s.keys)) n (backwardCursors cfg (s.range lower upper) [] newer)

/-! ## The moves of the write cursor -/

/-- The write cursor is among the versions `d` of the key, or at the entry before them; `before` are the entries of earlier
keys, nearest first, and `after` those of later keys. -/
inductive AtKey (key : Bytes) (d : List (Nat × Write)) (before after : List WriteEntry) : Cursor WriteEntry → Prop
  | mk (up down : List (Nat × Write)) (h : up.reverse ++ down = d) :
      AtKey key d before after ⟨entriesOf key up ++ before, entriesOf key down ++ after⟩

section Moves

variable {cfg : ReadConfig} {key : Bytes} {d : List (Nat × Write)} {before after : List WriteEntry} {c : Cursor WriteEntry}

theorem entriesOf_append (d d' : List (Nat × Write)) :
    entriesOf key (d ++ d') = entriesOf key d ++ entriesOf key d' := map_append

theorem entriesOf_reverse : entriesOf key d.reverse = (entriesOf key d).reverse := map_reverse

theorem AtKey.all_eq (h : AtKey key d before after c) : c.all = before.reverse ++ entriesOf key d ++ after := by
  obtain ⟨up, down, rfl⟩ := h
  unfold Cursor.all
  simp [entriesOf_append, entriesOf_reverse]

structure Around (key : Bytes) (before after : List WriteEntry) : Prop where
  before_lt : ∀ e ∈ before, e.userKey < key
  lt_after : ∀ e ∈ after, key < e.userKey

theorem prevUserKeyFrom_before (hb : ∀ e ∈ before, e.userKey < key) (n : Nat) (rest : List WriteEntry) :
    prevUserKeyFrom key n ⟨before, rest⟩ = ⟨before, rest⟩ := by
  cases n with
  | zero => rfl
  | succ n =>
    cases before with
    | nil => rfl
    | cons e l => exact if_pos (ne_of_lt (hb e mem_cons_self))

theorem prevUserKeyFrom_eq (ha : Around key before after) : ∀ (n : Nat) (up down : List (Nat × Write)),
    prevUserKeyFrom key (n + 1) ⟨entriesOf key up ++ before, entriesOf key down ++ after⟩ =
      ⟨before, entriesOf key (up.reverse ++ down) ++ after⟩
  | n, [], down => prevUserKeyFrom_before ha.before_lt (n + 1) _
  | n, e :: up, down => by
    rw [entriesOf_cons, cons_append, prevUserKeyFrom]
    dsimp only
    rw [if_neg (by simp)]
    cases n with
    | zero =>
      have hall := (@AtKey.mk key _ before after (e :: up) down rfl).all_eq
      rw [append_assoc] at hall
      refine (Cursor.seekForPrev_eq hall ?_ ?_).trans (by rw [reverse_reverse])
      · exact fun x hx => decide_eq_true (ha.before_lt x (mem_reverse.1 hx))
      · intro x hx
        apply decide_eq_false
        rcases mem_append.1 hx with hx | hx
        · rw [(mem_entriesOf.1 hx).1]
          exact lt_irrefl key
        · exact lt_asymm (ha.lt_after x hx)
    | succ n =>
      rw [reverse_cons, append_assoc]
      exact prevUserKeyFrom_eq ha n up (e :: down)

theorem AtKey.moveToPrev (h : AtKey key d before after c) (ha : Around key before after) :
    moveWriteCursorToPrevUserKey key c = ⟨before, entriesOf key d ++ after⟩ := by
  obtain ⟨up, down, rfl⟩ := h
  exact prevUserKeyFrom_eq ha 7 up down

end Moves

/-! ## `reverse_get` reads the visible version -/

section Reverse

variable {cfg : ReadConfig} {dflt : Nat → Option Bytes} {key : Bytes} {newer : NewerTsCheckState} {v : Versions}
  {before after : List WriteEntry}

/-- What is wanted of `reverse_get`: the value of the visible version, and a cursor that is still at the key unless the
scanner is told that it is not. -/
structure ReadsKey (cfg : ReadConfig) (dflt : Nat → Option Bytes) (key : Bytes) (v : Versions)
    (before after : List WriteEntry) (g : ReverseGet) : Prop where
  result : g.result = readVisible cfg v dflt
  atKey : AtKey key v.entries before after g.write
  atPrev : g.metPrevUserKey = true → g.write = ⟨before, entriesOf key v.entries ++ after⟩

theorem handleLastVersion_eq {o : Option (Nat × Write)} (h : latestData v cfg.ts = o) :
    handleLastVersion cfg dflt (o.map (·.2)) = readVisible cfg v dflt := by
  cases o with
  | none =>
    unfold readVisible visible
    rw [h]
    rfl
  | some e =>
    have hdata := (latestData_eq_some.1 h).2.2.1
    rw [readVisible_of_latestData h, Option.map_some, handleLastVersion]
    unfold Write.verdict
    unfold Write.isData at hdata
    split
    · rfl
    cases htype : e.2.writeType with
    | put | delete => rfl
    | lock | rollback => rw [htype] at hdata; cases hdata

variable {up down : List (Nat × Write)} {ts : Nat}

theorem latestData_of_split (h : up.reverse ++ down = v.entries)
    (hup : ∀ e ∈ up, ts < e.1) (hdown : ∀ e ∈ down, e.1 ≤ ts) : latestData v ts = down.find? fun e => e.2.isData := by
  have hdrop : v.entries.dropWhile (fun e => decide (ts < e.1)) = down := by
    rw [← h, dropWhile_append_of_pos fun e he => decide_eq_true (hup e (mem_reverse.1 he))]
    cases down with
    | nil => rfl
    | cons e down => exact dropWhile_cons_of_neg (by simpa using hdown e mem_cons_self)
  rw [(cameTo_dropWhile v ts).latest, hdrop]

variable {e : Nat × Write}

theorem lt_of_split (h : up.reverse ++ e :: down = v.entries) : ∀ x ∈ up, e.1 < x.1 := by
  intro x hx
  have hsorted := v.sorted
  rw [← h] at hsorted
  exact (pairwise_append.1 hsorted).2.2 x (mem_reverse.2 hx) e mem_cons_self

theorem exists_seek (h : up.reverse ++ e :: down = v.entries)
    (hle : e.1 ≤ ts) : ∃ above mid x t, mid ++ e :: down = x :: t ∧ above ++ x :: t = v.entries ∧
      (∀ y ∈ above, ts < y.1) ∧ (∀ y ∈ mid, e.1 < y.1) ∧ CameTo v ts (x :: t) := by
  have he : decide (ts < e.1) = false := decide_eq_false (not_lt.2 hle)
  have hdrop : v.entries.dropWhile (fun y => decide (ts < y.1)) =
      up.reverse.dropWhile (fun y => decide (ts < y.1)) ++ e :: down := by
    rw [← h, dropWhile_append]
    split
    · rename_i hempty
      rw [isEmpty_iff.1 hempty, dropWhile_cons_of_neg (by exact Bool.eq_false_iff.1 he)]
      rfl
    · rfl
  have hcame := cameTo_dropWhile v ts
  rw [hdrop] at hcame
  obtain ⟨x, t, hmid⟩ := exists_cons_of_ne_nil
    (show up.reverse.dropWhile (fun y => decide (ts < y.1)) ++ e :: down ≠ [] by simp)
  rw [hmid] at hcame
  refine ⟨up.reverse.takeWhile fun y => decide (ts < y.1), _, x, t, hmid, ?_, ?_, ?_, hcame⟩
  · rw [← hmid, ← append_assoc, takeWhile_append_dropWhile, h]
  · intro y hy
    have := mem_takeWhile_imp hy
    simpa using this
  · exact fun y hy => lt_of_split h y (mem_reverse.1 ((dropWhile_suffix _).subset hy))

/-- The second loop: above `e` nothing was looked at before, and at `e` the kept version is the latest. -/
theorem seekDownFrom_readsKey (hk : Consistent k) :
    ∀ (mid up : List (Nat × Write)) {x : Nat × Write} {t : List (Nat × Write)}, mid ++ e :: down = x :: t →
      CameTo k.writes cfg.ts (x :: t) → up.reverse ++ x :: t = k.writes.entries → (∀ y ∈ mid, e.1 < y.1) →
      ReadsKey cfg dflt key k.writes before after
        (seekDownFrom cfg dflt newer (((e :: down).find? fun e => e.2.isData).map (·.2)) e.1
          (entriesOf key (x :: up) ++ before) (entriesOf key t ++ after))
  | [], up, x, t, heq, hcame, hsplit, _ => by
    obtain ⟨rfl, rfl⟩ : e = x ∧ down = t := cons.inj heq
    rw [entriesOf_cons, cons_append, seekDownFrom.eq_def]
    dsimp only
    rw [if_pos le_rfl]
    exact ⟨handleLastVersion_eq hcame.latest, .mk (e :: up) down (by simpa using hsplit), nofun⟩
  | y :: mid, up, x, t, heq, hcame, hsplit, hmid => by
    obtain ⟨rfl, rfl⟩ : y = x ∧ mid ++ e :: down = t := cons.inj heq
    have hat : AtKey key k.writes.entries before after
        ⟨entriesOf key (y :: up) ++ before, entriesOf key (mid ++ e :: down) ++ after⟩ :=
      .mk (y :: up) _ (by simpa using hsplit)
    rw [entriesOf_cons, cons_append] at hat ⊢
    rw [seekDownFrom.eq_def]
    dsimp only
    rw [if_neg (not_le.2 (hmid y mem_cons_self))]
    cases hv : y.2.verdict cfg.ts with
    | value =>
      refine ⟨?_, hat, nofun⟩
      unfold readVisible
      rw [hcame.visible_of_value hv]
    | absent =>
      refine ⟨?_, hat, nofun⟩
      unfold readVisible
      rw [hcame.visible_of_absent (hk.consistentAt _) hv]
    | older =>
      have hnext := hcame.next (Write.verdict_eq_older.1 hv).1
      have hmid' : ∀ z ∈ mid, e.1 < z.1 := fun z hz => hmid z (mem_cons_of_mem _ hz)
      have hsplit' : (y :: up).reverse ++ (mid ++ e :: down) = k.writes.entries := by simpa using hsplit
      -- one more version is there: at the latest it is `e`
      obtain ⟨z, t, hz⟩ : ∃ z t, mid ++ e :: down = z :: t := exists_cons_of_ne_nil (by simp)
      rw [hz] at hnext hsplit' ⊢
      exact seekDownFrom_readsKey hk mid (y :: up) hz hnext hsplit' hmid'

/-- How the first loop ends: the key is read, or there are versions left above `e`, the last one looked at. -/
inductive WalksUp (cfg : ReadConfig) (dflt : Nat → Option Bytes) (key : Bytes) (v : Versions)
    (before after : List WriteEntry) : ReverseWalk → Prop
  | done {g : ReverseGet} (h : ReadsKey cfg dflt key v before after g) : WalksUp cfg dflt key v before after (.done g)
  | seek {e : Nat × Write} {up down : List (Nat × Write)} (h : up.reverse ++ e :: down = v.entries)
      (hle : ∀ x ∈ e :: down, x.1 ≤ cfg.ts) :
      WalksUp cfg dflt key v before after
        (.seek (((e :: down).find? fun e => e.2.isData).map (·.2)) e.1
          ⟨entriesOf key (e :: up) ++ before, entriesOf key down ++ after⟩)

variable (ha : Around key before after)
include ha

theorem ReadsKey.write_eq {g : ReverseGet} (h : ReadsKey cfg dflt key v before after g) :
    (if g.metPrevUserKey then g.write else moveWriteCursorToPrevUserKey key g.write) =
      ⟨before, entriesOf key v.entries ++ after⟩ := by
  split
  · rename_i hprev
    exact h.atPrev hprev
  · exact h.atKey.moveToPrev ha

/-- The invariant of the first loop: the versions below the cursor are at or below the timestamp, and the newest PUT or
DELETE among them is kept. -/
theorem reverseFrom_walksUp (hiso : cfg.isolationLevel ≠ .rcCheckTs) :
    ∀ (n : Nat) (up down : List (Nat × Write)), up.reverse ++ down = v.entries → (∀ x ∈ down, x.1 ≤ cfg.ts) →
      WalksUp cfg dflt key v before after
        (reverseFrom cfg dflt key newer (n + 1) ((down.find? fun e => e.2.isData).map (·.2))
          ⟨entriesOf key up ++ before, entriesOf key down ++ after⟩)
  | n, [], down, h, hdown => by
    have hlast : handleLastVersion cfg dflt _ = readVisible cfg v dflt :=
      handleLastVersion_eq (latestData_of_split h nofun hdown)
    have hat : AtKey key v.entries before after ⟨before, entriesOf key down ++ after⟩ := .mk [] down h
    have hall : down = v.entries := h
    cases before with
    | nil => exact .done ⟨hlast, hat, nofun⟩
    | cons e l =>
      rw [entriesOf_nil, nil_append, reverseFrom]
      dsimp only
      rw [if_pos (ne_of_lt (ha.before_lt e mem_cons_self))]
      exact .done ⟨hlast, hat, fun _ => by rw [hall]⟩
  | n, e :: up, down, h, hdown => by
    have hat : AtKey key v.entries before after ⟨entriesOf key (e :: up) ++ before, entriesOf key down ++ after⟩ :=
      .mk (e :: up) down h
    rw [reverse_cons, append_assoc] at h
    have hup := lt_of_split h
    rw [entriesOf_cons, cons_append] at hat ⊢
    rw [reverseFrom]
    dsimp only
    rw [if_neg (by simp)]
    by_cases hts : cfg.ts < e.1
    · have habove : ∀ x ∈ e :: up, cfg.ts < x.1 := forall_mem_cons.2 ⟨hts, fun x hx => hts.trans (hup x hx)⟩
      rw [if_pos hts, if_neg hiso]
      refine .done ⟨handleLastVersion_eq (latestData_of_split ?_ habove hdown), hat, nofun⟩
      rw [reverse_cons, append_assoc]
      exact h
    · rw [if_neg hts]
      have hdown' : ∀ x ∈ e :: down, x.1 ≤ cfg.ts := forall_mem_cons.2 ⟨not_lt.1 hts, hdown⟩
      have hlast : (if e.2.isData then some e.2 else (down.find? fun e => e.2.isData).map (·.2)) =
          ((e :: down).find? fun e => e.2.isData).map (·.2) := by
        rw [find?_cons]
        cases e.2.isData <;> rfl
      rw [hlast]
      cases n with
      | zero => exact .seek h hdown'
      | succ n =>
        exact reverseFrom_walksUp hiso n up (e :: down) h hdown'

variable {k : KeyState}

theorem reverseSeek_readsKey (hk : Consistent k) (h : up.reverse ++ e :: down = k.writes.entries)
    (hle : ∀ x ∈ e :: down, x.1 ≤ cfg.ts) : ReadsKey cfg dflt key k.writes before after
      (reverseSeek cfg dflt key newer (((e :: down).find? fun e => e.2.isData).map (·.2)) e.1
        ⟨entriesOf key (e :: up) ++ before, entriesOf key down ++ after⟩) := by
  have hup := lt_of_split h
  have hat : AtKey key k.writes.entries before after ⟨entriesOf key (e :: up) ++ before, entriesOf key down ++ after⟩ :=
    .mk (e :: up) down (by simpa using h)
  unfold reverseSeek
  split
  · rename_i hts
    have hlast : handleLastVersion cfg dflt _ = readVisible cfg k.writes dflt :=
      handleLastVersion_eq (latestData_of_split h (hts ▸ hup) hle)
    have hprev : AtKey key k.writes.entries before after ⟨entriesOf key up ++ before, entriesOf key (e :: down) ++ after⟩ :=
      .mk up (e :: down) h
    split
    · cases up with
      | cons y up =>
        dsimp only [Cursor.prev, entriesOf_cons, cons_append]
        rw [if_pos rfl]
        exact ⟨hlast, hprev, nofun⟩
      | nil =>
        cases before with
        | nil => exact ⟨hlast, hprev, nofun⟩
        | cons y before =>
          dsimp only [Cursor.prev, entriesOf_cons, cons_append, entriesOf_nil, nil_append]
          rw [if_neg (ne_of_lt (ha.before_lt y mem_cons_self))]
          exact ⟨hlast, hprev, fun _ => by rw [← h]; rfl⟩
    · exact ⟨hlast, hat, nofun⟩
  · rename_i hne
    have hlt : e.1 < cfg.ts := lt_of_le_of_ne (hle e mem_cons_self) hne
    rw [if_neg (lt_asymm hlt)]
    dsimp only
    generalize hc : (if newer = .notMetYet then _ else _ : Cursor WriteEntry) = c'
    have hall : c'.all = before.reverse ++ entriesOf key k.writes.entries ++ after := by
      rw [← hat.all_eq, ← hc]
      split
      · exact Cursor.all_seek
      · rfl
    obtain ⟨above, mid, x, t, hmid, hsplit, habove, hgt, hcame⟩ := exists_seek h (le_of_lt hlt)
    have hseek : c'.seek (·.before key cfg.ts) =
        ⟨entriesOf key (x :: above.reverse) ++ before, entriesOf key t ++ after⟩ := by
      rw [← hsplit, entriesOf_append, ← append_assoc, entriesOf_cons, append_assoc] at hall
      refine (Cursor.seek_eq hall ?_ ?_).trans ?_
      · intro y hy
        unfold WriteEntry.before
        rcases mem_append.1 hy with hy | hy
        · simp [ha.before_lt y (mem_reverse.1 hy)]
        obtain ⟨hkey, hmem⟩ := mem_entriesOf.1 hy
        have := habove _ hmem
        simp [hkey, this]
      · have := hcame.le x mem_cons_self
        simpa [WriteEntry.before] using this
      · simp [entriesOf_reverse]
    rw [hseek]
    exact seekDownFrom_readsKey hk mid above.reverse hmid hcame (by rw [reverse_reverse]; exact hsplit) hgt

theorem reverseGet_readsKey (hk : Consistent k) (hiso : cfg.isolationLevel ≠ .rcCheckTs) :
    ReadsKey cfg dflt key k.writes before after
      (reverseGet cfg dflt key newer ⟨entriesOf key k.writes.entries.reverse ++ before, after⟩) := by
  have hwalk : WalksUp cfg dflt key k.writes before after (reverseFrom cfg dflt key newer reverseSeekBound none _) :=
    reverseFrom_walksUp ha hiso 15 k.writes.entries.reverse [] (by simp) nofun
  rw [entriesOf_nil, nil_append] at hwalk
  unfold reverseGet
  generalize reverseFrom cfg dflt key newer reverseSeekBound none _ = walk at hwalk
  cases hwalk with
  | done h => exact h
  | seek h hle => exact reverseSeek_readsKey ha hk h hle

end Reverse

/-! ## A turn reads the key -/

section Turn

variable {cfg : ReadConfig} {key : Bytes} {k : KeyState} {below : UserKeys} {after : List WriteEntry}
  {newer : NewerTsCheckState}

variable {dflt : Bytes → Nat → Option Bytes}

theorem backwardCursors_append : backwardCursors cfg (below ++ [(key, k)]) after newer =
    ⟨⟨entriesOf key k.writes.entries.reverse ++ (writeCf below).reverse, after⟩, match heldLock cfg k with
      | some lock => (key, lock) :: (lockCursor cfg below).reverse
      | none => (lockCursor cfg below).reverse,
      newer⟩ := by
  have hnil : lockCursor cfg [] = [] := by unfold lockCursor; split <;> rfl
  unfold backwardCursors
  rw [writeCf_append, reverse_append, writeCf_cons, writeCf_nil, append_nil, entriesOf_reverse,
    lockCursor_append, reverse_append, lockCursor_cons, hnil]
  cases heldLock cfg k <;> rfl

theorem backwardCursors_of_not_isMet (hmet : isMet cfg k = false) :
    backwardCursors cfg (below ++ [(key, k)]) after newer = backwardCursors cfg below after newer := by
  obtain ⟨hwrites, hheld⟩ := not_isMet.1 hmet
  rw [backwardCursors_append, hwrites, hheld]
  rfl

variable (hks : Ascending (below ++ [(key, k)]))
include hks

theorem currentUserKey_backward (hmet : isMet cfg k = true) : currentUserKey (fun a b => b < a)
        ((backwardCursors cfg (below ++ [(key, k)]) after newer).write.upto.head?.map (·.userKey))
        ((backwardCursors cfg (below ++ [(key, k)]) after newer).lock.head?.map (·.1)) =
      some (key, !k.writes.entries.isEmpty, (heldLock cfg k).isSome) := by
  have hbelow : ∀ x ∈ below, x.1 < key := fun x hx => (pairwise_append.1 hks).2.2 x hx _ mem_cons_self
  have hearlier : ∀ key' : Bytes, key' < key → decide (key' < key) = true ∧ decide (key < key') = false :=
    fun _ h => ⟨decide_eq_true h, decide_eq_false (lt_asymm h)⟩
  refine currentUserKey_eq (decide_eq_false (lt_irrefl key)) ?_ ?_ hmet
  · rw [backwardCursors_append, ← isEmpty_reverse]
    cases hwrites : k.writes.entries.reverse with
    | cons e d => rfl
    | nil =>
      intro wk hwk
      obtain ⟨e, he, rfl⟩ := Option.map_eq_some_iff.1 hwk
      obtain ⟨x, hx, heq⟩ := exists_of_mem_writeCf (mem_reverse.1 (mem_of_head? he))
      rw [heq]
      exact hearlier _ (hbelow x hx)
  · rw [backwardCursors_append]
    cases heldLock cfg k with
    | some lock => rfl
    | none =>
      intro lk hlk
      obtain ⟨l, hl, rfl⟩ := Option.map_eq_some_iff.1 hlk
      obtain ⟨x, hx, heq⟩ := exists_of_mem_lockCursor (mem_reverse.1 (mem_of_head? hl))
      rw [heq]
      exact hearlier _ (hbelow x hx)

theorem backwardTurn_of_isMet (hdflt : dflt key = k.values.lookup) (hmet : isMet cfg k = true) (after : List WriteEntry)
    (newer : NewerTsCheckState) :
    ∃ newer', backwardTurn cfg dflt (backwardCursors cfg (below ++ [(key, k)]) after newer) =
      some (match lockRead cfg key k with
      | some r =>
        (output key r, ⟨if !k.writes.entries.isEmpty then
            moveWriteCursorToPrevUserKey key
              ⟨entriesOf key k.writes.entries.reverse ++ (writeCf below).reverse, after⟩
            else ⟨entriesOf key k.writes.entries.reverse ++ (writeCf below).reverse, after⟩,
          (lockCursor cfg below).reverse, newer'⟩)
      | none =>
        backwardWriteTurn cfg k.values.lookup key (!k.writes.entries.isEmpty)
          ⟨⟨entriesOf key k.writes.entries.reverse ++ (writeCf below).reverse, after⟩, (lockCursor cfg below).reverse,
            newer'⟩) := by
  unfold backwardTurn
  rw [currentUserKey_backward hks hmet, backwardCursors_append]
  dsimp only
  rw [hdflt]
  unfold lockRead
  cases heldLock cfg k with
  | none => exact ⟨newer, rfl⟩
  | some lock =>
    refine ⟨if newer = .notMetYet then .met else newer, ?_⟩
    dsimp only [head?_cons, Option.bind_some]
    cases readLock cfg key k.values.lookup lock <;> rfl

variable (hafter : ∀ e ∈ after, key < e.userKey)
include hafter

theorem around_writeCf : Around key (writeCf below).reverse after where
  before_lt e he := by
    obtain ⟨x, hx, heq⟩ := exists_of_mem_writeCf (mem_reverse.1 he)
    rw [heq]
    exact (pairwise_append.1 hks).2.2 x hx _ mem_cons_self
  lt_after := hafter

variable (hiso : cfg.isolationLevel ≠ .rcCheckTs)
include hiso

theorem backwardWriteTurn_eq (hk : Consistent k) (lock : List (Bytes × Lock)) (newer : NewerTsCheckState) :
    ∃ newer', backwardWriteTurn cfg k.values.lookup key (!k.writes.entries.isEmpty)
        ⟨⟨entriesOf key k.writes.entries.reverse ++ (writeCf below).reverse, after⟩, lock, newer⟩ =
      (output key (readVisible cfg k.writes k.values.lookup),
        ⟨⟨(writeCf below).reverse, entriesOf key k.writes.entries ++ after⟩, lock, newer'⟩) := by
  have ha := around_writeCf hks hafter
  have hreads : ReadsKey cfg k.values.lookup key k.writes (writeCf below).reverse after
      (reverseGet cfg k.values.lookup key newer _) := reverseGet_readsKey ha hk hiso
  unfold backwardWriteTurn
  split
  · exact ⟨(reverseGet cfg k.values.lookup key newer _).newer, by dsimp only; rw [hreads.result, hreads.write_eq ha]⟩
  rename_i hempty
  rw [Bool.not_eq_true', Bool.not_eq_false, List.isEmpty_iff] at hempty
  refine ⟨newer, ?_⟩
  rw [readVisible_of_nil hempty, hempty]
  rfl

theorem backwardTurn_eq (hdflt : dflt key = k.values.lookup) (hk : Consistent k) (hmet : isMet cfg k = true) :
    ∃ newer', backwardTurn cfg dflt (backwardCursors cfg (below ++ [(key, k)]) after newer) =
      some (output key (readKey cfg key k),
        backwardCursors cfg below (entriesOf key k.writes.entries ++ after) newer') := by
  obtain ⟨newer₁, hturn⟩ := backwardTurn_of_isMet hks hdflt hmet after newer
  rw [hturn]
  unfold readKey
  cases lockRead cfg key k with
  | none =>
    obtain ⟨newer₂, heq⟩ := backwardWriteTurn_eq hks hafter hiso hk (lockCursor cfg below).reverse newer₁
    exact ⟨newer₂, congrArg some heq⟩
  | some r =>
    refine ⟨newer₁, ?_⟩
    have hat : AtKey key k.writes.entries (writeCf below).reverse after
        ⟨entriesOf key k.writes.entries.reverse ++ (writeCf below).reverse, after⟩ :=
      .mk k.writes.entries.reverse [] (by simp)
    dsimp only
    split
    · rw [hat.moveToPrev (around_writeCf hks hafter)]
      rfl
    rename_i hempty
    rw [Bool.not_eq_true', Bool.not_eq_false, List.isEmpty_iff] at hempty
    rw [hempty]
    rfl

omit hks hafter

/-- **The turns of a backward scan**: one for each user key that a cursor comes to, in descending order. -/
theorem turns_backward {ks : UserKeys} : Ascending ks → (∀ x ∈ ks, Consistent x.2 ∧ dflt x.1 = x.2.values.lookup) →
      ∀ (after : List WriteEntry) (newer : NewerTsCheckState), (∀ x ∈ ks, ∀ e ∈ after, x.1 < e.userKey) →
        Turns (backwardTurn cfg dflt) (backwardCursors cfg ks after newer)
          ((ks.reverse.filter fun x => isMet cfg x.2).map fun x => output x.1 (readKey cfg x.1 x.2)) := by
  induction ks using reverseRecOn with
  | nil => exact fun _ _ _ _ _ => .done (by unfold backwardCursors lockCursor; split <;> rfl)
  | append_singleton below x ih =>
    obtain ⟨key, k⟩ := x
    intro hks hall after newer hafter
    have hkey : ∀ e ∈ after, key < e.userKey := hafter (key, k) (by simp)
    have hbelow : ∀ x ∈ below, x.1 < key := fun x hx => (pairwise_append.1 hks).2.2 x hx _ mem_cons_self
    have ih := ih (pairwise_append.1 hks).1 fun x hx => hall x (mem_append_left _ hx)
    rw [reverse_append, reverse_singleton, singleton_append]
    cases hmet : isMet cfg k with
    | true =>
      obtain ⟨hk, hdflt⟩ := hall (key, k) (by simp)
      obtain ⟨newer', hturn⟩ := backwardTurn_eq hks hkey hiso hdflt hk hmet
      rw [filter_cons_of_pos (by exact hmet)]
      refine .step hturn (ih _ newer' fun x hx e he => ?_)
      rcases mem_append.1 he with he | he
      · rw [(mem_entriesOf.1 he).1]
        exact hbelow x hx
      · exact (hbelow x hx).trans (hkey e he)
    | false =>
      rw [filter_cons_of_neg (by rw [hmet]; decide), backwardCursors_of_not_isMet hmet]
      exact ih after newer fun x hx => hafter x (mem_append_left _ hx)

end Turn

/-- **A backward scan puts out what is read of every user key of its range**, last key first. -/
theorem backwardScan_eq {cfg : ReadConfig} (hiso : cfg.isolationLevel ≠ .rcCheckTs) {s : Snapshot}
    (hs : ∀ x ∈ s.keys, Consistent x.2) (newer : NewerTsCheckState) {lower upper : Option Bytes} {n : Nat}
    (hn : (s.range lower upper).length ≤ n) :
    backwardScan cfg newer s lower upper n =
      ((s.range lower upper).filterMap fun x => output x.1 (readKey cfg x.1 x.2)).reverse := by
  have hturns := turns_backward hiso (s.ascending_range lower upper) (fun x hx =>
    ⟨hs x (mem_of_mem_filter hx), defaultCf_eq s.ascending (mem_of_mem_filter hx)⟩) [] newer
    fun _ _ _ he => nomatch he
  rw [← filterMap_reverse, ← filterMap_output]
  refine drain_of_turns hturns ?_
  rw [length_map]
  exact (length_filter_le _ _).trans (by rwa [length_reverse])

end Mvcc
end Tikv
