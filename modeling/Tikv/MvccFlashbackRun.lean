import Tikv.MvccFlashbackKey
/-!
# MvccFlashbackRun — the phases of a flashback together

Every command that a flashback has issued may be executed at any time and again.  What a command relies on is stable: no
lock of another transaction comes back, and a version that was written stays (`Advances`).  So the store and all issued
commands keep to one invariant (`Sound`), and once the phases are finished the range is what it was at the version.
-/
namespace Tikv
namespace Mvcc

open Lib List Flashback Write

namespace Flashback

section

variable (c : FlashbackConfig) (s₀ : KeyStore)

def Within (key : Bytes) : Prop := key ∈ s₀.keys ∧ c.InRange key

def IsFirst (key : Bytes) : Prop :=
  Within c s₀ key ∧ ChangedSince c (s₀.state key) ∧ ∀ key', Within c s₀ key' → ChangedSince c (s₀.state key') → key ≤ key'

def Clean (s : KeyStore) : Prop := ∀ key, Within c s₀ key → ¬ Foreign c (s.state key)

def Done (s : KeyStore) (key : Bytes) : Prop := ChangedSince c (s₀.state key) → HasNew c (s.state key)

def Finished (s : KeyStore) : Prop :=
  (∀ key lock, Within c s₀ key → (s.state key).lock = some lock → lock.ts ≠ c.startTs) ∧
    ∀ key, Within c s₀ key → Done c s₀ s key

def CommandOk (s : KeyStore) : FlashbackCommand → Prop
  | .read startKey (.rollbackLock next _) => startKey = c.startKey ∧ c.startKey ≤ next ∧
      ∀ key, Within c s₀ key → key < next → ¬ Foreign c (s.state key)
  | .write startKey (.rollbackLock next keyLocks) => startKey = c.startKey ∧ c.startKey ≤ next ∧
      (keyLocks.map (·.1)).Pairwise (· < ·) ∧
      (∀ x ∈ keyLocks, Within c s₀ x.1 ∧ x.1 ≤ next ∧ (s₀.state x.1).lock = some x.2) ∧
      ∀ key, Within c s₀ key → key < next → Foreign c (s.state key) → key ∈ keyLocks.map (·.1)
  | .write _ (.prewrite key) => IsFirst c s₀ key ∧ Clean c s₀ s
  | .read startKey (.flashbackWrite next _) => startKey = c.startKey ∧ next = c.startKey ∨
      IsFirst c s₀ startKey ∧ Clean c s₀ s ∧ c.startKey ≤ next ∧
        ∀ key, Within c s₀ key → key ≠ startKey → key < next → Done c s₀ s key
  | .write startKey (.flashbackWrite next keys) => IsFirst c s₀ startKey ∧ Clean c s₀ s ∧ c.startKey ≤ next ∧
      keys.Pairwise (· < ·) ∧
      (∀ key ∈ keys, Within c s₀ key ∧ key ≤ next ∧ ChangedSince c (s₀.state key) ∧ key ≠ startKey) ∧
      ∀ key, Within c s₀ key → key ≠ startKey → key < next → key ∉ keys → Done c s₀ s key
  | .write _ (.commit key) => IsFirst c s₀ key ∧ Clean c s₀ s ∧ ∀ key', Within c s₀ key' → key' ≠ key → Done c s₀ s key'
  | .read _ (.prewrite _) | .read _ (.commit _) => True

def ReadOk (s : KeyStore) (answered : Prop) : Option FlashbackCommand → Prop
  | none => answered
  | some command => CommandOk c s₀ s command

/-- **What a store of the flashback keeps to.**  The lock of the flashback is on the first key, and the first key is written
last. -/
structure StoreOk (s : KeyStore) : Prop where
  keys : s.keys = s₀.keys
  key : ∀ key, Within c s₀ key → FlashedBack c (s₀.state key) (s.state key)
  own : ∀ key lock, Within c s₀ key → (s.state key).lock = some lock → lock.ts = c.startTs →
    IsFirst c s₀ key ∧ Clean c s₀ s
  first : ∀ key, IsFirst c s₀ key → HasNew c (s.state key) → Clean c s₀ s ∧ ∀ key', Within c s₀ key' → Done c s₀ s key'

structure Sound (f : Flashback) : Prop where
  store : StoreOk c s₀ f.store
  commands : ∀ command ∈ f.commands, CommandOk c s₀ f.store command
  prepared : f.prepared = true → Clean c s₀ f.store
  finished : f.finished = true → Finished c s₀ f.store

def NoNewLock (s s' : KeyStore) : Prop :=
  ∀ key lock, Within c s₀ key → (s'.state key).lock = some lock → (s.state key).lock = some lock

structure Advances (s s' : KeyStore) : Prop where
  keys : s'.keys = s.keys
  foreign : ∀ key, Within c s₀ key → Foreign c (s'.state key) → Foreign c (s.state key)
  new : ∀ key, Within c s₀ key → HasNew c (s.state key) → HasNew c (s'.state key)

end

section

variable {c : FlashbackConfig} {s₀ s s' : KeyStore} {key key' : Bytes}

theorem IsFirst.unique (h : IsFirst c s₀ key) (h' : IsFirst c s₀ key') : key = key' :=
  le_antisymm (h.2.2 key' h'.1 h'.2.1) (h'.2.2 key h.1 h.2.1)

namespace Advances

section

variable (h : Advances c s₀ s s')
include h

theorem clean (hclean : Clean c s₀ s) : Clean c s₀ s' :=
  fun key hkey hforeign => hclean key hkey (h.foreign key hkey hforeign)

theorem done (hkey : Within c s₀ key) (hdone : Done c s₀ s key) : Done c s₀ s' key :=
  fun hchanged => h.new key hkey (hdone hchanged)

theorem commandOk {command : FlashbackCommand} (hok : CommandOk c s₀ s command) :
    CommandOk c s₀ s' command := by
  cases command with
  | read startKey state =>
    cases state with
    | rollbackLock next keyLocks =>
      obtain ⟨hstart, hle, hclean⟩ := hok
      exact ⟨hstart, hle, fun key hkey hlt hforeign => hclean key hkey hlt (h.foreign key hkey hforeign)⟩
    | prewrite key => trivial
    | flashbackWrite next keys =>
      rcases hok with hinit | ⟨hfirst, hclean, hle, hdone⟩
      · exact .inl hinit
      · exact .inr ⟨hfirst, h.clean hclean, hle, fun key hkey hne hlt => h.done hkey (hdone key hkey hne hlt)⟩
    | commit key => trivial
  | write startKey state =>
    cases state with
    | rollbackLock next keyLocks =>
      obtain ⟨hstart, hle, hsorted, hlocks, hall⟩ := hok
      exact ⟨hstart, hle, hsorted, hlocks, fun key hkey hlt hforeign => hall key hkey hlt (h.foreign key hkey hforeign)⟩
    | prewrite key => exact ⟨hok.1, h.clean hok.2⟩
    | flashbackWrite next keys =>
      obtain ⟨hfirst, hclean, hle, hsorted, hkeys, hdone⟩ := hok
      exact ⟨hfirst, h.clean hclean, hle, hsorted, hkeys,
        fun key hkey hne hlt hmem => h.done hkey (hdone key hkey hne hlt hmem)⟩
    | commit key =>
      obtain ⟨hfirst, hclean, hdone⟩ := hok
      exact ⟨hfirst, h.clean hclean, fun key' hkey' hne => h.done hkey' (hdone key' hkey' hne)⟩

end

end Advances

/-- The store after a command: a lock of the flashback is an old one or the prewrite's, and the first key is written when
all others are. -/
theorem StoreOk.advance (h : StoreOk c s₀ s) (hadv : Advances c s₀ s s')
    (hkey : ∀ key, Within c s₀ key → FlashedBack c (s₀.state key) (s'.state key))
    (hown : ∀ key lock, Within c s₀ key → (s'.state key).lock = some lock →
      (s.state key).lock = some lock ∨ IsFirst c s₀ key ∧ Clean c s₀ s)
    (hfirst : ∀ key, IsFirst c s₀ key → HasNew c (s'.state key) →
      HasNew c (s.state key) ∨ Clean c s₀ s ∧ ∀ key', Within c s₀ key' → Done c s₀ s' key') : StoreOk c s₀ s' where
  keys := hadv.keys.trans h.keys
  key := hkey
  own key lock hwithin hlock hts := by
    rcases hown key lock hwithin hlock with hold | ⟨hisFirst, hclean⟩
    · obtain ⟨hisFirst, hclean⟩ := h.own key lock hwithin hold hts
      exact ⟨hisFirst, hadv.clean hclean⟩
    · exact ⟨hisFirst, hadv.clean hclean⟩
  first key hisFirst hnew := by
    rcases hfirst key hisFirst hnew with hold | ⟨hclean, hdone⟩
    · obtain ⟨hclean, hdone⟩ := h.first key hisFirst hold
      exact ⟨hadv.clean hclean, fun key' hkey' => hadv.done hkey' (hdone key' hkey')⟩
    · exact ⟨hadv.clean hclean, hdone⟩

theorem Finished.advance (h : Finished c s₀ s) (hadv : Advances c s₀ s s') (hlocks : NoNewLock c s₀ s s') :
    Finished c s₀ s' :=
  ⟨fun key lock hkey hlock => h.1 key lock hkey (hlocks key lock hkey hlock),
    fun key hkey => hadv.done hkey (h.2 key hkey)⟩

/-! ## Scanning -/

variable {e : Nat × Write}

theorem newestData_eq_some {v : Versions} :
    newestData v = some e ↔ e ∈ v.entries ∧ e.2.isData = true ∧ ∀ e' ∈ v.entries, e'.2.isData = true → e'.1 ≤ e.1 :=
  Chain.find_eq_some

theorem takesLatest_eq_true {filter : Bytes → Nat → Bool} {k : KeyState} :
    takesLatest filter (key, k) = true ↔ ∃ e, newestData k.writes = some e ∧ filter key e.1 = true := by
  unfold takesLatest
  cases newestData k.writes <;> simp

section

variable {k₀ k : KeyState}

theorem changedSince_of_mem (h : FlashedBack c k₀ k) (he : e ∈ k.writes.entries)
    (hdata : e.2.isData = true) (hlt : c.version < e.1) : ChangedSince c k₀ := by
  obtain ⟨t, w⟩ := e
  by_cases htop : t = c.commitTs
  · exact (h.new w (htop ▸ he)).1
  obtain ⟨w', hw', hdata'⟩ := (h.data t htop).1 ⟨w, he, hdata⟩
  exact ⟨(t, w'), hw', hdata', hlt⟩

section

variable (hts : c.startTs < c.commitTs)
include hts

section

variable (hb : BeforeFlashback c k₀)
include hb

section

variable (h : FlashedBack c k₀ k)
include h

theorem newestData_of_changed (hchanged : ChangedSince c k₀) : ∃ e, newestData k.writes = some e ∧ c.version < e.1 := by
  obtain ⟨e₀, he₀, hdata₀, hlt₀⟩ := hchanged
  have hne : e₀.1 ≠ c.commitTs := ne_of_lt ((hb.below e₀ he₀).1.trans hts)
  obtain ⟨w, hw, hdata⟩ := (h.data e₀.1 hne).2 ⟨e₀.2, he₀, hdata₀⟩
  cases hnewest : newestData k.writes with
  | none =>
    have := Chain.find_eq_none.1 hnewest _ hw
    rw [hdata] at this
    cases this
  | some e => exact ⟨e, rfl, hlt₀.trans_le ((newestData_eq_some.1 hnewest).2.2 (e₀.1, w) hw hdata)⟩

theorem takesLatest_first (key : Bytes) :
    takesLatest (fun _ latest => c.version < latest) (key, k) = true ↔ ChangedSince c k₀ := by
  rw [takesLatest_eq_true]
  constructor
  · rintro ⟨e, hnewest, hlt⟩
    obtain ⟨hmem, hdata, _⟩ := newestData_eq_some.1 hnewest
    exact changedSince_of_mem h hmem hdata (of_decide_eq_true hlt)
  · intro hchanged
    obtain ⟨e, hnewest, hlt⟩ := newestData_of_changed hts hb h hchanged
    exact ⟨e, hnewest, decide_eq_true hlt⟩

theorem takesLatest_write (startKey key : Bytes) :
    takesLatest (fun key latest => key ≠ startKey && c.version < latest && latest < c.commitTs) (key, k) = true ↔
      key ≠ startKey ∧ ChangedSince c k₀ ∧ ¬ HasNew c k := by
  rw [takesLatest_eq_true]
  simp only [Bool.and_eq_true, decide_eq_true_eq]
  constructor
  · rintro ⟨e, hnewest, ⟨hne, hlt⟩, hcommit⟩
    obtain ⟨hmem, hdata, hmax⟩ := newestData_eq_some.1 hnewest
    refine ⟨hne, changedSince_of_mem h hmem hdata hlt, fun ⟨w, hw⟩ => ?_⟩
    have hle := hmax _ hw (FlashedBack.isData_of_new h hw)
    exact absurd hcommit (not_lt.2 hle)
  · rintro ⟨hne, hchanged, hno⟩
    obtain ⟨e, hnewest, hlt⟩ := newestData_of_changed hts hb h hchanged
    have hmem := (newestData_eq_some.1 hnewest).1
    have htop : e.1 ≠ c.commitTs := fun heq => hno ⟨e.2, heq ▸ hmem⟩
    exact ⟨e, hnewest, ⟨hne, hlt⟩, (h.bound e hmem htop).trans hts⟩

end

end

end

end

theorem finished_of_first (h : StoreOk c s₀ s) (hfirst : IsFirst c s₀ key) (hnew : HasNew c (s.state key))
    (hlock : (s.state key).lock = none) : Finished c s₀ s := by
  refine ⟨fun key' lock hkey' hlock' hown => ?_, (h.first key hfirst hnew).2⟩
  obtain rfl := (h.own key' lock hkey' hlock' hown).1.unique hfirst
  rw [hlock] at hlock'
  cases hlock'

theorem checkFlashbackCommit_ok {k : KeyState} {done : Bool} (h : checkFlashbackCommit c k = .ok done) :
    done = true ∧ HasNew c k ∧ k.lock = none ∨ done = false ∧ ∃ lock, k.lock = some lock ∧ lock.ts = c.startTs := by
  unfold checkFlashbackCommit at h
  cases hlock : k.lock with
  | some lock =>
    rw [hlock] at h
    dsimp only at h
    split at h
    · rename_i hown
      cases h
      exact .inr ⟨rfl, lock, rfl, hown⟩
    · cases h
  | none =>
    rw [hlock] at h
    dsimp only at h
    split at h
    · rename_i commitTs write hseek
      split at h
      · rename_i heq
        cases h
        exact .inl ⟨rfl, ⟨write, heq.1 ▸ (Chain.find_eq_some.1 hseek).1⟩, rfl⟩
      · cases h
    · cases h

section

variable (hts : c.startTs < c.commitTs) (hb : ∀ key, Within c s₀ key → BeforeFlashback c (s₀.state key))
  {room : Nat} {batch : List (Bytes × List Modify)} {command : Option FlashbackCommand} {α : Type}
  {limit : Nat} {next startKey : Bytes}

include hts hb

section

variable (h : StoreOk c s₀ s)
include h

theorem getFirstUserKey_spec (hle : c.startKey ≤ startKey)
    (hstart : ∀ key, Within c s₀ key → ChangedSince c (s₀.state key) → startKey ≤ key) :
    match getFirstUserKey c s startKey with
    | none => ∀ key, Within c s₀ key → ¬ ChangedSince c (s₀.state key)
    | some key => IsFirst c s₀ key := by
  have hscan := scanLatestUserKeys_spec s startKey c.endKey (fun _ latest => c.version < latest) 1
  unfold getFirstUserKey
  generalize scanLatestUserKeys s.userKeys startKey c.endKey (fun _ latest => decide (c.version < latest)) 1 = found
    at hscan
  have hwanted : ∀ key, Within c s₀ key → ChangedSince c (s₀.state key) →
      key ∈ found ∨ found ≠ [] ∧ ∀ key' ∈ found, key' < key := by
    intro key hkey hchanged
    refine hscan.complete key (h.keys ▸ hkey.1) (hstart key hkey hchanged) hkey.2.2 ?_
    exact (takesLatest_first hts (hb key hkey) (h.key key hkey) key).2 hchanged
  cases hlast : found.getLast? with
  | none =>
    obtain rfl : found = [] := getLast?_eq_none_iff.1 hlast
    intro key hkey hchanged
    rcases hwanted key hkey hchanged with hmem | ⟨hne, _⟩
    · cases hmem
    · exact hne rfl
  | some key =>
    have hmem : key ∈ found := mem_of_getLast? hlast
    obtain ⟨hkeys, hge, hend, htakes⟩ := hscan.sound key hmem
    have hwithin : Within c s₀ key := ⟨h.keys ▸ hkeys, hle.trans hge, hend⟩
    refine ⟨hwithin, (takesLatest_first hts (hb key hwithin) (h.key key hwithin) key).1 htakes,
      fun key' hkey' hchanged => ?_⟩
    rcases hwanted key' hkey' hchanged with hmem' | ⟨_, hlt⟩
    · -- the scan gives one key
      have hone := hscan.few (by decide)
      match found, hone, hmem, hmem' with
      | [x], _, hmem, hmem' => exact le_of_eq ((mem_singleton.1 hmem).trans (mem_singleton.1 hmem').symm)
    · exact le_of_lt (hlt key hmem)

variable {r : Option FlashbackCommand}

theorem readRollbackLock_spec {keyLocks : List (Bytes × Lock)}
    (hok : CommandOk c s₀ s (.read startKey (.rollbackLock next keyLocks)))
    (hr : processRead c limit s startKey (.rollbackLock next keyLocks) = .ok r) : ReadOk c s₀ s (Clean c s₀ s) r := by
  obtain ⟨rfl, hle, hbefore⟩ := hok
  obtain ⟨hscan, hlocks⟩ := scanLocksFromStorage_spec s next c.endKey (fun _ lock => lock.ts ≠ c.startTs) limit
  dsimp only [processRead, flashbackToVersionReadLock] at hr
  generalize scanLocksFromStorage s.userKeys next c.endKey (fun _ lock => decide (lock.ts ≠ c.startTs)) limit = found
    at hscan hlocks hr
  -- a lock of another transaction is ahead of the scan
  have hwanted : ∀ key, Within c s₀ key → Foreign c (s.state key) →
      key ∈ found.map (·.1) ∨ found.map (·.1) ≠ [] ∧ ∀ key' ∈ found.map (·.1), key' < key := by
    intro key hkey hforeign
    obtain ⟨lock, hlock, hne⟩ := hforeign
    refine hscan.complete key (h.keys ▸ hkey.1) ?_ hkey.2.2 ⟨lock, hlock, decide_eq_true hne⟩
    exact le_of_not_gt fun hlt => hbefore key hkey hlt ⟨lock, hlock, hne⟩
  cases hbatch : batchOf found with
  | some x =>
    obtain ⟨last, batch⟩ := x
    rw [hbatch] at hr
    cases hr
    have hsorted : found.Pairwise fun a b => a.1 < b.1 := pairwise_map.1 hscan.sorted
    obtain ⟨hlast, hsub, hmax, hrest⟩ := batchOf_eq_some hsorted hbatch
    have hfound : ∀ x ∈ found, Within c s₀ x.1 ∧ next ≤ x.1 := by
      intro x hx
      obtain ⟨hkeys, hge, hend, _⟩ := hscan.sound x.1 (mem_map_of_mem hx)
      exact ⟨⟨h.keys ▸ hkeys, hle.trans hge, hend⟩, hge⟩
    refine ⟨rfl, hle.trans (hfound last hlast).2, hscan.sorted.sublist (hsub.map _), fun x hx => ?_,
      fun key hkey hlt hforeign => ?_⟩
    · have hmem := hsub.subset hx
      obtain ⟨hlock, hne⟩ := hlocks x hmem
      refine ⟨(hfound x hmem).1, le_iff_eq_or_lt.2 ((hmax x hmem).imp_left (congrArg _)), ?_⟩
      rcases (h.key x.1 (hfound x hmem).1).lock x.2 hlock with ⟨_, hold⟩ | ⟨hown, _⟩
      · exact hold
      · exact absurd hown (of_decide_eq_true hne)
    · rcases hwanted key hkey hforeign with hmem | ⟨_, hlater⟩
      · obtain ⟨x, hx, rfl⟩ := mem_map.1 hmem
        rcases hrest x hx with rfl | hin
        · exact absurd hlt (lt_irrefl _)
        · exact mem_map_of_mem hin
      · exact absurd (hlater last.1 (mem_map_of_mem hlast)) (lt_asymm hlt)
  | none =>
    obtain rfl : found = [] := batchOf_eq_none.1 hbatch
    have hclean : Clean c s₀ s := by
      intro key hkey hforeign
      rcases hwanted key hkey hforeign with hmem | ⟨hne, _⟩
      · cases hmem
      · exact hne rfl
    have hfirst := getFirstUserKey_spec hts hb h (le_refl _) fun key hkey _ => hkey.2.1
    cases hget : getFirstUserKey c s c.startKey with
    | none =>
      rw [hget] at hr
      cases hr
      exact hclean
    | some first =>
      rw [hget] at hr hfirst
      cases hr
      exact ⟨hfirst, hclean⟩

/-- **The scan for keys to be written**: nothing before `next` is left, and the first key apart nothing after what is
found. -/
theorem scannedWrite_ok (hfirst : IsFirst c s₀ startKey) (hclean : Clean c s₀ s) (hle : c.startKey ≤ next)
    (hbefore : ∀ key, Within c s₀ key → key ≠ startKey → key < next → Done c s₀ s key) :
    CommandOk c s₀ s (.write startKey (scannedWrite startKey (flashbackToVersionReadWrite c limit s next startKey))) := by
  have hscan := scanLatestUserKeys_spec s next c.endKey
    (fun key latest => key ≠ startKey && c.version < latest && latest < c.commitTs) limit
  unfold flashbackToVersionReadWrite
  generalize scanLatestUserKeys s.userKeys next c.endKey
    (fun key latest => decide (key ≠ startKey) && decide (c.version < latest) && decide (latest < c.commitTs)) limit = found
    at hscan
  have hwanted : ∀ key, Within c s₀ key → key ≠ startKey → ¬ Done c s₀ s key →
      key ∈ found ∨ found ≠ [] ∧ ∀ key' ∈ found, key' < key := by
    intro key hkey hne hnot
    have hge : next ≤ key := le_of_not_gt fun hlt => hnot (hbefore key hkey hne hlt)
    refine hscan.complete key (h.keys ▸ hkey.1) hge hkey.2.2 ?_
    refine (takesLatest_write hts (hb key hkey) (h.key key hkey) startKey key).2 ⟨hne, ?_⟩
    exact Classical.not_imp.1 hnot
  unfold scannedWrite
  cases hbatch : batchOf found with
  | none =>
    obtain rfl : found = [] := batchOf_eq_none.1 hbatch
    refine ⟨hfirst, hclean, fun key hkey hne => Classical.byContradiction fun hnot => ?_⟩
    rcases hwanted key hkey hne hnot with hmem | ⟨hnil, _⟩
    · cases hmem
    · exact hnil rfl
  | some x =>
    obtain ⟨last, batch⟩ := x
    obtain ⟨hlast, hsub, hmax, hrest⟩ := batchOf_eq_some hscan.sorted hbatch
    have hfound : ∀ key ∈ found, Within c s₀ key ∧ next ≤ key ∧ key ≠ startKey ∧ ChangedSince c (s₀.state key) := by
      intro key hkey
      obtain ⟨hkeys, hge, hend, htakes⟩ := hscan.sound key hkey
      have hwithin : Within c s₀ key := ⟨h.keys ▸ hkeys, hle.trans hge, hend⟩
      obtain ⟨hne, hchanged, _⟩ := (takesLatest_write hts (hb key hwithin) (h.key key hwithin) startKey key).1 htakes
      exact ⟨hwithin, hge, hne, hchanged⟩
    refine ⟨hfirst, hclean, hle.trans (hfound last hlast).2.1, hscan.sorted.sublist hsub, fun key hkey => ?_,
      fun key hkey hne hlt hnotMem => Classical.byContradiction fun hnot => ?_⟩
    · obtain ⟨hwithin, _, hne, hchanged⟩ := hfound key (hsub.subset hkey)
      exact ⟨hwithin, le_iff_eq_or_lt.2 (hmax key (hsub.subset hkey)), hchanged, hne⟩
    · rcases hwanted key hkey hne hnot with hmem | ⟨_, hlater⟩
      · rcases hrest key hmem with rfl | hin
        · exact absurd hlt (lt_irrefl _)
        · exact hnotMem hin
      · exact absurd (hlater last hlast) (lt_asymm hlt)

theorem readFlashbackWrite_spec {keys : List Bytes}
    (hok : CommandOk c s₀ s (.read startKey (.flashbackWrite next keys)))
    (hr : processRead c limit s startKey (.flashbackWrite next keys) = .ok r) : ReadOk c s₀ s (Finished c s₀ s) r := by
  dsimp only [processRead] at hr
  rw [if_neg (not_le.2 hts)] at hr
  by_cases heq : next = startKey
  · rw [if_pos heq] at hr
    have hstart : c.startKey ≤ startKey ∧ ∀ key, Within c s₀ key → ChangedSince c (s₀.state key) → startKey ≤ key := by
      rcases hok with ⟨rfl, _⟩ | ⟨hfirst, _⟩
      · exact ⟨le_refl _, fun key hkey _ => hkey.2.1⟩
      · exact ⟨hfirst.1.2.1, hfirst.2.2⟩
    have hget := getFirstUserKey_spec hts hb h hstart.1 hstart.2
    cases hkey : getFirstUserKey c s startKey with
    | none =>
      rw [hkey] at hr hget
      cases hr
      refine ⟨fun key lock hwithin hlock hown => ?_, fun key hwithin hchanged => absurd hchanged (hget key hwithin)⟩
      exact hget key hwithin (h.own key lock hwithin hlock hown).1.2.1
    | some first =>
      rw [hkey] at hr hget
      dsimp only at hr hget
      cases hcheck : checkFlashbackCommit c (s.state first) with
      | error e =>
        rw [hcheck] at hr
        cases hr
      | ok done =>
        rw [hcheck] at hr
        rcases checkFlashbackCommit_ok hcheck with ⟨rfl, hnew, hlock⟩ | ⟨rfl, lock, hlock, hown⟩
        · cases hr
          exact finished_of_first h hget hnew hlock
        cases hr
        refine scannedWrite_ok hts hb h hget (h.own first lock hget.1 hlock hown).2 hget.1.2.1 fun key hwithin _ hlt => ?_
        exact fun hchanged => absurd (hget.2.2 key hwithin hchanged) (not_le_of_gt hlt)
  · rw [if_neg heq] at hr
    cases hr
    rcases hok with ⟨rfl, rfl⟩ | ⟨hfirst, hclean, hle, hbefore⟩
    · exact absurd rfl heq
    · exact scannedWrite_ok hts hb h hfirst hclean hle hbefore

end

end

/-! ## Writing -/

def modsOf (batch : List (Bytes × List Modify)) (key : Bytes) : List Modify :=
  batch.flatMap fun x => if x.1 = key then x.2 else []

theorem state_write (batch : List (Bytes × List Modify)) :
    (s.write batch).state key = (s.state key).apply (modsOf batch key) := rfl

theorem state_write_self (s : KeyStore) (key : Bytes) (ms : List Modify) :
    (s.write [(key, ms)]).state key = (s.state key).apply ms := by
  simp [state_write, modsOf]

theorem state_write_of_ne (s : KeyStore) {key : Bytes} (ms : List Modify) (hne : key' ≠ key) :
    (s.write [(key, ms)]).state key' = s.state key' := by
  simp [state_write, modsOf, Ne.symm hne]

variable {keyOf : α → Bytes}

theorem writeUntilFull_spec {write : α → Except MvccError (List Modify)} :
    ∀ {room : Nat} {l : List α} {batch : List (Bytes × List Modify)} {next : Option Bytes},
    (l.map keyOf).Pairwise (· < ·) → writeUntilFull keyOf write room l = .ok (batch, next) →
    ∃ done rest, l = done ++ rest ∧ next = rest.head?.map keyOf ∧
      ∀ key, (∃ x ∈ done, keyOf x = key ∧ write x = .ok (modsOf batch key)) ∨
        (∀ x ∈ done, keyOf x ≠ key) ∧ modsOf batch key = []
  | room, [], batch, next, _, h => by
    unfold writeUntilFull at h
    cases h
    exact ⟨[], [], rfl, rfl, fun key => .inr ⟨nofun, rfl⟩⟩
  | 0, x :: l, batch, next, _, h => by
    cases h
    exact ⟨[], x :: l, rfl, rfl, fun key => .inr ⟨nofun, rfl⟩⟩
  | room + 1, x :: l, batch, next, hsorted, h => by
    rw [map_cons, pairwise_cons] at hsorted
    unfold writeUntilFull at h
    split at h
    · cases h
    rename_i ms hx
    cases hrec : writeUntilFull keyOf write room l with
    | error e =>
      rw [hrec] at h
      cases h
    | ok r =>
      obtain ⟨batch', next'⟩ := r
      rw [hrec] at h
      cases h
      obtain ⟨done, rest, rfl, rfl, hall⟩ := writeUntilFull_spec hsorted.2 hrec
      have hmods : ∀ key, modsOf ((keyOf x, ms) :: batch') key = (if keyOf x = key then ms else []) ++ modsOf batch' key :=
        fun key => rfl
      refine ⟨x :: done, rest, rfl, rfl, fun key => ?_⟩
      rw [hmods]
      by_cases hkey : keyOf x = key
      · -- the key comes once
        have hlater : ∀ y ∈ done, keyOf y ≠ key := by
          intro y hy heq
          have hlt := hsorted.1 (keyOf y) (mem_map_of_mem (mem_append_left _ hy))
          rw [hkey, heq] at hlt
          exact lt_irrefl _ hlt
        rcases hall key with ⟨y, hy, heq, _⟩ | ⟨_, hnone⟩
        · exact absurd heq (hlater y hy)
        rw [if_pos hkey, hnone, append_nil]
        exact .inl ⟨x, mem_cons_self, hkey, hx⟩
      · rw [if_neg hkey]
        rcases hall key with ⟨y, hy, heq, hwrite⟩ | ⟨hnone, hmodsNil⟩
        · exact .inl ⟨y, mem_cons_of_mem _ hy, heq, hwrite⟩
        · exact .inr ⟨forall_mem_cons.2 ⟨hkey, hnone⟩, hmodsNil⟩

variable {next : Bytes} {rest : List α}

theorem mem_done {done : List α} (hsorted : ((done ++ rest).map keyOf).Pairwise (· < ·))
    {x : α} (hx : x ∈ done ++ rest) (hlt : keyOf x < (rest.head?.map keyOf).getD next) : x ∈ done := by
  rcases mem_append.1 hx with hx | hx
  · exact hx
  cases rest with
  | nil => cases hx
  | cons y rest =>
    rw [map_append, pairwise_append] at hsorted
    have hle : keyOf y ≤ keyOf x := by
      rcases mem_cons.1 hx with rfl | hx
      · exact le_refl _
      · exact le_of_lt ((pairwise_cons.1 hsorted.2.1).1 _ (mem_map_of_mem hx))
    exact absurd hlt (not_lt_of_ge hle)

theorem getD_bounds (hle : c.startKey ≤ next) (h : ∀ x ∈ rest, Within c s₀ (keyOf x) ∧ keyOf x ≤ next) :
    c.startKey ≤ (rest.head?.map keyOf).getD next ∧ (rest.head?.map keyOf).getD next ≤ next := by
  cases rest with
  | nil => exact ⟨hle, le_refl _⟩
  | cons x rest => exact ⟨(h x mem_cons_self).1.2.1, (h x mem_cons_self).2⟩

theorem writeFirst_spec (h : StoreOk c s₀ s) (hfirst : IsFirst c s₀ key) (hclean : Clean c s₀ s) {ms : List Modify}
    (hflash : FlashedBack c (s₀.state key) ((s.state key).apply ms))
    (hforeign : Foreign c ((s.state key).apply ms) → Foreign c (s.state key))
    (hnew : HasNew c (s.state key) → HasNew c ((s.state key).apply ms))
    (hlast : HasNew c ((s.state key).apply ms) → HasNew c (s.state key) ∨
      ∀ key', Within c s₀ key' → key' ≠ key → Done c s₀ s key') :
    StoreOk c s₀ (s.write [(key, ms)]) ∧ Advances c s₀ s (s.write [(key, ms)]) := by
  have hself := state_write_self s key ms
  rw [← hself] at hflash hforeign hnew hlast
  have hstate : ∀ key', key' = key ∨ (s.write [(key, ms)]).state key' = s.state key' := fun key' =>
    or_iff_not_imp_left.2 (state_write_of_ne s ms)
  have hadv : Advances c s₀ s (s.write [(key, ms)]) := by
    refine ⟨rfl, fun key' _ => ?_, fun key' _ => ?_⟩
    all_goals rcases hstate key' with rfl | hsame
    · exact hforeign
    · exact hsame ▸ id
    · exact hnew
    · exact hsame ▸ id
  refine ⟨h.advance hadv (fun key' hkey' => ?_) (fun key' lock _ hlock => ?_) fun key' hisFirst hn => ?_, hadv⟩
  · rcases hstate key' with rfl | hsame
    · exact hflash
    · exact hsame ▸ h.key key' hkey'
  · rcases hstate key' with rfl | hsame
    · exact .inr ⟨hfirst, hclean⟩
    · exact .inl (hsame ▸ hlock)
  · obtain rfl := hisFirst.unique hfirst
    refine (hlast hn).imp_right fun hothers => ⟨hclean, fun key hkey => ?_⟩
    by_cases hne : key = key'
    · exact fun _ => hne ▸ hn
    · exact hadv.done hkey (hothers key hkey hne)

theorem writeOthers_spec (h : StoreOk c s₀ s) {batch : List (Bytes × List Modify)}
    (hkey : ∀ key, Within c s₀ key → (s.write batch).state key = s.state key ∨
      FlashedBack c (s₀.state key) ((s.write batch).state key) ∧
        (HasNew c (s.state key) → HasNew c ((s.write batch).state key)) ∧
        ∀ lock, ((s.write batch).state key).lock = some lock → (s.state key).lock = some lock)
    (hfirst : ∀ key, IsFirst c s₀ key → HasNew c ((s.write batch).state key) → HasNew c (s.state key)) :
    StoreOk c s₀ (s.write batch) ∧ Advances c s₀ s (s.write batch) ∧ NoNewLock c s₀ s (s.write batch) := by
  have hall := fun key hk => (hkey key hk).elim (fun hsame => hsame.symm ▸ ⟨h.key key hk, id, fun _ => id⟩) id
  have hadv : Advances c s₀ s (s.write batch) := ⟨rfl, fun key hk ⟨lock, hheld, hne⟩ =>
    ⟨lock, (hall key hk).2.2 lock hheld, hne⟩, fun key hk => (hall key hk).2.1⟩
  exact ⟨h.advance hadv (fun key hk => (hall key hk).1) (fun key lock hk hheld => .inl ((hall key hk).2.2 lock hheld))
    fun key hisFirst hn => .inl (hfirst key hisFirst hn), hadv, fun key lock hk => (hall key hk).2.2 lock⟩

structure Writes (c : FlashbackConfig) (s₀ s s' : KeyStore) (next : Option FlashbackCommand) : Prop where
  store : StoreOk c s₀ s'
  advances : Advances c s₀ s s'
  next : ∀ command ∈ next, CommandOk c s₀ s' command

theorem Sound.commands_append {f : Flashback} (h : Sound c s₀ f) {s' : KeyStore} {next : Option FlashbackCommand}
    (hw : Writes c s₀ f.store s' next) : ∀ command ∈ next.toList ++ f.commands, CommandOk c s₀ s' command :=
  forall_mem_append.2 ⟨fun command hmem => hw.next command (Option.mem_toList.1 hmem),
    fun command hmem => hw.advances.commandOk (h.commands command hmem)⟩

section

variable (hts : c.startTs < c.commitTs) (hb : ∀ key, Within c s₀ key → BeforeFlashback c (s₀.state key))

include hts hb

section

variable (h : StoreOk c s₀ s)
include h

variable {startKey : Bytes}

theorem rollbackLocks_spec {keyLocks : List (Bytes × Lock)}
    (hok : CommandOk c s₀ s (.write startKey (.rollbackLock next keyLocks)))
    (hr : processWrite c room s startKey (.rollbackLock next keyLocks) = .ok (batch, command)) :
    Writes c s₀ s (s.write batch) command ∧ NoNewLock c s₀ s (s.write batch) := by
  obtain ⟨rfl, hle, hsorted, hlocks, hall⟩ := hok
  dsimp only [processWrite] at hr
  split at hr
  · cases hr
  rename_i hw
  cases hr
  obtain ⟨done, rest, rfl, rfl, hmods⟩ := writeUntilFull_spec hsorted hw
  -- each key is rolled back or as it was
  have hstate : ∀ key, Within c s₀ key → key ∉ done.map (·.1) ∧ (s.write batch).state key = s.state key ∨
      FlashedBack c (s₀.state key) ((s.write batch).state key) ∧ ((s.write batch).state key).lock = none ∧
        (HasNew c ((s.write batch).state key) ↔ HasNew c (s.state key)) := by
    intro key hkey
    rw [state_write]
    rcases hmods key with ⟨x, hx, rfl, hroll⟩ | ⟨hnot, hnone⟩
    · obtain ⟨_, _, hlock⟩ := hlocks x (mem_append_left _ hx)
      exact .inr ((h.key x.1 hkey).rollbackLock_spec hts (hb x.1 hkey) hlock hroll)
    · rw [hnone]
      exact .inl ⟨fun hmem => (mem_map.1 hmem).elim fun x hx => hnot x hx.1 hx.2, rfl⟩
  obtain ⟨hstore, hadv, hlock⟩ := writeOthers_spec h (fun key hkey => (hstate key hkey).imp And.right
    fun ⟨hflash, hgone, hnew⟩ => ⟨hflash, hnew.2, fun _ hheld => nomatch hgone.symm.trans hheld⟩) fun key hfirst hn => by
      rcases hstate key hfirst.1 with ⟨_, hsame⟩ | ⟨_, _, hnew⟩
      · exact hsame ▸ hn
      · exact hnew.1 hn
  refine ⟨⟨hstore, hadv, ?_⟩, hlock⟩
  rintro command ⟨⟩
  have hstop := getD_bounds hle fun x hx => (hlocks x (mem_append_right done hx)).imp_right And.left
  refine ⟨rfl, hstop.1, fun key hkey hlt hforeign => ?_⟩
  obtain ⟨x, hx, rfl⟩ := mem_map.1 (hall key hkey (hlt.trans_le hstop.2) (hadv.foreign key hkey hforeign))
  obtain ⟨lock, hheld, _⟩ := hforeign
  rcases hstate x.1 hkey with ⟨hnot, _⟩ | ⟨_, hgone, _⟩
  · exact hnot (mem_map_of_mem (mem_done hsorted hx hlt))
  · cases hgone.symm.trans hheld

theorem flashbackWrite_spec {keys : List Bytes} (hok : CommandOk c s₀ s (.write startKey (.flashbackWrite next keys)))
    (hr : processWrite c room s startKey (.flashbackWrite next keys) = .ok (batch, command)) :
    Writes c s₀ s (s.write batch) command ∧ NoNewLock c s₀ s (s.write batch) := by
  obtain ⟨hfirst, hclean, hle, hsorted, hkeys, hall⟩ := hok
  dsimp only [processWrite] at hr
  split at hr
  · cases hr
  rename_i hw
  cases hr
  have hsorted' : (keys.map id).Pairwise (· < ·) := by rwa [map_id]
  obtain ⟨done, rest, rfl, rfl, hmods⟩ := writeUntilFull_spec hsorted' hw
  have hstate : ∀ key, Within c s₀ key → key ∉ done ∧ (s.write batch).state key = s.state key ∨
      key ∈ done ∧ FlashedBack c (s₀.state key) ((s.write batch).state key) ∧ HasNew c ((s.write batch).state key) ∧
        ((s.write batch).state key).lock = (s.state key).lock := by
    intro key hkey
    rw [state_write]
    rcases hmods key with ⟨x, hx, rfl, hwrite⟩ | ⟨hnot, hnone⟩
    · obtain ⟨_, _, hchanged, _⟩ := hkeys x (mem_append_left _ hx)
      exact .inr ⟨hx, (h.key x hkey).writeKey_spec hts (hb x hkey) hchanged hwrite⟩
    · rw [hnone]
      exact .inl ⟨fun hmem => hnot key hmem rfl, rfl⟩
  obtain ⟨hstore, hadv, hlock⟩ := writeOthers_spec h (fun key hkey => (hstate key hkey).imp And.right
    fun ⟨_, hflash, hnew, hlock⟩ => ⟨hflash, fun _ => hnew, fun _ => hlock.symm.trans⟩) fun key hisFirst hn => by
      rcases hstate key hisFirst.1 with ⟨_, hsame⟩ | ⟨hmem, _⟩
      · exact hsame ▸ hn
      -- the first key is not among those written
      · exact absurd (hisFirst.unique hfirst) (hkeys key (mem_append_left _ hmem)).2.2.2
  refine ⟨⟨hstore, hadv, ?_⟩, hlock⟩
  rintro command ⟨⟩
  have hstop : c.startKey ≤ (rest.head?.map id).getD next ∧ _ :=
    getD_bounds hle fun x hx => (hkeys x (mem_append_right done hx)).imp_right And.left
  refine .inr ⟨hfirst, hadv.clean hclean, hstop.1, fun key hkey hne hlt => ?_⟩
  by_cases hmem : key ∈ done ++ rest
  · rcases hstate key hkey with ⟨hnot, _⟩ | ⟨_, _, hnew, _⟩
    · exact absurd (mem_done hsorted' hmem hlt) hnot
    · exact fun _ => hnew
  · exact hadv.done hkey (hall key hkey hne (hlt.trans_le hstop.2) hmem)

theorem prewrite_spec (hok : CommandOk c s₀ s (.write startKey (.prewrite key)))
    (hr : processWrite c room s startKey (.prewrite key) = .ok (batch, command)) :
    Writes c s₀ s (s.write batch) command ∧ Clean c s₀ (s.write batch) := by
  obtain ⟨hfirst, hclean⟩ := hok
  dsimp only [processWrite] at hr
  split at hr
  · cases hr
  rename_i ms hw
  cases hr
  obtain ⟨hflash, hwrites, hforeign⟩ := (h.key key hfirst.1).prewriteKey_spec hts (hb key hfirst.1) hfirst.2.1 hw
  have hnew : HasNew c ((s.state key).apply ms) ↔ HasNew c (s.state key) := by rw [HasNew, hwrites, HasNew]
  obtain ⟨hstore, hadv⟩ := writeFirst_spec h hfirst hclean hflash hforeign hnew.2 fun hn => .inl (hnew.1 hn)
  exact ⟨⟨hstore, hadv, nofun⟩, hadv.clean hclean⟩

theorem commit_spec (hok : CommandOk c s₀ s (.write startKey (.commit key)))
    (hr : processWrite c room s startKey (.commit key) = .ok (batch, command)) :
    Writes c s₀ s (s.write batch) command ∧ Finished c s₀ (s.write batch) := by
  obtain ⟨hfirst, hclean, hdone⟩ := hok
  dsimp only [processWrite] at hr
  split at hr
  · cases hr
  rename_i ms hw
  cases hr
  obtain ⟨hflash, hnew, hlock⟩ :=
    (h.key key hfirst.1).commitKey_spec hts (hb key hfirst.1) (hclean key hfirst.1) hw
  obtain ⟨hstore, hadv⟩ := writeFirst_spec h hfirst hclean hflash
    (fun ⟨lock, hheld, _⟩ => nomatch hlock.symm.trans hheld) (fun _ => hnew) fun _ => .inr hdone
  rw [← state_write_self] at hnew hlock
  exact ⟨⟨hstore, hadv, nofun⟩, finished_of_first hstore hfirst hnew hlock⟩

end

/-! ## Runs -/

theorem Sound.step {f : Flashback} (h : Sound c s₀ f) {ev : FlashbackEvent} (hok : ev.Issued f) :
    Sound c s₀ (step c f ev) := by
  cases ev with
  | prepare =>
    refine ⟨h.store, forall_mem_cons.2 ⟨?_, h.commands⟩, h.prepared, h.finished⟩
    exact ⟨rfl, le_refl _, fun key hkey hlt => absurd hkey.2.1 (not_le_of_gt hlt)⟩
  | finish =>
    exact ⟨h.store, forall_mem_cons.2 ⟨.inl ⟨rfl, rfl⟩, h.commands⟩, h.prepared, h.finished⟩
  | execute command limit room =>
    have hcommand := h.commands command hok
    cases command with
    | read startKey state =>
      unfold Flashback.step
      dsimp only
      cases hr : processRead c limit f.store startKey state with
      | error e => exact h
      | ok r =>
        cases state with
        | rollbackLock next keyLocks =>
          have hread := readRollbackLock_spec hts hb h.store hcommand hr
          cases r with
          | none => exact ⟨h.store, h.commands, fun _ => hread, h.finished⟩
          | some command => exact ⟨h.store, forall_mem_cons.2 ⟨hread, h.commands⟩, h.prepared, h.finished⟩
        | flashbackWrite next keys =>
          have hread := readFlashbackWrite_spec hts hb h.store hcommand hr
          cases r with
          | none => exact ⟨h.store, h.commands, h.prepared, fun _ => hread⟩
          | some command => exact ⟨h.store, forall_mem_cons.2 ⟨hread, h.commands⟩, h.prepared, h.finished⟩
        | prewrite | commit => cases hr
    | write startKey state =>
      unfold Flashback.step
      dsimp only
      cases hr : processWrite c room f.store startKey state with
      | error e => exact h
      | ok r =>
        cases state with
        | rollbackLock nextKey keyLocks =>
          obtain ⟨hw, hlocks⟩ := rollbackLocks_spec hts hb h.store hcommand hr
          exact ⟨hw.store, h.commands_append hw, fun hp => hw.advances.clean (h.prepared hp),
            fun hf => (h.finished hf).advance hw.advances hlocks⟩
        | flashbackWrite nextKey keys =>
          obtain ⟨hw, hlocks⟩ := flashbackWrite_spec hts hb h.store hcommand hr
          exact ⟨hw.store, h.commands_append hw, fun hp => hw.advances.clean (h.prepared hp),
            fun hf => (h.finished hf).advance hw.advances hlocks⟩
        | prewrite key =>
          obtain ⟨hw, hclean⟩ := prewrite_spec hts hb h.store hcommand hr
          exact ⟨hw.store, h.commands_append hw, fun _ => hclean, nofun⟩
        | commit key =>
          obtain ⟨hw, hfinished⟩ := commit_spec hts hb h.store hcommand hr
          exact ⟨hw.store, h.commands_append hw, fun hp => hw.advances.clean (h.prepared hp), fun _ => hfinished⟩

theorem Sound.init (hagree : ∀ key, Within c s₀ key → FencesAgree c (s₀.state key)) : Sound c s₀ (init s₀) where
  store := {
    keys := rfl
    key := fun key hkey => (hb key hkey).flashedBack hts (hagree key hkey)
    own := fun key lock hkey hlock hown => absurd hown (ne_of_lt ((hb key hkey).lock lock hlock).2.1)
    first := fun key hfirst ⟨_, hw⟩ => absurd ((hb key hfirst.1).below _ hw).1 (lt_asymm hts) }
  commands := nofun
  prepared := nofun
  finished := nofun

end

end

/-- **A flashback restores the range**: once a prepare and a finish request have been answered, in whatever batches and
however often the commands in between were executed, no key of the range is locked, and a get at the commit timestamp reads
what was visible at the version.  The gc fences of the old versions must agree. -/
theorem restored_of_run {c : FlashbackConfig} {s₀ : KeyStore} {l : List FlashbackEvent} {f : Flashback}
    (hts : c.startTs < c.commitTs) (hb : ∀ key ∈ s₀.keys, c.InRange key → BeforeFlashback c (s₀.state key))
    (hagree : ∀ key ∈ s₀.keys, c.InRange key → FencesAgree c (s₀.state key))
    (hrun : Run (stepOf (Flashback.step c)) (fun f ev => ev.Issued f) (Flashback.init s₀) l f)
    (hprepared : f.prepared = true) (hfinished : f.finished = true) :
    ∀ key ∈ s₀.keys, c.InRange key → (f.store.state key).lock = none ∧ ∀ newer,
      (pointGet (siAt c.commitTs) newer key (f.store.state key)).1 =
        readVisible (siAt c.version) (s₀.state key).writes (s₀.state key).values.lookup ∧
      ∀ newer' r, (pointGet (siAt c.version) newer' key (s₀.state key)).1 = .ok r →
        (pointGet (siAt c.commitTs) newer key (f.store.state key)).1 = .ok r := by
  have hbw : ∀ key, Within c s₀ key → BeforeFlashback c (s₀.state key) := fun key hkey => hb key hkey.1 hkey.2
  have hsound : Sound c s₀ f := by
    refine hrun.invariant (I := Sound c s₀) ?_ (Sound.init hts hbw fun key hkey => hagree key hkey.1 hkey.2)
    rintro f ev f' hf hok rfl
    exact hf.step hts hbw hok
  intro key hmem hrange
  have hkey : Within c s₀ key := ⟨hmem, hrange⟩
  have hflash := hsound.store.key key hkey
  obtain ⟨hnoOwn, hdone⟩ := hsound.finished hfinished
  have hlock : (f.store.state key).lock = none := by
    apply Option.eq_none_iff_forall_ne_some.2
    intro lock hheld
    exact hsound.prepared hprepared key hkey ⟨lock, hheld, hnoOwn key lock hkey hheld⟩
  refine ⟨hlock, fun newer => ?_⟩
  have hget := hflash.pointGet_eq (hbw key hkey) hts (hagree key hmem hrange) hlock (hdone key hkey) newer key
  refine ⟨hget, fun newer' r hr => ?_⟩
  exact hget.trans (readVisible_of_ok (hbw key hkey).sound.toConsistent hr)

/-! ## Two runs -/

def executeNewest (c : FlashbackConfig) (limit room : Nat) (f : Flashback) : Flashback :=
  match f.commands with
  | [] => f
  | command :: _ => Flashback.step c f (.execute command limit room)

theorem run_executeNewest {c : FlashbackConfig} {limit room : Nat} {g : Flashback} : ∀ (n : Nat) (f : Flashback)
    {l : List FlashbackEvent}, Run (stepOf (step c)) (fun f ev => ev.Issued f) ((executeNewest c limit room)^[n] f) l g →
      ∃ l', Run (stepOf (step c)) (fun f ev => ev.Issued f) f l' g
  | 0, _, l, h => ⟨l, h⟩
  | n + 1, f, l, h => by
    obtain ⟨l', h'⟩ := run_executeNewest n (executeNewest c limit room f) h
    unfold executeNewest at h'
    cases hcommands : f.commands with
    | nil =>
      rw [hcommands] at h'
      exact ⟨l', h'⟩
    | cons command rest =>
      rw [hcommands] at h'
      refine ⟨.execute command limit room :: l', .cons ?_ rfl h'⟩
      show command ∈ f.commands
      rw [hcommands]
      exact mem_cons_self

def flashbackIn (c : FlashbackConfig) (n : Nat) (s₀ : KeyStore) : Flashback :=
  (executeNewest c 2 1)^[n] (Flashback.step c ((executeNewest c 2 1)^[n] (Flashback.step c (.init s₀) .prepare)) .finish)

theorem run_flashbackIn (c : FlashbackConfig) (n : Nat) (s₀ : KeyStore) :
    ∃ l, Run (stepOf (step c)) (fun f ev => ev.Issued f) (init s₀) l (flashbackIn c n s₀) := by
  obtain ⟨l₁, h₁⟩ := run_executeNewest n _ (.nil (flashbackIn c n s₀))
  obtain ⟨l₂, h₂⟩ := run_executeNewest n (step c (.init s₀) .prepare) (.cons (a := FlashbackEvent.finish) trivial rfl h₁)
  exact ⟨_, .cons (a := FlashbackEvent.prepare) trivial rfl h₂⟩

def toForty : FlashbackConfig := ⟨100, 101, 40, [], none⟩

/-- A key with a version at 30 that has a gc fence, a newer one at 60 and a lock; a key written at 70, and one written
at 10. -/
def fencedStore (fence : Nat) : KeyStore where
  keys := [[1], [2], [3]]
  ascending := by decide
  state key :=
    if key = [1] then
      { lock := some (Lock.new .put [1] 80 1000 none 0 1 0 false)
        writes := (Chain.empty.insert 60 (Write.new .put 55 (some [6]))).insert 30
          { Write.new .put 20 none with hasOverlappedRollback := true, gcFence := some fence }
        values := AList.insert 80 [8] (AList.insert 20 [2] ∅) }
    else if key = [2] then ⟨none, Chain.empty.insert 70 (Write.new .put 65 (some [7])), ∅⟩
    else ⟨none, Chain.empty.insert 10 (Write.new .put 5 (some [1])), ∅⟩

theorem soundKey_of_data {k : KeyState} (h : ∀ e ∈ k.writes.entries, e.2.isData = true ∧ 0 < e.1 ∧ e.2.startTs ≤ e.1 ∧
    (e.2.hasOverlappedRollback = false → e.2.gcFence = none) ∧
    (e.2.shortValue = none → ∃ value, k.values.lookup e.2.startTs = some value)) : SoundKey k := by
  have hnot : ∀ {P : Prop}, ∀ e ∈ k.writes.entries, e.2.isData = false → P := by
    intro P e he hdata
    rw [(h e he).1] at hdata
    cases hdata
  refine ⟨⟨fun e he => (h e he).2.1, fun e he _ => (h e he).2.2.2.2, fun e he hdata => hnot e he hdata,
    fun e he hdata => hnot e he hdata, fun e he hdata => hnot e he hdata⟩, fun e he htype => hnot e he ?_,
    fun e he => (h e he).2.2.2.1, fun e he => (h e he).2.2.1⟩
  unfold isData
  rw [htype]
  rfl

theorem beforeFlashback_put {startTs commitTs : Nat} (value : Bytes) (hpos : 0 < commitTs) (hle : startTs ≤ commitTs)
    (hlt : commitTs < 100) :
    BeforeFlashback toForty ⟨none, Chain.empty.insert commitTs (new .put startTs (some value)), ∅⟩ := by
  have hentries : ∀ {P : Nat × Write → Prop}, P (commitTs, new .put startTs (some value)) →
      ∀ e ∈ [(commitTs, new .put startTs (some value))], P e := fun h e he => by rwa [mem_singleton.1 he]
  exact ⟨soundKey_of_data (hentries ⟨rfl, hpos, hle, fun _ => rfl, nofun⟩), hentries ⟨hlt, nofun⟩, rfl, nofun⟩

theorem beforeFlashback_fencedStore {fence : Nat} (hf : fence < 100) :
    ∀ key ∈ (fencedStore fence).keys, toForty.InRange key → BeforeFlashback toForty ((fencedStore fence).state key) := by
  intro key hkey _
  have hentries : ∀ {P : Nat × Write → Prop}, P (60, new .put 55 (some [6])) →
      P (30, { new .put 20 none with hasOverlappedRollback := true, gcFence := some fence }) →
      ∀ e ∈ ((fencedStore fence).state [1]).writes.entries, P e :=
    fun h h' => forall_mem_cons.2 ⟨h, forall_mem_singleton.2 h'⟩
  have hkeys : key = [1] ∨ key = [2] ∨ key = [3] := by simpa [fencedStore] using hkey
  rcases hkeys with rfl | rfl | rfl
  · refine ⟨soundKey_of_data (hentries ⟨rfl, by decide, by decide, fun _ => rfl, nofun⟩
      ⟨rfl, Nat.succ_pos 29, (by decide : 20 ≤ 30), nofun, fun _ => ⟨[2], rfl⟩⟩),
      hentries ⟨by decide, nofun⟩ ⟨(by decide : 30 < 100), fun f hfence => ?_⟩, rfl, fun lock hlock => ?_⟩
    · cases hfence
      exact hf
    · cases hlock
      exact ⟨by decide, by decide, hentries nofun nofun⟩
  · exact beforeFlashback_put [7] (by decide) (by decide) (by decide)
  · exact beforeFlashback_put [1] (by decide) (by decide) (by decide)

theorem fencesAgree_fencedStore : ∀ key ∈ (fencedStore 0).keys, toForty.InRange key →
    FencesAgree toForty ((fencedStore 0).state key) := by
  intro key hkey _ e he _
  have hpass : ∀ ts, e.2.checkGcFence ts = true := by
    have hmem := (latestData_eq_some.1 he).1
    have hkeys : key = [1] ∨ key = [2] ∨ key = [3] := by simpa [fencedStore] using hkey
    rcases hkeys with rfl | rfl | rfl
    · have hcases : e = (60, new .put 55 (some [6])) ∨
          e = (30, { new .put 20 none with hasOverlappedRollback := true, gcFence := some 0 }) := by
        simpa using (show e ∈ [_, _] from hmem)
      rcases hcases with rfl | rfl <;> exact fun _ => rfl
    all_goals
      cases mem_singleton.1 (show e ∈ [_] from hmem)
      exact fun _ => rfl
  exact ⟨fun _ => hpass _, fun _ _ => hpass _⟩

/-- A changed key gets its old value back, a new one is deleted, and one that has not changed stays. -/
theorem restored_of_run_forty : (flashbackIn toForty 6 (fencedStore 0)).prepared = true ∧
    (flashbackIn toForty 6 (fencedStore 0)).finished = true ∧
    ∀ key ∈ (fencedStore 0).keys, toForty.InRange key →
      ((flashbackIn toForty 6 (fencedStore 0)).store.state key).lock = none ∧ ∀ newer,
      (pointGet (siAt 101) newer key ((flashbackIn toForty 6 (fencedStore 0)).store.state key)).1 =
        readVisible (siAt 40) ((fencedStore 0).state key).writes ((fencedStore 0).state key).values.lookup := by
  have hprepared : (flashbackIn toForty 6 (fencedStore 0)).prepared = true := by decide +kernel
  have hfinished : (flashbackIn toForty 6 (fencedStore 0)).finished = true := by decide +kernel
  obtain ⟨l, hrun⟩ := run_flashbackIn toForty 6 (fencedStore 0)
  refine ⟨hprepared, hfinished, fun key hkey hrange => ?_⟩
  obtain ⟨hlock, hget⟩ := restored_of_run (by decide) (beforeFlashback_fencedStore (by decide)) fencesAgree_fencedStore hrun
    hprepared hfinished key hkey hrange
  exact ⟨hlock, fun newer => (hget newer).1⟩

/-- **A version that was collected comes back**: the PUT at 30 has a gc fence at 35, where its successor was, so a get at 40
reads nothing.  The flashback to 40 takes the PUT for the old version. -/
theorem not_restored : ∃ (c : FlashbackConfig) (s₀ : KeyStore) (l : List FlashbackEvent) (f : Flashback) (key : Bytes),
    c.startTs < c.commitTs ∧ (∀ key ∈ s₀.keys, c.InRange key → BeforeFlashback c (s₀.state key)) ∧
    Run (stepOf (Flashback.step c)) (fun f ev => ev.Issued f) (Flashback.init s₀) l f ∧ f.prepared = true ∧
    f.finished = true ∧ key ∈ s₀.keys ∧ c.InRange key ∧
    (pointGet (siAt c.version) .unknown key (s₀.state key)).1 = .ok none ∧
    (pointGet (siAt c.commitTs) .unknown key (f.store.state key)).1 = .ok (some [2]) := by
  obtain ⟨l, hrun⟩ := run_flashbackIn toForty 4 (fencedStore 35)
  refine ⟨toForty, fencedStore 35, l, _, [1], by decide, beforeFlashback_fencedStore (by decide), hrun, by decide +kernel,
    by decide +kernel, mem_cons_self, ⟨by decide, rfl⟩, rfl, by decide +kernel⟩

end Flashback

end Mvcc
end Tikv
