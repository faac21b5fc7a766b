import Tikv.MvccExclude
import Tikv.MvccFlashback
/-!
# MvccFlashbackKey — one key under a flashback

What the commands of a flashback leave of a key: the old records with some of the rollbacks of its lock, and at the commit
timestamp of the flashback the version that was visible at the flashback version (`FlashedBack`).  Rolling back, writing,
prewriting and committing all keep to that, whatever was done before.
-/
namespace Tikv
namespace Mvcc

open Lib Option Write

/-! ## Finding the old version -/

theorem Write.checkGcFence_zero (w : Write) : w.checkGcFence 0 = true := by
  apply Bool.of_not_eq_false
  intro h
  obtain ⟨f, _, hne, hle⟩ := checkGcFence_eq_false.1 h
  exact hne (Nat.le_zero.1 hle)

variable {e : Nat × Write} {v : Versions}

theorem writeFrom_older {limit : Nat} {d : List (Nat × Write)}
    (hdata : e.2.isData = false) (hfence : e.2.checkGcFence limit = true) :
    writeFrom v limit (e :: d) = match e.2.lastChange with
      | .notExist => .ok none
      | .unknown => writeFrom v limit d
      | .exist lastChangeTs estimatedVersions =>
        if estimatedVersions < seekBound then writeFrom v limit d
        else match v.lookup lastChangeTs with
          | none => .ok none
          | some last =>
            match last.writeType with
            | .put => .ok (if last.checkGcFence limit then some (last, lastChangeTs) else none)
            | .delete => .ok none
            | .lock | .rollback => .error (.panic "Write record pointed by last_change_ts should be Put or Delete") := by
  obtain ⟨t, w⟩ := e
  rw [writeFrom, if_neg (by rw [hfence]; decide)]
  unfold isData at hdata
  cases htype : w.writeType with
  | put | delete => rw [htype] at hdata; cases hdata
  | lock | rollback => rfl

variable {ts : Nat}

theorem visible_of_latestPut (h : latestData v ts = some e)
    (hput : e.2.writeType = .put) (hfence : e.2.checkGcFence ts = true) : visible v ts = some e :=
  visible_eq_some.2 ⟨h, hput, hfence⟩

theorem visible_of_latestDelete (h : latestData v ts = some e)
    (hdel : e.2.writeType = .delete) : visible v ts = none := by
  refine visible_eq_none_of_verdict h fun hv => ?_
  rw [(verdict_eq_value.1 hv).1] at hdel
  cases hdel

section

variable (hcons : ConsistentAt v ts)
  (hfence : ∀ e, latestData v ts = some e → e.2.writeType = .put → e.2.checkGcFence ts = true)
include hcons hfence

theorem writeFrom_zero : ∀ {d : List (Nat × Write)}, CameTo v ts d →
    writeFrom v 0 d = .ok ((visible v ts).map fun e => (e.2, e.1))
  | [], h => by
    rw [h.visible_nil]
    rfl
  | e :: d, h => by
    by_cases hdata : e.2.isData = false
    · have hnext := writeFrom_zero (h.next hdata)
      rw [writeFrom_older hdata e.2.checkGcFence_zero]
      cases hlast : e.2.lastChange with
      | unknown => exact hnext
      | notExist => rw [h.visible_of_notExist hcons hdata hlast]; rfl
      | exist t n =>
        dsimp only
        split
        · exact hnext
        rcases h.lookup_of_exist hcons hdata hlast with ⟨w, hw, hwdata, hlatest⟩ | ⟨hmissing, hnone⟩
        · rw [hw]
          unfold isData at hwdata
          cases htype : w.writeType with
          | put => simp [htype, w.checkGcFence_zero, visible_of_latestPut hlatest htype (hfence _ hlatest htype)]
          | delete => simp [htype, visible_of_latestDelete hlatest htype]
          | _ => rw [htype] at hwdata; cases hwdata
        · rw [hmissing, hnone]
          rfl
    · have hdata' : e.2.isData = true := Bool.of_not_eq_false hdata
      have hlatest : latestData v ts = some e := by rw [h.latest, List.find?_cons_of_pos (by exact hdata')]
      obtain ⟨t, w⟩ := e
      rw [writeFrom, if_neg (by rw [w.checkGcFence_zero]; decide)]
      unfold isData at hdata'
      cases htype : w.writeType with
      | put => simp [visible_of_latestPut hlatest htype (hfence _ hlatest htype)]
      | delete => simp [visible_of_latestDelete hlatest htype]
      | _ => rw [htype] at hdata'; cases hdata'

theorem getWrite_eq : getWrite v ts = .ok ((visible v ts).map (·.2)) := by
  unfold getWrite getWriteWithCommitTs
  rw [writeFrom_zero hcons hfence (cameTo_dropWhile v ts)]
  cases visible v ts <;> rfl

end

/-! ## Sound keys -/

/-- **A sound key**: consistent records, rollback records at their start timestamps, gc fences on overlapped records only,
and nothing committed before it started. -/
structure SoundKey (k : KeyState) : Prop extends Consistent k where
  rollbacks : RollbacksAtStart k.writes
  fences : ∀ e ∈ k.writes.entries, e.2.hasOverlappedRollback = false → e.2.gcFence = none
  starts : ∀ e ∈ k.writes.entries, e.2.startTs ≤ e.1

variable {t : Nat}

theorem CarriesReads.isData {v' : Versions} (h : CarriesReads v v')
    (ht : ∃ w, (t, w) ∈ v.entries ∧ w.isData = true) : ∃ w, (t, w) ∈ v'.entries ∧ w.isData = true := by
  obtain ⟨w, hw, hdata⟩ := ht
  obtain ⟨w', hw', htype, _⟩ := h t w hw hdata
  exact ⟨w', hw', (isData_congr htype).trans hdata⟩

theorem readAt_eq_none : readAt v ts = none ↔ visible v ts = none := by
  unfold readAt
  rw [map_eq_none_iff]

section

variable {k k' : KeyState} {ts : Nat} (hundone : Undone k.writes k'.writes ts)
include hundone

theorem Undone.record (he : e ∈ k'.writes.entries) (hdata : e.2.isData = false) :
    e ∈ k.writes.entries ∨ e.2.lastChange = .unknown ∧ e.2.gcFence = none ∨
      ∃ w f, (e.1, w) ∈ k.writes.entries ∧ w.isData = false ∧ e.2.lastChange = w.lastChange ∧ e.2.gcFence = some f ∧
        (f = 0 ∨ e.1 < f ∧ ∃ w', (f, w') ∈ k.writes.entries ∧ w'.isData = true) := by
  rcases hundone.sub e he with hmem | ⟨hts, ⟨_, hnew⟩ | ⟨old, f, hmem, _, _, hfence, hmark⟩⟩
  · exact .inl hmem
  · rw [hnew]
    exact .inr (.inl ⟨rfl, rfl⟩)
  rw [hmark] at hdata ⊢
  rw [← hts] at hmem hfence
  exact .inr (.inr ⟨old, f, hmem, hdata, rfl, rfl, hfence⟩)

theorem Undone.lastChange (he : e ∈ k'.writes.entries) (hdata : e.2.isData = false) (hne : e.2.lastChange ≠ .unknown) :
    ∃ w, (e.1, w) ∈ k.writes.entries ∧ w.isData = false ∧ w.lastChange = e.2.lastChange := by
  rcases hundone.record he hdata with hmem | ⟨hunknown, _⟩ | ⟨w, f, hw, hwdata, hsame, _⟩
  · exact ⟨e.2, hmem, hdata, rfl⟩
  · exact absurd hunknown hne
  · exact ⟨w, hw, hwdata, hsame.symm⟩

theorem SoundKey.undone (hk : SoundKey k) (hpos : 0 < ts)
    (hnamed : ∀ e ∈ k.writes.entries, e.2.isData = false → ∀ n, e.2.lastChange = .exist ts n →
      ∃ w, (ts, w) ∈ k.writes.entries ∧ w.isData = true)
    (hstarts : ∀ e ∈ k.writes.entries, e.2.startTs ≠ ts)
    (hvalues : ∀ s, s ≠ ts → k'.values.lookup s = k.values.lookup s) : SoundKey k' := by
  obtain ⟨hto, hfrom⟩ := hundone.carriesReads hk.fences
  have hvisible : ∀ t, visible k.writes t = none → visible k'.writes t = none := by
    intro t h
    rw [← readAt_eq_none, readAt_congr hto hfrom, readAt_eq_none]
    exact h
  refine ⟨⟨fun e he => ?_, fun e he hput hshort => ?_, fun e he hdata t n hlast => ?_, fun e he hdata hlast => ?_,
    fun e he hdata f hf hne => ?_⟩, hk.rollbacks.undone hundone, hundone.fences hk.fences, fun e he => ?_⟩
  · rcases hundone.sub e he with hmem | ⟨hts, _⟩
    · exact hk.commitTs_pos e hmem
    rw [hts]
    exact hpos
  · obtain ⟨w, hw, htype, hstart, hshort', _⟩ := hfrom e.1 e.2 he (isData_of_put hput)
    obtain ⟨v, hv⟩ := hk.value (e.1, w) hw (htype.trans hput) (hshort'.trans hshort)
    refine ⟨v, ?_⟩
    rw [← hstart, hvalues _ (hstarts _ hw)]
    exact hv
  · obtain ⟨w₀, he₀, hdata₀, hsame⟩ := hundone.lastChange he hdata (by rw [hlast]; nofun)
    obtain ⟨hlt, ⟨w, hw, hwdata, hmax⟩ | ⟨hmissing, hno⟩⟩ := hk.exist (e.1, w₀) he₀ hdata₀ t n (hsame.trans hlast)
    · obtain ⟨w', hw', hwdata'⟩ := hto.isData ⟨w, hw, hwdata⟩
      refine ⟨hlt, .inl ⟨w', hw', hwdata', fun e' he' hlt' hdata' => ?_⟩⟩
      obtain ⟨w₁, hw₁, hdata₁⟩ := hfrom.isData ⟨e'.2, he', hdata'⟩
      exact hmax (e'.1, w₁) hw₁ hlt' hdata₁
    · refine ⟨hlt, .inr ⟨fun w hw => ?_, fun e' he' hlt' => Bool.eq_false_iff.2 fun hdata' => ?_⟩⟩
      · rcases hundone.sub _ hw with hmem | ⟨hts, _⟩
        · exact hmissing w hmem
        -- the version is named by a last change, so the rollback record is not there
        subst hts
        obtain ⟨w', hw', _⟩ := hnamed (e.1, w₀) he₀ hdata₀ n (hsame.trans hlast)
        exact hmissing w' hw'
      · obtain ⟨w₁, hw₁, hdata₁⟩ := hfrom.isData ⟨e'.2, he', hdata'⟩
        cases (hno (e'.1, w₁) hw₁ hlt').symm.trans hdata₁
  · obtain ⟨w, hw, hwdata, hsame⟩ := hundone.lastChange he hdata (by rw [hlast]; nofun)
    exact hvisible _ (hk.notExist (e.1, w) hw hwdata (hsame.trans hlast))
  · rcases hundone.record he hdata with hmem | ⟨_, hnone⟩ | ⟨w, f', hw, hwdata, _, hsome, hfence⟩
    · rcases hk.gcFence e hmem hdata f hf hne with ⟨w, hw, hwdata, hlt⟩ | hnone
      · obtain ⟨w', hw', hwdata'⟩ := hto.isData ⟨w, hw, hwdata⟩
        exact .inl ⟨w', hw', hwdata', hlt⟩
      · exact .inr (hvisible _ hnone)
    · rw [hnone] at hf
      cases hf
    · rw [hsome] at hf
      cases hf
      obtain ⟨hlt, hw'⟩ := hfence.resolve_left hne
      obtain ⟨w', hw', hwdata'⟩ := hto.isData hw'
      exact .inl ⟨w', hw', hwdata', hlt⟩
  · rcases hundone.sub e he with hmem | ⟨hts, ⟨_, hnew⟩ | ⟨_, _, hmarks⟩⟩
    · exact hk.starts e hmem
    · rw [hnew, hts]
      exact le_rfl
    · rw [hmarks.eq, hts]
      exact le_of_lt hmarks.lt

end

/-! ## A version on top -/

section

variable {v : Versions} {top : Nat} {w : Write}

theorem mem_insert_of_lt (hlt : e.1 < top) : e ∈ (v.insert top w).entries ↔ e ∈ v.entries := by
  rw [Chain.mem_insert]
  constructor
  · rintro (rfl | ⟨he, _⟩)
    · exact absurd hlt (lt_irrefl _)
    · exact he
  · intro he
    exact .inr ⟨he, ne_of_lt hlt⟩

theorem latestData_insert_of_lt (hlt : ts < top) : latestData (v.insert top w) ts = latestData v ts := by
  exact latestData_congr fun e _ => and_congr_left fun hle => mem_insert_of_lt (hle.trans_lt hlt)

theorem visible_insert_of_lt (hlt : ts < top) : visible (v.insert top w) ts = visible v ts := by
  unfold visible
  rw [latestData_insert_of_lt hlt]

end

variable {w : Write}

theorem SoundKey.insert_top {k k' : KeyState} (hk : SoundKey k) {top : Nat}
    (hbound : ∀ e ∈ k.writes.entries, e.1 ≤ top ∧ ∀ f, e.2.gcFence = some f → f ≤ top) (hpos : 0 < top)
    (hdata : w.isData = true) (hstart : w.startTs ≤ top) (hfence : w.gcFence = none)
    (hwrites : k'.writes = k.writes.insert top w)
    (hvalue : w.writeType = .put → w.shortValue = none → ∃ v, k'.values.lookup w.startTs = some v)
    (hvalues : ∀ e ∈ k.writes.entries, e.1 ≠ top → k'.values.lookup e.2.startTs = k.values.lookup e.2.startTs) :
    SoundKey k' := by
  -- the other records are below
  have hall : ∀ {P : Nat × Write → Prop}, P (top, w) → (∀ e ∈ k.writes.entries, e.1 < top → P e) →
      ∀ e ∈ k'.writes.entries, P e := by
    intro P hnew hold
    rw [hwrites]
    exact Chain.forall_mem_insert hnew fun e he hne => hold e he (lt_of_le_of_ne (hbound e he).1 hne)
  have hbelow : ∀ e ∈ k'.writes.entries, e.2.isData = false → e ∈ k.writes.entries ∧ e.1 < top :=
    hall (fun hnot => nomatch hdata.symm.trans hnot) fun e hold hlt _ => ⟨hold, hlt⟩
  have hmem : ∀ e : Nat × Write, e.1 < top → (e ∈ k'.writes.entries ↔ e ∈ k.writes.entries) := by
    intro e hlt
    rw [hwrites, mem_insert_of_lt hlt]
  have hvisible : ∀ ts, ts < top → visible k'.writes ts = visible k.writes ts := by
    intro ts hlt
    rw [hwrites, visible_insert_of_lt hlt]
  refine ⟨⟨hall hpos fun e hold _ => hk.commitTs_pos e hold, hall hvalue fun e hold hlt => ?_,
    fun e he hnot t n hlast => ?_, fun e he hnot hlast => ?_, fun e he hnot f hf hne => ?_⟩,
    hall (fun htype => ?_) fun e hold _ => hk.rollbacks e hold, hall (fun _ => hfence) fun e hold _ => hk.fences e hold,
    hall hstart fun e hold _ => hk.starts e hold⟩
  · rw [hvalues e hold (ne_of_lt hlt)]
    exact hk.value e hold
  · obtain ⟨hold, htop⟩ := hbelow e he hnot
    obtain ⟨hlt, ⟨w₀, hw₀, hdata₀, hmax⟩ | ⟨hmissing, hno⟩⟩ := hk.exist e hold hnot t n hlast
    · refine ⟨hlt, .inl ⟨w₀, (hmem _ (hlt.trans htop)).2 hw₀, hdata₀, fun e' he' hlt' => ?_⟩⟩
      exact hmax e' ((hmem e' (hlt'.trans htop)).1 he') hlt'
    · refine ⟨hlt, .inr ⟨fun w₀ hw₀ => hmissing w₀ ((hmem _ (hlt.trans htop)).1 hw₀), fun e' he' hlt' => ?_⟩⟩
      exact hno e' ((hmem e' (hlt'.trans htop)).1 he') hlt'
  · obtain ⟨hold, htop⟩ := hbelow e he hnot
    rw [hvisible _ htop]
    exact hk.notExist e hold hnot hlast
  · obtain ⟨hold, htop⟩ := hbelow e he hnot
    by_cases hfTop : f = top
    · -- the fence names the new version
      refine .inl ⟨w, ?_, hdata, hfTop ▸ htop⟩
      rw [hfTop, hwrites]
      exact Chain.mem_insert.2 (.inl rfl)
    · have hflt : f < top := lt_of_le_of_ne ((hbound e hold).2 f hf) hfTop
      rcases hk.gcFence e hold hnot f hf hne with ⟨w₀, hw₀, hdata₀, hlt⟩ | hnone
      · exact .inl ⟨w₀, (hmem (f, w₀) hflt).2 hw₀, hdata₀, hlt⟩
      · exact .inr (by rw [hvisible _ (Nat.max_lt.2 ⟨htop, hflt⟩)]; exact hnone)
  · unfold isData at hdata
    rw [htype] at hdata
    cases hdata

/-! ## The key under a flashback -/

section

variable (c : FlashbackConfig)

def ChangedSince (k : KeyState) : Prop := ∃ e ∈ k.writes.entries, e.2.isData = true ∧ c.version < e.1

def HasNew (k : KeyState) : Prop := ∃ w, (c.commitTs, w) ∈ k.writes.entries

def Foreign (k : KeyState) : Prop := ∃ lock, k.lock = some lock ∧ lock.ts ≠ c.startTs

/-- **A key before the flashback**: sound, with all timestamps below those of the flashback.  A lock is newer than the
versions that were collected: none of them that a `last_change` still names is at its timestamp. -/
structure BeforeFlashback (k : KeyState) : Prop where
  sound : SoundKey k
  below : ∀ e ∈ k.writes.entries, e.1 < c.startTs ∧ ∀ f, e.2.gcFence = some f → f < c.startTs
  value : k.values.lookup c.startTs = none
  lock : ∀ lock, k.lock = some lock → 0 < lock.ts ∧ lock.ts < c.startTs ∧
    ∀ e ∈ k.writes.entries, e.2.isData = false → ∀ n, e.2.lastChange = .exist lock.ts n →
      ∃ w, (lock.ts, w) ∈ k.writes.entries

/-- **The gc fences that a flashback does not look at make no difference**: the PUT that is newest at the version is not
fenced off there if the key has changed since, and not fenced off by the flashback if it has not. -/
def FencesAgree (k : KeyState) : Prop :=
  ∀ e, latestData k.writes c.version = some e → e.2.writeType = .put →
    (ChangedSince c k → e.2.checkGcFence c.version = true) ∧
    (¬ ChangedSince c k → e.2.checkGcFence c.version = true → e.2.checkGcFence c.commitTs = true)

/-- A record or lock with these stands for the version visible at the flashback version. -/
def Restores (k : KeyState) (writeType : WriteType) (shortValue : Option Bytes) : Prop :=
  match readAt k.writes c.version with
  | none => writeType = .delete ∧ shortValue = none
  | some (_, _, oldValue) => writeType = .put ∧ shortValue = oldValue

/-- The value of that version is at the start timestamp of the flashback, if it is not in the record. -/
def Stashed (k₀ k : KeyState) : Prop :=
  ∀ t s, readAt k₀.writes c.version = some (t, s, none) → k.values.lookup c.startTs = k₀.values.lookup s

structure FlashedBack (k₀ k : KeyState) : Prop where
  sound : SoundKey k
  data : ∀ t, t ≠ c.commitTs →
    ((∃ w, (t, w) ∈ k.writes.entries ∧ w.isData = true) ↔ ∃ w, (t, w) ∈ k₀.writes.entries ∧ w.isData = true)
  bound : ∀ e ∈ k.writes.entries, e.1 ≠ c.commitTs → e.1 < c.startTs
  fence : ∀ e ∈ k.writes.entries, ∀ f, e.2.gcFence = some f → f ≤ c.commitTs
  named : ∀ e ∈ k.writes.entries, e.2.isData = false → ∀ t n, e.2.lastChange = .exist t n →
    ∃ e₀ ∈ k₀.writes.entries, e₀.2.isData = false ∧ e₀.2.lastChange = .exist t n
  old : ChangedSince c k₀ → ∀ e, latestData k.writes c.version = some e → e.2.writeType = .put →
    e.2.checkGcFence c.version = true
  reads : ∀ ts, ts < c.commitTs ∨ ¬ HasNew c k → readAt k.writes ts = readAt k₀.writes ts
  values : ∀ e ∈ k.writes.entries, e.1 ≠ c.commitTs → e.2.writeType = .put → e.2.shortValue = none →
    k.values.lookup e.2.startTs = k₀.values.lookup e.2.startTs
  stash : ∀ value, k.values.lookup c.startTs = some value →
    ∃ t s, readAt k₀.writes c.version = some (t, s, none) ∧ k₀.values.lookup s = some value
  new : ∀ w, (c.commitTs, w) ∈ k.writes.entries → ChangedSince c k₀ ∧ w.startTs = c.startTs ∧ w.gcFence = none ∧
    Restores c k₀ w.writeType w.shortValue ∧ Stashed c k₀ k
  lock : ∀ lock, k.lock = some lock → lock.ts ≠ c.startTs ∧ k₀.lock = some lock ∨
    lock.ts = c.startTs ∧ ChangedSince c k₀ ∧ Stashed c k₀ k ∧
      ∃ writeType, WriteType.fromLockType lock.lockType = some writeType ∧ Restores c k₀ writeType lock.shortValue

end

section

variable {c : FlashbackConfig} {k₀ k : KeyState}

theorem BeforeFlashback.flashedBack (hb : BeforeFlashback c k₀) (hts : c.startTs < c.commitTs) (hagree : FencesAgree c k₀) :
    FlashedBack c k₀ k₀ where
  sound := hb.sound
  data _ _ := Iff.rfl
  bound e he _ := (hb.below e he).1
  fence e he f hf := le_of_lt (((hb.below e he).2 f hf).trans hts)
  named e he hdata t n hlast := ⟨e, he, hdata, hlast⟩
  old hchanged e he hput := (hagree e he hput).1 hchanged
  reads _ _ := rfl
  values _ _ _ _ _ := rfl
  stash value hvalue := by
    rw [hb.value] at hvalue
    cases hvalue
  new w hw := absurd (hb.below _ hw).1 (lt_asymm hts)
  lock lock hlock := .inl ⟨ne_of_lt (hb.lock lock hlock).2.1, hlock⟩

theorem BeforeFlashback.version_lt (hb : BeforeFlashback c k₀) (h : ChangedSince c k₀) : c.version < c.startTs := by
  obtain ⟨e, he, _, hlt⟩ := h
  exact hlt.trans (hb.below e he).1

namespace FlashedBack

section

variable (h : FlashedBack c k₀ k)
include h

theorem startTs_ne (he : e ∈ k.writes.entries) (hne : e.1 ≠ c.commitTs) :
    e.2.startTs ≠ c.startTs :=
  ne_of_lt (lt_of_le_of_lt (h.sound.starts e he) (h.bound e he hne))

theorem setLock {held : Option Lock}
    (hheld : ∀ lock, held = some lock → k.lock = some lock ∨ lock.ts = c.startTs ∧ ChangedSince c k₀ ∧ Stashed c k₀ k ∧
      ∃ writeType, WriteType.fromLockType lock.lockType = some writeType ∧ Restores c k₀ writeType lock.shortValue) :
    FlashedBack c k₀ { k with lock := held } := by
  refine { h with sound := { h.sound with }, lock := fun lock hlock => ?_ }
  rcases hheld lock hlock with hlock | hown
  · exact h.lock lock hlock
  · exact .inr hown

theorem putValue {s : Nat} {value : Bytes}
    (hold : readAt k₀.writes c.version = some (t, s, none)) (hvalue : k₀.values.lookup s = some value) :
    FlashedBack c k₀ (k.modify (.putValue c.startTs value)) ∧ Stashed c k₀ (k.modify (.putValue c.startTs value)) := by
  have hother : ∀ x, x ≠ c.startTs → (k.modify (.putValue c.startTs value)).values.lookup x = k.values.lookup x :=
    fun x hx => Map.lookup_insert.trans (if_neg hx)
  have hown : (k.modify (.putValue c.startTs value)).values.lookup c.startTs = some value :=
    Map.lookup_insert.trans (if_pos rfl)
  have hstashed : Stashed c k₀ (k.modify (.putValue c.startTs value)) := by
    intro t' s' hold'
    rw [hold] at hold'
    cases hold'
    rw [hown, hvalue]
  refine ⟨{ h with
    sound := { h.sound with value := fun e he hput hshort => ?_ }
    values := fun e he hne hput hshort => ?_
    stash := fun value' hvalue' => ?_
    new := fun w hw => ?_
    lock := fun lock hlock => ?_ }, hstashed⟩
  · by_cases hs : e.2.startTs = c.startTs
    · rw [hs]
      exact ⟨value, hown⟩
    rw [hother _ hs]
    exact h.sound.value e he hput hshort
  · rw [hother _ (h.startTs_ne he hne)]
    exact h.values e he hne hput hshort
  · rw [hown] at hvalue'
    cases hvalue'
    exact ⟨t, s, hold, hvalue⟩
  · obtain ⟨hchanged, hstart, hfence, hrestores, _⟩ := h.new w hw
    exact ⟨hchanged, hstart, hfence, hrestores, hstashed⟩
  · rcases h.lock lock hlock with hforeign | ⟨hown, hchanged, _, hrestores⟩
    · exact .inl hforeign
    · exact .inr ⟨hown, hchanged, hstashed, hrestores⟩

end

theorem value_of_restores (hb : BeforeFlashback c k₀) {writeType : WriteType}
    (hrestores : Restores c k₀ writeType none) (hput : writeType = .put) (hstashed : Stashed c k₀ k) :
    ∃ value, k.values.lookup c.startTs = some value := by
  unfold Restores at hrestores
  cases hread : readAt k₀.writes c.version with
  | none =>
    rw [hread] at hrestores
    rw [hrestores.1] at hput
    cases hput
  | some x =>
    obtain ⟨t, s, short⟩ := x
    rw [hread] at hrestores
    obtain ⟨_, rfl⟩ := hrestores
    obtain ⟨e, hvis, heq⟩ := map_eq_some_iff.1 hread
    obtain ⟨hlatest, hput', _⟩ := visible_eq_some.1 hvis
    obtain ⟨value, hvalue⟩ := hb.sound.value e (latestData_eq_some.1 hlatest).1 hput' (congrArg (·.2.2) heq)
    have hs : e.2.startTs = s := congrArg (·.2.1) heq
    exact ⟨value, by rw [hstashed t s hread, ← hs]; exact hvalue⟩

theorem isData_of_restores {shortValue : Option Bytes} (h : Restores c k₀ w.writeType shortValue) :
    w.isData = true := by
  unfold Restores at h
  unfold isData
  split at h <;> rw [h.1] <;> rfl

theorem isData_of_new (h : FlashedBack c k₀ k) (hw : (c.commitTs, w) ∈ k.writes.entries) : w.isData = true :=
  isData_of_restores (h.new w hw).2.2.2.1

theorem restores_delete (hold : readAt k₀.writes c.version = none) : Restores c k₀ .delete none ∧ Stashed c k₀ k := by
  unfold Restores Stashed
  simp [hold]

theorem restores_put {s : Nat} {short : Option Bytes} (hold : readAt k₀.writes c.version = some (t, s, short)) :
    Restores c k₀ .put short := by
  unfold Restores
  simp [hold]

section

variable (hts : c.startTs < c.commitTs) (hb : BeforeFlashback c k₀) (h : FlashedBack c k₀ k)
include hts hb h

theorem putWrite (hchanged : ChangedSince c k₀) (hstart : w.startTs = c.startTs) (hfence : w.gcFence = none)
    (hrestores : Restores c k₀ w.writeType w.shortValue) (hstashed : Stashed c k₀ k) :
    FlashedBack c k₀ (k.modify (.putWrite c.commitTs w)) ∧ HasNew c (k.modify (.putWrite c.commitTs w)) := by
  have hdata := isData_of_restores hrestores
  have hversion : c.version < c.commitTs := (hb.version_lt hchanged).trans hts
  have hall : ∀ {P : Nat × Write → Prop}, P (c.commitTs, w) → (∀ e ∈ k.writes.entries, e.1 ≠ c.commitTs → P e) →
      ∀ e ∈ (k.modify (.putWrite c.commitTs w)).writes.entries, P e := Chain.forall_mem_insert
  have hnew : (c.commitTs, w) ∈ (k.modify (.putWrite c.commitTs w)).writes.entries := Chain.mem_insert.2 (.inl rfl)
  have hbound : ∀ e ∈ k.writes.entries, e.1 ≤ c.commitTs := by
    intro e he
    by_cases hne : e.1 = c.commitTs
    · exact le_of_eq hne
    · exact le_of_lt ((h.bound e he hne).trans hts)
  refine ⟨⟨?_, fun t ht => ?_, hall (absurd rfl) fun e hold _ => h.bound e hold,
    hall (fun f hf => nomatch hfence.symm.trans hf) fun e hold _ => h.fence e hold,
    hall (fun hnot => nomatch hdata.symm.trans hnot) fun e hold _ => h.named e hold, fun _ e he hput => ?_,
    fun ts hcase => ?_, hall (absurd rfl) fun e hold _ => h.values e hold, h.stash, fun w' hw' => ?_, h.lock⟩, w, hnew⟩
  · refine h.sound.insert_top (fun e he => ⟨hbound e he, h.fence e he⟩) (Nat.zero_lt_of_lt hts) hdata ?_ hfence rfl
      (fun hput hshort => ?_) fun e _ _ => rfl
    · rw [hstart]
      exact le_of_lt hts
    · rw [hstart]
      rw [hshort] at hrestores
      exact value_of_restores hb hrestores hput hstashed
  · rw [← h.data t ht]
    constructor
    · rintro ⟨w', hw', hdata'⟩
      rcases Chain.mem_insert.1 hw' with heq | ⟨hold, _⟩
      · exact absurd (congrArg Prod.fst heq) ht
      · exact ⟨w', hold, hdata'⟩
    · rintro ⟨w', hw', hdata'⟩
      exact ⟨w', Chain.mem_insert.2 (.inr ⟨hw', ht⟩), hdata'⟩
  · refine h.old hchanged e ?_ hput
    rw [← he]
    exact (latestData_insert_of_lt hversion).symm
  · rcases hcase with hlt | hno
    · rw [← h.reads ts (.inl hlt)]
      exact congrArg _ (visible_insert_of_lt hlt)
    · exact absurd ⟨w, hnew⟩ hno
  · rcases Chain.mem_insert.1 hw' with heq | ⟨_, hne⟩
    · cases heq
      exact ⟨hchanged, hstart, hfence, hrestores, hstashed⟩
    · exact absurd rfl hne

/-! ### Rolling back -/

variable {ms : List Modify} {key : Bytes}

omit hts hb h in
theorem mem_undone_of_lt {v v' : Versions} {startTs t : Nat} (hundone : Undone v v' startTs) (hlt : startTs < t) :
    (t, w) ∈ v'.entries ↔ (t, w) ∈ v.entries := by
  constructor
  · intro hw
    rcases hundone.sub _ hw with hmem | ⟨heq, _⟩
    · exact hmem
    · exact absurd heq.symm (ne_of_lt hlt)
  · intro hw
    rcases hundone.keep _ hw with hmem | ⟨_, _, hlt'⟩ | ⟨heq, _⟩
    · exact hmem
    · exact absurd hlt (lt_asymm hlt')
    · exact absurd heq.symm (ne_of_lt hlt)

section

variable {lock : Lock} (hlock : k₀.lock = some lock)

omit hb in
theorem fence_undone {v' : Versions} (hundone : Undone k.writes v' lock.ts) :
    ∀ e ∈ v'.entries, ∀ f, e.2.gcFence = some f → f ≤ c.commitTs := by
  intro e he f hf
  rcases hundone.sub e he with hmem | ⟨_, ⟨_, hnew⟩ | ⟨_, _, hmarks⟩⟩
  · exact h.fence e hmem f hf
  · rw [hnew] at hf
    cases hf
  rw [hmarks.eq] at hf
  cases hf
  rcases hmarks.fence with hzero | ⟨_, w', hw', _⟩
  · rw [hzero]
    exact Nat.zero_le _
  by_cases htop : f = c.commitTs
  · exact le_of_eq htop
  · exact le_of_lt ((h.bound _ hw' htop).trans hts)

include hlock

theorem undone {k' : KeyState} (hnone : k'.lock = none) (hundone : Undone k.writes k'.writes lock.ts)
    (hstarts : ∀ e ∈ k.writes.entries, e.2.startTs ≠ lock.ts)
    (hvalues : ∀ s, s ≠ lock.ts → k'.values.lookup s = k.values.lookup s) : FlashedBack c k₀ k' := by
  obtain ⟨hpos, hlt, hnamed⟩ := hb.lock lock hlock
  have hne : lock.ts ≠ c.commitTs := ne_of_lt (hlt.trans hts)
  have hnew : ∀ w, (c.commitTs, w) ∈ k'.writes.entries ↔ (c.commitTs, w) ∈ k.writes.entries := fun _ =>
    mem_undone_of_lt hundone (hlt.trans hts)
  obtain ⟨hto, hfrom⟩ := hundone.carriesReads h.sound.fences
  have hown : k'.values.lookup c.startTs = k.values.lookup c.startTs := hvalues _ (ne_of_gt hlt)
  refine ⟨?_, fun t ht => ?_, fun e he hnew' => ?_, fence_undone hts h hundone, fun e he hnot t n hlast => ?_,
    fun hchanged e he hput => ?_, fun ts hcase => ?_, fun e he hnew' hput hshort => ?_, fun value hvalue => ?_,
    fun w hw => ?_, fun lock' hlock' => nomatch hnone.symm.trans hlock'⟩
  · refine h.sound.undone hundone hpos (fun e he hnot n hlast => ?_) hstarts hvalues
    -- the version named is one of the key before the flashback
    obtain ⟨e₀, he₀, hnot₀, hlast₀⟩ := h.named e he hnot lock.ts n hlast
    obtain ⟨w, hw⟩ := hnamed e₀ he₀ hnot₀ n hlast₀
    obtain ⟨_, ⟨w', hw', hdata', _⟩ | ⟨hmissing, _⟩⟩ := hb.sound.exist e₀ he₀ hnot₀ lock.ts n hlast₀
    · exact (h.data lock.ts hne).2 ⟨w', hw', hdata'⟩
    · exact absurd hw (hmissing w)
  · rw [← h.data t ht]
    exact ⟨hfrom.isData, hto.isData⟩
  · rcases hundone.sub e he with hmem | ⟨heq, _⟩
    · exact h.bound e hmem hnew'
    rw [heq]
    exact hlt
  · obtain ⟨w, hw, hwnot, hsame⟩ := hundone.lastChange he hnot (by rw [hlast]; nofun)
    exact h.named (e.1, w) hw hwnot t n (hsame.trans hlast)
  · obtain ⟨w, hlatest, htype, -⟩ := hfrom.latestData hto he
    obtain ⟨w', hlatest', -, -, -, hfence⟩ := hto.latestData hfrom hlatest
    obtain rfl : e.2 = w' := congrArg Prod.snd (some.inj (he.symm.trans hlatest'))
    exact hfence (h.old hchanged _ hlatest (htype.trans hput))
  · rw [readAt_congr hto hfrom]
    refine h.reads ts (hcase.imp_right fun hno ⟨w, hw⟩ => hno ⟨w, (hnew w).2 hw⟩)
  · obtain ⟨w, hw, htype, hstart, hshort', _⟩ := hfrom e.1 e.2 he (isData_of_put hput)
    rw [← hstart, hvalues _ (hstarts _ hw)]
    exact h.values (e.1, w) hw hnew' (htype.trans hput) (hshort'.trans hshort)
  · rw [hown] at hvalue
    exact h.stash value hvalue
  · obtain ⟨hchanged, hstart, hfence, hrestores, hstashed⟩ := h.new w ((hnew w).1 hw)
    exact ⟨hchanged, hstart, hfence, hrestores, fun t s hold => hown.trans (hstashed t s hold)⟩

theorem rollbackLock_spec (hms : rollbackLock key k.writes lock true = .ok ms) :
    FlashedBack c k₀ (k.apply ms) ∧ (k.apply ms).lock = none ∧ (HasNew c (k.apply ms) ↔ HasNew c k) := by
  obtain ⟨-, hlt, -⟩ := hb.lock lock hlock
  obtain ⟨hnone, ⟨_, hwrites, hvalues⟩ | ⟨protect, overlapped, write, hrec, hmake, _, hroll, hvalues⟩⟩ :=
    rollbackLock_inv h.sound.rollbacks hms
  · generalize k.apply ms = k' at hnone hwrites hvalues ⊢
    obtain ⟨held, writes, values⟩ := k'
    obtain rfl : held = none := hnone
    obtain rfl : writes = k.writes := hwrites
    obtain rfl : values = k.values := hvalues
    exact ⟨h.setLock (nofun), rfl, Iff.rfl⟩
  · have hundone := hroll.undone hrec hmake
    have hstarts : ∀ e ∈ k.writes.entries, e.2.startTs ≠ lock.ts := fun e he heq =>
      startTs_ne_of_le hrec e he (heq ▸ h.sound.starts e he) heq
    exact ⟨undone hts hb h hlock hnone hundone hstarts hvalues, hnone,
      exists_congr fun _ => mem_undone_of_lt hundone (hlt.trans hts)⟩

end

/-! ### Writing, prewriting, committing -/

theorem getWrite_spec (hchanged : ChangedSince c k₀) : ∃ old, getWrite k.writes c.version = .ok old ∧
      match old with
      | none => readAt k₀.writes c.version = none
      | some w => w.writeType = .put ∧ ∃ t, readAt k₀.writes c.version = some (t, w.startTs, w.shortValue) ∧
          (w.shortValue = none → k.values.lookup w.startTs = k₀.values.lookup w.startTs) := by
  have hversion : c.version < c.commitTs := (hb.version_lt hchanged).trans hts
  have hreads := h.reads c.version (.inl hversion)
  refine ⟨_, getWrite_eq (h.sound.consistentAt _) (h.old hchanged), ?_⟩
  cases hvis : visible k.writes c.version with
  | none => exact hreads.symm.trans (readAt_eq_none.2 hvis)
  | some e =>
    obtain ⟨hlatest, hput, _⟩ := visible_eq_some.1 hvis
    obtain ⟨hmem, hle, _⟩ := latestData_eq_some.1 hlatest
    refine ⟨hput, e.1, ?_, h.values e hmem (ne_of_lt (hle.trans_lt hversion)) hput⟩
    rw [← hreads]
    unfold readAt
    rw [hvis]
    rfl

omit hts hb in
theorem oldValue_spec {w : Write} (hput : w.writeType = .put)
    (hread : readAt k₀.writes c.version = some (t, w.startTs, w.shortValue))
    (hvalue : w.shortValue = none → k.values.lookup w.startTs = k₀.values.lookup w.startTs)
    (hms : oldValue c k w = .ok ms) :
    FlashedBack c k₀ (k.apply ms) ∧ Stashed c k₀ (k.apply ms) ∧ (k.apply ms).lock = k.lock ∧
      (k.apply ms).writes = k.writes := by
  unfold oldValue at hms
  by_cases hshort : w.shortValue = none
  · rw [if_pos ⟨hput, hshort⟩] at hms
    unfold loadData at hms
    rw [hshort] at hms hread
    cases hlook : k.values.lookup w.startTs with
    | none =>
      rw [hlook] at hms
      cases hms
    | some value =>
      rw [hlook] at hms
      cases hms
      obtain ⟨hflash, hstashed⟩ := h.putValue hread ((hvalue hshort).symm.trans hlook)
      exact ⟨hflash, hstashed, rfl, rfl⟩
  · rw [if_neg fun hcase => hshort hcase.2] at hms
    cases hms
    refine ⟨h, fun t' s' hread' => ?_, rfl, rfl⟩
    rw [hread] at hread'
    exact absurd (congrArg (·.2.2) (some.inj hread')) hshort

theorem writeKey_spec (hchanged : ChangedSince c k₀) (hms : flashbackToVersionWriteKey c k = .ok ms) :
    FlashedBack c k₀ (k.apply ms) ∧ HasNew c (k.apply ms) ∧ (k.apply ms).lock = k.lock := by
  obtain ⟨old, hget, hold⟩ := h.getWrite_spec hts hb hchanged
  unfold flashbackToVersionWriteKey at hms
  rw [hget] at hms
  cases old with
  | none =>
    cases hms
    obtain ⟨hrestores, hstashed⟩ := restores_delete hold
    obtain ⟨hflash, hnew⟩ := h.putWrite hts hb hchanged (w := Write.new .delete c.startTs none) rfl rfl hrestores hstashed
    exact ⟨hflash, hnew, rfl⟩
  | some w =>
    obtain ⟨hput, t, hread, hvalue⟩ := hold
    obtain ⟨ms', hval, rfl⟩ := map_ok hms
    obtain ⟨hflash, hstashed, hlock, _⟩ := h.oldValue_spec hput hread hvalue hval
    have hrestores : Restores c k₀ w.writeType w.shortValue := hput ▸ restores_put hread
    obtain ⟨hflash', hnew⟩ :=
      hflash.putWrite hts hb hchanged (w := Write.new w.writeType c.startTs w.shortValue) rfl rfl hrestores hstashed
    rw [KeyState.apply_append]
    exact ⟨hflash', hnew, hlock⟩

theorem prewriteKey_spec (hchanged : ChangedSince c k₀) (hms : prewriteFlashbackKey c key k = .ok ms) :
    FlashedBack c k₀ (k.apply ms) ∧ (k.apply ms).writes = k.writes ∧
      (Foreign c (k.apply ms) → Foreign c k) := by
  obtain ⟨old, hget, hold⟩ := h.getWrite_spec hts hb hchanged
  unfold prewriteFlashbackKey at hms
  cases hlock : k.lock with
  | some lock =>
    rw [hlock] at hms
    cases hms
    exact ⟨h, rfl, id⟩
  | none =>
    rw [hlock, hget] at hms
    cases old with
    | none =>
      cases hms
      refine ⟨h.setLock fun lock hheld => .inr ?_, rfl, fun ⟨lock, hheld, hne⟩ => ?_⟩
      · cases hheld
        obtain ⟨hrestores, hstashed⟩ := restores_delete hold
        exact ⟨rfl, hchanged, hstashed, .delete, rfl, hrestores⟩
      · cases hheld
        exact absurd rfl hne
    | some w =>
      obtain ⟨hput, t, hread, hvalue⟩ := hold
      have htype : (flashbackLock c key (some w)).lockType = .put := by simp [flashbackLock, Lock.new, hput]
      -- the value is put now, or was put before
      obtain ⟨ms', rfl, hflash, hstashed, hwrites⟩ : ∃ ms', ms = ms' ++ [.putLock (flashbackLock c key (some w))] ∧
          FlashedBack c k₀ (k.apply ms') ∧ Stashed c k₀ (k.apply ms') ∧ (k.apply ms').writes = k.writes := by
        dsimp only at hms
        split at hms
        · obtain ⟨ms', hval, rfl⟩ := map_ok hms
          obtain ⟨hflash, hstashed, _, hwrites⟩ := h.oldValue_spec hput hread hvalue hval
          exact ⟨ms', rfl, hflash, hstashed, hwrites⟩
        · rename_i hsome
          cases hms
          obtain ⟨value, hstash⟩ := ne_none_iff_exists'.1 hsome
          obtain ⟨t', s', hread', hvalue'⟩ := h.stash value hstash
          refine ⟨[], rfl, h, fun t'' s'' hread'' => ?_, rfl⟩
          rw [hread'] at hread''
          cases hread''
          exact hstash.trans hvalue'.symm
      rw [KeyState.apply_append]
      refine ⟨hflash.setLock fun lock hheld => .inr ?_, hwrites, fun ⟨lock, hheld, hne⟩ => ?_⟩
      · cases hheld
        exact ⟨rfl, hchanged, hstashed, .put, by rw [htype]; rfl, restores_put hread⟩
      · cases hheld
        exact absurd rfl hne

theorem commitKey_spec (hown : ¬ Foreign c k) (hms : commitFlashbackKey c k = .ok ms) :
    FlashedBack c k₀ (k.apply ms) ∧ HasNew c (k.apply ms) ∧ (k.apply ms).lock = none := by
  unfold commitFlashbackKey at hms
  cases hlock : k.lock with
  | none =>
    rw [hlock] at hms
    cases hms
  | some lock =>
    rcases h.lock lock hlock with ⟨hne, _⟩ | ⟨_, hchanged, hstashed, writeType, htype, hrestores⟩
    · exact absurd ⟨lock, hlock, hne⟩ hown
    rw [hlock] at hms
    dsimp only at hms
    rw [htype] at hms
    cases hms
    obtain ⟨hflash, hnew⟩ := h.putWrite hts hb hchanged
      (w := { Write.new writeType c.startTs lock.shortValue with
        lastChange := lock.lastChange, txnSource := lock.txnSource }) rfl rfl hrestores hstashed
    exact ⟨hflash.setLock (nofun), hnew, rfl⟩

end

end FlashedBack

end

/-! ## Reading after the flashback -/

def siAt (ts : Nat) : ReadConfig := ⟨ts, .si, false, [], []⟩

theorem readVisible_eq_readAt (dflt : Nat → Option Bytes) : readVisible (siAt ts) v dflt =
      (readAt v ts).elim (.ok none) fun x => (loadValue (siAt ts) dflt x.2.2 x.2.1).map some := by
  have hts : (siAt ts).ts = ts := rfl
  unfold readVisible readAt
  rw [hts]
  cases visible v ts <;> rfl

theorem loadValue_none (values : Map Nat Bytes) (startTs : Nat) :
    loadValue (siAt ts) values.lookup none startTs = match values.lookup startTs with
      | some v => .ok v
      | none => .error .defaultNotFound := rfl

section

variable {c : FlashbackConfig} {k₀ k : KeyState}

theorem BeforeFlashback.readAt_eq (hb : BeforeFlashback c k₀) (hts : c.startTs < c.commitTs) (hagree : FencesAgree c k₀)
    (hsame : ¬ ChangedSince c k₀) : readAt k₀.writes c.commitTs = readAt k₀.writes c.version := by
  have hlatest : latestData k₀.writes c.commitTs = latestData k₀.writes c.version := by
    refine latestData_congr fun e hdata => and_congr_right fun he => ?_
    refine iff_of_true (le_of_lt ((hb.below e he).1.trans hts)) (not_lt.1 fun hlt => ?_)
    exact hsame ⟨e, he, hdata, hlt⟩
  unfold readAt visible
  rw [hlatest]
  cases hx : latestData k₀.writes c.version with
  | none => rfl
  | some e =>
    by_cases hput : e.2.writeType = .put
    · have hfence : e.2.checkGcFence c.commitTs = e.2.checkGcFence c.version := by
        refine Bool.eq_iff_iff.2 ⟨fun hcommit => Bool.of_not_eq_false fun hversion => ?_, (hagree e hx hput).2 hsame⟩
        -- a fence that the commit timestamp is not past is zero, if there is one
        obtain ⟨f, hf, hne, _⟩ := checkGcFence_eq_false.1 hversion
        have hle := le_of_lt (((hb.below e (latestData_eq_some.1 hx).1).2 f hf).trans hts)
        cases hcommit.symm.trans (checkGcFence_eq_false.2 ⟨f, hf, hne, hle⟩)
      simp [Option.filter, hfence]
    · simp [Option.filter, hput]

theorem readVisible_of_ok (hk : Consistent k) {newer : NewerTsCheckState} {key : Bytes} {r : Option Bytes}
    (hr : (pointGet (siAt ts) newer key k).1 = .ok r) : readVisible (siAt ts) k.writes k.values.lookup = .ok r := by
  have hiso : (siAt ts).isolationLevel ≠ .rcCheckTs := show IsolationLevel.si ≠ .rcCheckTs by decide
  rw [pointGet_eq_readKey hk hiso] at hr
  unfold readKey at hr
  cases hlock : lockRead (siAt ts) key k with
  | none =>
    rw [hlock] at hr
    exact hr
  | some res =>
    rw [hlock] at hr
    obtain ⟨lock, _, hread⟩ := bind_eq_some_iff.1 hlock
    unfold readLock at hread
    split at hread
    · cases hread
    cases hread
    cases hr

theorem FlashedBack.pointGet_eq (h : FlashedBack c k₀ k) (hb : BeforeFlashback c k₀) (hts : c.startTs < c.commitTs)
    (hagree : FencesAgree c k₀) (hlock : k.lock = none) (hdone : ChangedSince c k₀ → HasNew c k)
    (newer : NewerTsCheckState) (key : Bytes) :
    (pointGet (siAt c.commitTs) newer key k).1 = readVisible (siAt c.version) k₀.writes k₀.values.lookup := by
  have hread : readKey (siAt c.commitTs) key k = readVisible (siAt c.commitTs) k.writes k.values.lookup := by
    unfold readKey lockRead heldLock
    rw [hlock]
    rfl
  have hiso : (siAt c.commitTs).isolationLevel ≠ .rcCheckTs := show IsolationLevel.si ≠ .rcCheckTs by decide
  rw [pointGet_eq_readKey h.sound.toConsistent hiso, hread, readVisible_eq_readAt, readVisible_eq_readAt]
  by_cases hchanged : ChangedSince c k₀
  · obtain ⟨w, hw⟩ := hdone hchanged
    obtain ⟨_, hstart, hfence, hrestores, hstashed⟩ := h.new w hw
    have hlatest : latestData k.writes c.commitTs = some (c.commitTs, w) :=
      latestData_eq_some.2 ⟨hw, le_rfl, h.isData_of_new hw, fun e _ hle _ => hle⟩
    unfold Restores at hrestores
    cases hold : readAt k₀.writes c.version with
    | none =>
      rw [hold] at hrestores
      rw [readAt_eq_none.2 (visible_of_latestDelete hlatest hrestores.1)]
      rfl
    | some x =>
      obtain ⟨t, s, short⟩ := x
      rw [hold] at hrestores
      obtain ⟨hput, hshort⟩ := hrestores
      have hpass : w.checkGcFence c.commitTs = true := by
        unfold checkGcFence
        rw [hfence]
      have hnew : readAt k.writes c.commitTs = some (c.commitTs, c.startTs, short) := by
        unfold readAt
        rw [visible_of_latestPut hlatest hput hpass, map_some, hstart, hshort]
      rw [hnew]
      dsimp only [Option.elim]
      cases short with
      | some value => rfl
      | none =>
        rw [loadValue_none, loadValue_none, hstashed t s hold]
  · have hno : ¬ HasNew c k := fun ⟨w, hw⟩ => hchanged (h.new w hw).1
    rw [h.reads _ (.inr hno), hb.readAt_eq hts hagree hchanged]
    cases hold : readAt k₀.writes c.version with
    | none => rfl
    | some x =>
      obtain ⟨t, s, short⟩ := x
      dsimp only [Option.elim]
      cases short with
      | some value => rfl
      | none =>
        -- the value of the version is where it was
        have hsame : readAt k.writes c.commitTs = some (t, s, none) := by
          rw [h.reads _ (.inr hno), hb.readAt_eq hts hagree hchanged, hold]
        obtain ⟨e, hvis, heq⟩ := map_eq_some_iff.1 hsame
        obtain ⟨hlatest, hput, _⟩ := visible_eq_some.1 hvis
        have hmem := (latestData_eq_some.1 hlatest).1
        have hne : e.1 ≠ c.commitTs := fun htop => hno ⟨e.2, htop ▸ hmem⟩
        have hvalue := h.values e hmem hne hput (congrArg (·.2.2) heq)
        have hs : e.2.startTs = s := congrArg (·.2.1) heq
        rw [hs] at hvalue
        rw [loadValue_none, loadValue_none, hvalue]

end

end Mvcc
end Tikv
