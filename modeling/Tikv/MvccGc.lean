import Tikv.MvccRead
/-!
# MvccGc — what garbage collection may delete, and `actions::gc`

Below a safe point only the newest PUT or DELETE of a key counts, and a DELETE only as long as something older is left.
`Collected p` says that no more than that has been deleted of a key.  Reads at or above `p` are then as before
(`Collected.pointGet_eq`), though what is left below need not be consistent for earlier ones.  `actions::gc` walks down the
versions and deletes what it may (`deletes_gc`); it stops where its transaction has grown large and is called again.
-/
namespace Tikv
namespace Mvcc

open Lib List Write

/-! ## What may be deleted -/

/-- A newer PUT or DELETE at or below `p` hides the record from reads at or above `p`. -/
def Covered (l : List (Nat × Write)) (p : Nat) (e : Nat × Write) : Prop :=
  ∃ d ∈ l, d.2.isData = true ∧ e.1 < d.1 ∧ d.1 ≤ p

def Write.inDefault (w : Write) : Bool := w.writeType = .put && w.shortValue = none

/-- **`k'` is what is left of `k` after garbage was collected up to `p`.**  If `exact` holds, only values of PUTs that are
gone are deleted. -/
structure Collected (p : Nat) (exact : Prop) (k k' : KeyState) : Prop where
  lock : k'.lock = k.lock
  sub : ∀ e ∈ k'.writes.entries, e ∈ k.writes.entries
  newer : ∀ e ∈ k.writes.entries, p < e.1 → e ∈ k'.writes.entries
  latest : ∀ d, latestData k.writes p = some d → d ∈ k'.writes.entries ∨
    d.2.writeType = .delete ∧ ∀ e ∈ k'.writes.entries, d.1 < e.1
  values : ∀ startTs, k'.values.lookup startTs ≠ k.values.lookup startTs →
    ∃ e ∈ k.writes.entries, e.2.inDefault = true ∧ e.2.startTs = startTs ∧ Covered k.writes.entries p e ∧
      (exact → e ∉ k'.writes.entries)

structure StartsOnce (k : KeyState) : Prop where
  record : ∀ e ∈ k.writes.entries, ∀ e' ∈ k.writes.entries, e.2.writeType = .put → e'.2.writeType = .put →
    e.2.startTs = e'.2.startTs → e = e'
  lock : ∀ lock, k.lock = some lock → lock.lockType = .put →
    ∀ e ∈ k.writes.entries, e.2.writeType = .put → e.2.startTs ≠ lock.ts

theorem Write.inDefault_iff {w : Write} : w.inDefault = true ↔ w.writeType = .put ∧ w.shortValue = none := by
  simp [inDefault]

variable {l : List (Nat × Write)} {e : Nat × Write} {p p' : Nat}

theorem Covered.mono {l' : List (Nat × Write)} (h : Covered l p e) (hl : l ⊆ l') (hp : p ≤ p') : Covered l' p' e := by
  obtain ⟨d, hd, hdata, hlt, hle⟩ := h
  exact ⟨d, hl hd, hdata, hlt, hle.trans hp⟩

theorem exists_put_mono {l' : List (Nat × Write)} {exact : Prop} {s : Nat} {P Q : Nat × Write → Prop} (hl : l ⊆ l')
    (hp : p ≤ p') (hPQ : ∀ e, P e → Q e)
    (h : ∃ e ∈ l, e.2.inDefault = true ∧ e.2.startTs = s ∧ Covered l p e ∧ (exact → P e)) :
    ∃ e ∈ l', e.2.inDefault = true ∧ e.2.startTs = s ∧ Covered l' p' e ∧ (exact → Q e) := by
  obtain ⟨e, he, hdef, hstart, hcov, hexact⟩ := h
  exact ⟨e, hl he, hdef, hstart, hcov.mono hl hp, fun hex => hPQ e (hexact hex)⟩

namespace Collected

variable {p : Nat} {exact : Prop} {k k' k'' : KeyState} {x : Nat × Write}

theorem refl (p : Nat) (exact : Prop) (k : KeyState) : Collected p exact k k where
  lock := rfl
  sub _ he := he
  newer _ he _ := he
  latest _ hd := .inl (latestData_eq_some.1 hd).1
  values _ h := absurd rfl h

theorem newestWrite_eq_some {v : Versions} :
    newestWrite v = some x ↔ x ∈ v.entries ∧ ∀ e ∈ v.entries, e.1 ≤ x.1 := by
  have hfind : newestWrite v = v.find fun _ => true := by
    unfold newestWrite Chain.find
    cases v.entries <;> rfl
  rw [hfind, Chain.find_eq_some]
  simp

section

variable (h : Collected p exact k k') (hk : Consistent k) (hs : StartsOnce k)
include h

theorem trans (h' : Collected p exact k' k'') : Collected p exact k k'' where
  lock := h'.lock.trans h.lock
  sub e he := h.sub e (h'.sub e he)
  newer e he hlt := h'.newer e (h.newer e he hlt) hlt
  latest d hd := by
    obtain ⟨_, hle, hdata, hmax⟩ := latestData_eq_some.1 hd
    rcases h.latest d hd with hmem | ⟨hdel, hgone⟩
    · exact h'.latest d (latestData_eq_some.2 ⟨hmem, hle, hdata, fun e he => hmax e (h.sub e he)⟩)
    · exact .inr ⟨hdel, fun e he => hgone e (h'.sub e he)⟩
  values startTs hne := by
    by_cases hfirst : k'.values.lookup startTs = k.values.lookup startTs
    · exact exists_put_mono h.sub le_rfl (fun _ => id) (h'.values startTs (hfirst ▸ hne))
    · exact exists_put_mono (Subset.refl _) le_rfl (fun e => mt (h'.sub e)) (h.values startTs hfirst)

/-! ## Reads at or above the safe point -/

omit h in
theorem eq_of_latestData {v : Versions} {d : Nat × Write} (hd : latestData v p = some d) (he : e ∈ v.entries)
    (hdata : e.2.isData = true) (hle : e.1 ≤ p) (hde : d.1 ≤ e.1) : e = d := by
  obtain ⟨hmem, _, _, hmax⟩ := latestData_eq_some.1 hd
  have hts : e.1 = d.1 := le_antisymm (hmax e he hle hdata) hde
  have hmem' : (e.1, d.2) ∈ v.entries := hts ▸ hmem
  exact Prod.ext hts (Chain.eq_of_mem (v := e.2) he hmem')

variable {ts : Nat}

theorem visible_eq (hts : ∀ d, latestData k.writes p = some d → d.1 ≤ ts) :
    visible k'.writes ts = visible k.writes ts := by
  cases hx : latestData k.writes ts with
  | none =>
    have hx' : latestData k'.writes ts = none :=
      latestData_eq_none.2 fun e he => latestData_eq_none.1 hx e (h.sub e he)
    unfold visible
    rw [hx, hx']
  | some x =>
    obtain ⟨hmem, hle, hdata, hmax⟩ := latestData_eq_some.1 hx
    have hkept : x ∈ k'.writes.entries → visible k'.writes ts = visible k.writes ts := by
      intro hmem'
      have hx' : latestData k'.writes ts = some x :=
        latestData_eq_some.2 ⟨hmem', hle, hdata, fun e he => hmax e (h.sub e he)⟩
      unfold visible
      rw [hx, hx']
    by_cases hp : p < x.1
    · exact hkept (h.newer x hmem hp)
    -- `x` is the newest PUT or DELETE at or below `p`
    obtain ⟨d, hd, -⟩ := exists_latestData hmem (not_lt.1 hp) hdata
    obtain ⟨hdmem, hdp, hddata, _⟩ := latestData_eq_some.1 hd
    have hxd : x = d := eq_of_latestData hd hmem hdata (not_lt.1 hp) (hmax d hdmem (hts d hd) hddata)
    rcases h.latest d hd with hmem' | ⟨hdel, hgone⟩
    · exact hkept (hxd ▸ hmem')
    have hx' : latestData k'.writes ts = none := by
      refine latestData_eq_none.2 fun e he hets => Bool.eq_false_iff.2 fun hedata => ?_
      have h₁ := hmax e (h.sub e he) hets hedata
      have h₂ := hgone e he
      rw [hxd] at h₁
      omega
    unfold visible
    rw [hx, hx', hxd, Option.filter_some, hdel]
    rfl

theorem latest_lt (hp : p ≤ ts) (he : e ∈ k'.writes.entries)
    (hno : ∀ e' ∈ k'.writes.entries, e'.1 ≤ ts → e'.2.isData = true → e'.1 < e.1) {d : Nat × Write}
    (hd : latestData k.writes p = some d) : d.1 < e.1 := by
  obtain ⟨_, hle, hdata, _⟩ := latestData_eq_some.1 hd
  rcases h.latest d hd with hmem | ⟨_, hgone⟩
  · exact hno d hmem (hle.trans hp) hdata
  · exact hgone e he

include hk in
theorem consistentAt (hp : p ≤ ts) : ConsistentAt k'.writes ts := by
  intro e he hdata hets hno
  have hlt := fun d hd => h.latest_lt hp he hno (d := d) hd
  have hvis : ∀ t, e.1 ≤ t → visible k'.writes t = visible k.writes t := fun t ht =>
    h.visible_eq fun d hd => (le_of_lt (hlt d hd)).trans ht
  have hrec := hk.record (h.sub e he) hdata
  -- a PUT or DELETE above the record was not deleted
  have habove : ∀ x ∈ k.writes.entries, x.2.isData = true → e.1 < x.1 → x ∈ k'.writes.entries := by
    intro x hx hxdata hex
    refine h.newer x hx (not_le.1 fun hxp => ?_)
    obtain ⟨d, hd, h₁⟩ := exists_latestData hx hxp hxdata
    have h₂ := hlt d hd
    omega
  refine ⟨fun t n hlast => ?_, fun hlast => (hvis e.1 le_rfl).trans (hrec.notExist hlast), fun f hf hf0 => ?_⟩
  · obtain ⟨hte, hcase⟩ := hrec.exist t n hlast
    refine ⟨hte, ?_⟩
    rcases hcase with ⟨w, hw, hwdata, hmax⟩ | ⟨hmissing, hnone⟩
    · by_cases hkept : (t, w) ∈ k'.writes.entries
      · exact .inl ⟨w, hkept, hwdata, fun e' he' => hmax e' (h.sub e' he')⟩
      -- the version it names is the newest at or below `p`, a DELETE under which nothing is left
      have htp : t ≤ p := not_lt.1 fun hpt => hkept (h.newer _ hw hpt)
      obtain ⟨d, hd, -⟩ := exists_latestData hw htp hwdata
      obtain ⟨hdmem, _, hddata, _⟩ := latestData_eq_some.1 hd
      have htd : (t, w) = d := eq_of_latestData hd hw hwdata htp (hmax d hdmem (hlt d hd) hddata)
      obtain ⟨_, hgone⟩ := (h.latest d hd).resolve_left fun hmem => hkept (htd ▸ hmem)
      rw [← htd] at hgone
      refine .inr ⟨fun w' hw' => lt_irrefl t (hgone (t, w') hw'), fun e' he' hlt' => Bool.eq_false_iff.2 fun hdata' => ?_⟩
      exact absurd (hgone e' he') (not_lt.2 (hmax e' (h.sub e' he') hlt' hdata'))
    · exact .inr ⟨fun w hw => hmissing w (h.sub _ hw), fun e' he' => hnone e' (h.sub e' he')⟩
  · rcases hrec.gcFence f hf hf0 with ⟨w, hw, hwdata, hef⟩ | hnone
    · exact .inl ⟨w, habove (f, w) hw hwdata hef, hwdata, hef⟩
    · exact .inr ((hvis _ (le_max_left _ _)).trans hnone)

include hs

theorem lookup_visible (hp : p ≤ ts) (hx : visible k.writes ts = some x) :
    k'.values.lookup x.2.startTs = k.values.lookup x.2.startTs := by
  by_contra hne
  obtain ⟨hlatest, hput, -⟩ := visible_eq_some.1 hx
  obtain ⟨hmem, _, _, hmax⟩ := latestData_eq_some.1 hlatest
  obtain ⟨e, he, hdef, hstart, ⟨d, hd, hdata, hlt, hdp⟩, -⟩ := h.values _ hne
  have heq := hs.record e he x hmem (inDefault_iff.1 hdef).1 hput hstart
  have := hmax d hd (hdp.trans hp) hdata
  rw [heq] at hlt
  omega

theorem readLock_eq (cfg : ReadConfig) (key : Bytes) {lock : Lock} (hlock : k.lock = some lock) :
    readLock cfg key k'.values.lookup lock = readLock cfg key k.values.lookup lock := by
  have hload : loadDataByLock cfg k'.values.lookup lock = loadDataByLock cfg k.values.lookup lock := by
    unfold loadDataByLock
    cases htype : lock.lockType with
    | put =>
      have hvalue : k'.values.lookup lock.ts = k.values.lookup lock.ts := by
        by_contra hne
        obtain ⟨e, he, hdef, hstart, -⟩ := h.values _ hne
        exact hs.lock lock hlock htype e he (inDefault_iff.1 hdef).1 hstart
      unfold loadValue
      dsimp only
      rw [hvalue]
    | delete | lock | pessimistic => rfl
  unfold readLock
  rw [hload]

theorem lookup_of_mem (hexact : exact) (he : e ∈ k'.writes.entries) (hdef : e.2.inDefault = true) :
    k'.values.lookup e.2.startTs = k.values.lookup e.2.startTs := by
  by_contra hne
  obtain ⟨x, hx, hxdef, hstart, -, hgone⟩ := h.values _ hne
  have heq := hs.record x hx e (h.sub e he) (inDefault_iff.1 hxdef).1 (inDefault_iff.1 hdef).1 hstart
  exact hgone hexact (heq ▸ he)

variable {cfg : ReadConfig} (hp : p ≤ cfg.ts)
include hp

theorem readVisible_eq : readVisible cfg k'.writes k'.values.lookup = readVisible cfg k.writes k.values.lookup := by
  have hvis : visible k'.writes cfg.ts = visible k.writes cfg.ts :=
    h.visible_eq fun d hd => (latestData_eq_some.1 hd).2.1.trans hp
  unfold readVisible
  rw [hvis]
  cases hx : visible k.writes cfg.ts with
  | none => rfl
  | some x =>
    have hvalue := h.lookup_visible hs hp hx
    unfold loadWrite loadValue
    dsimp only
    rw [hvalue]

include hk

theorem pointLoad_eq (newer : NewerTsCheckState) :
    pointLoad cfg newer k'.writes k'.values.lookup = pointLoad cfg newer k.writes k.values.lookup := by
  have hfound' : pointFrom cfg k'.writes k'.values.lookup _ = readVisible cfg k'.writes k'.values.lookup :=
    pointFrom_eq (h.consistentAt hk hp) (cameTo_dropWhile k'.writes cfg.ts)
  have hfound : pointFrom cfg k.writes k.values.lookup _ = readVisible cfg k.writes k.values.lookup :=
    pointFrom_eq (hk.consistentAt cfg.ts) (cameTo_dropWhile k.writes cfg.ts)
  have hread := h.readVisible_eq hs hp
  unfold pointLoad
  simp only [hfound, hfound', hread]
  cases hx : newestWrite k.writes with
  | none =>
    have hnil : k.writes.entries = [] := head?_eq_none_iff.1 hx
    have hnil' : newestWrite k'.writes = none := by
      refine head?_eq_none_iff.2 (eq_nil_iff_forall_not_mem.2 fun e he => ?_)
      have := h.sub e he
      rw [hnil] at this
      cases this
    rw [hnil']
  | some x =>
    obtain ⟨hmem, hmax⟩ := newestWrite_eq_some.1 hx
    by_cases hlt : cfg.ts < x.1
    · have hx' : newestWrite k'.writes = some x :=
        newestWrite_eq_some.2 ⟨h.newer x hmem (lt_of_le_of_lt hp hlt), fun e he => hmax e (h.sub e he)⟩
      rw [hx']
    · cases hx' : newestWrite k'.writes with
      | none =>
        have hnil : k'.writes.entries = [] := head?_eq_none_iff.1 hx'
        have hnone : readVisible cfg k'.writes k'.values.lookup = .ok none := readVisible_of_nil hnil
        rw [hread] at hnone
        dsimp only
        rw [if_neg hlt, hnone]
      | some x' =>
        have hlt' : ¬ cfg.ts < x'.1 := by
          have := hmax x' (h.sub x' (newestWrite_eq_some.1 hx').1)
          omega
        dsimp only
        rw [if_neg hlt, if_neg hlt']

theorem pointGet_eq (newer : NewerTsCheckState) (key : Bytes) :
    pointGet cfg newer key k' = pointGet cfg newer key k := by
  have hload := h.pointLoad_eq hk hs hp
  unfold pointGet
  rw [h.lock, hload]
  split
  · cases hlock : k.lock with
    | none => rfl
    | some lock =>
      dsimp only
      rw [h.readLock_eq hs cfg key hlock, hload]
  · rfl

end

end Collected

/-! ## Deletions -/

def Modify.IsDelete : Modify → Prop
  | .deleteWrite _ | .deleteValue _ => True
  | _ => False

/-- **Deletions that a collection up to `p` may make** of the versions `l`: a record that holds no data or is covered, or
a DELETE together with everything below it; and the values of covered PUTs, if `exact` then of those that go with them. -/
structure Deletes (p : Nat) (exact : Prop) (l : List (Nat × Write)) (ms : List Modify) : Prop where
  isDelete : ∀ m ∈ ms, m.IsDelete
  writes : ∀ t, .deleteWrite t ∈ ms → ∃ w, (t, w) ∈ l ∧ t ≤ p ∧
    (w.isData = false ∨ Covered l p (t, w) ∨ w.writeType = .delete ∧ ∀ e ∈ l, e.1 ≤ t → .deleteWrite e.1 ∈ ms)
  values : ∀ startTs, .deleteValue startTs ∈ ms → ∃ e ∈ l, e.2.inDefault = true ∧ e.2.startTs = startTs ∧
    Covered l p e ∧ (exact → .deleteWrite e.1 ∈ ms)

theorem apply_of_isDelete : ∀ {ms : List Modify} {k : KeyState}, (∀ m ∈ ms, m.IsDelete) →
    (k.apply ms).lock = k.lock ∧
      (∀ e, e ∈ (k.apply ms).writes.entries ↔ e ∈ k.writes.entries ∧ .deleteWrite e.1 ∉ ms) ∧
      ∀ s, (k.apply ms).values.lookup s = if .deleteValue s ∈ ms then none else k.values.lookup s
  | [], k, _ => by simp
  | m :: ms, k, h => by
    obtain ⟨hlock, hwrites, hvalues⟩ :=
      apply_of_isDelete (k := k.modify m) fun m' hm' => h m' (mem_cons_of_mem _ hm')
    have hm := h m mem_cons_self
    rw [KeyState.apply_cons]
    cases m with
    | deleteWrite t =>
      refine ⟨hlock, fun e => ?_, fun s => ?_⟩
      · rw [hwrites, mem_cons, not_or]
        simp only [KeyState.modify, Chain.mem_erase, Modify.deleteWrite.injEq]
        exact and_assoc
      · rw [hvalues]
        simp [KeyState.modify]
    | deleteValue t =>
      refine ⟨hlock, fun e => ?_, fun s => ?_⟩
      · rw [hwrites]
        simp [KeyState.modify]
      · rw [hvalues]
        simp only [KeyState.modify, Map.lookup_erase]
        by_cases hs : s = t
        · simp [hs]
        · simp [hs]
    | _ => exact hm.elim

variable {ms : List Modify} {exact : Prop}

theorem Deletes.collected {k : KeyState}
    (h : Deletes p exact k.writes.entries ms) : Collected p exact k (k.apply ms) := by
  obtain ⟨hlock, hwrites, hvalues⟩ := apply_of_isDelete h.isDelete
  refine ⟨hlock, fun e he => ((hwrites e).1 he).1, fun e he hlt => (hwrites e).2 ⟨he, fun hdel => ?_⟩, fun d hd => ?_,
    fun startTs hne => ?_⟩
  · obtain ⟨_, _, hle, _⟩ := h.writes e.1 hdel
    omega
  · obtain ⟨hmem, _, hdata, hmax⟩ := latestData_eq_some.1 hd
    by_cases hdel : .deleteWrite d.1 ∈ ms
    · obtain ⟨w, hw, _, hcase⟩ := h.writes d.1 hdel
      have hwd : w = d.2 := Chain.eq_of_mem hw hmem
      subst hwd
      rcases hcase with hno | ⟨x, hx, hxdata, hlt, hxp⟩ | ⟨htype, hall⟩
      · rw [hdata] at hno
        cases hno
      · exact absurd (hmax x hx hxp hxdata) (not_le.2 hlt)
      refine .inr ⟨htype, fun e he => not_le.1 fun hle => ?_⟩
      exact ((hwrites e).1 he).2 (hall e ((hwrites e).1 he).1 hle)
    · exact .inl ((hwrites d).2 ⟨hmem, hdel⟩)
  · have hdel : .deleteValue startTs ∈ ms := by
      by_contra hno
      rw [hvalues, if_neg hno] at hne
      exact hne rfl
    refine exists_put_mono (Subset.refl _) le_rfl (fun e hdel hmem => ?_) (h.values startTs hdel)
    exact ((hwrites e).1 hmem).2 hdel

theorem Deletes.mono (h : Deletes p exact l ms) (hp : p ≤ p') : Deletes p' exact l ms where
  isDelete := h.isDelete
  writes t ht := by
    obtain ⟨w, hw, hle, hcase⟩ := h.writes t ht
    exact ⟨w, hw, hle.trans hp, hcase.imp_right (.imp_left fun hc => hc.mono (List.Subset.refl _) hp)⟩
  values s hs := exists_put_mono (Subset.refl _) hp (fun _ => id) (h.values s hs)

/-! ## `actions::gc` -/

structure GcInfo where
  foundVersions : Nat
  deletedVersions : Nat
  isCompleted : Bool
deriving DecidableEq, Repr

def maxTxnWriteSize : Nat := 32 * 1024

def deleteSize (keySize : Nat) : Modify → Nat
  | .deleteWrite _ => "write".length + (keySize + 8)
  | _ => keySize + 8

def gcDeleteWrite (write : Write) (ts : Nat) : List Modify :=
  .deleteWrite ts :: if write.inDefault then [.deleteValue write.startTs] else []

inductive GcState
  /-- down to the safe point -/
  | rewind (safePoint : Nat)
  /-- remove locks and rollbacks until a put or delete -/
  | removeIdempotent
  /-- the latest delete can be removed if everything else is -/
  | removeAll (latestDelete : Option (Nat × Write))

def GcState.removeIdempotentStep (write : Write) (commitTs : Nat) : GcState × List Modify :=
  match write.writeType with
  | .put => (.removeAll none, [])
  | .delete => (.removeAll (some (commitTs, write)), [])
  | .rollback | .lock => (.removeIdempotent, gcDeleteWrite write commitTs)

def GcState.step (write : Write) (commitTs : Nat) : GcState → GcState × List Modify
  | .rewind safePoint =>
    if commitTs ≤ safePoint then removeIdempotentStep write commitTs else (.rewind safePoint, [])
  | .removeIdempotent => removeIdempotentStep write commitTs
  | .removeAll latestDelete => (.removeAll latestDelete, gcDeleteWrite write commitTs)

/-- The loop of `Gc::run`, over the versions that `seek_write` has yet to come to.  `writeSize` is the size of the
transaction so far. -/
def gcFrom (keySize : Nat) : (writeSize : Nat) → GcState → GcInfo → List (Nat × Write) → List Modify × GcInfo
  | _, .removeAll (some (commit, write)), info, [] =>
    (gcDeleteWrite write commit, { info with deletedVersions := info.deletedVersions + 1, isCompleted := true })
  | _, _, info, [] => ([], { info with isCompleted := true })
  | writeSize, state, info, (commit, write) :: older =>
    let info := { info with foundVersions := info.foundVersions + 1 }
    if maxTxnWriteSize ≤ writeSize then ([], info)
    else
      let deleted := (state.step write commit).2
      let info := if deleted.isEmpty then info else { info with deletedVersions := info.deletedVersions + 1 }
      let rest := gcFrom keySize (writeSize + (deleted.map (deleteSize keySize)).sum) (state.step write commit).1 info older
      (deleted ++ rest.1, rest.2)

def gc (keySize writeSize : Nat) (k : KeyState) (safePoint : Nat) : List Modify × GcInfo :=
  gcFrom keySize writeSize (.rewind safePoint) ⟨0, 0, false⟩ k.writes.entries

section Loop

variable {keySize : Nat} {write : Write} {ts : Nat}

theorem isDelete_gcDeleteWrite : ∀ m ∈ gcDeleteWrite write ts, m.IsDelete := by
  refine forall_mem_cons.2 ⟨trivial, ?_⟩
  split
  · exact forall_mem_singleton.2 trivial
  · exact nofun

theorem deleteWrite_mem_gcDeleteWrite {t : Nat} : .deleteWrite t ∈ gcDeleteWrite write ts ↔ t = ts := by
  simp [gcDeleteWrite]

theorem deleteValue_mem_gcDeleteWrite {s : Nat} :
    .deleteValue s ∈ gcDeleteWrite write ts ↔ write.inDefault = true ∧ s = write.startTs := by
  simp [gcDeleteWrite]

variable {o : Option (Nat × Write)}

theorem gcFrom_removeAll (ho : ∀ d, o = some d → d.2.writeType = .delete) :
    ∀ (l : List (Nat × Write)) (writeSize : Nat) (info : GcInfo),
      let ms := (gcFrom keySize writeSize (.removeAll o) info l).1
      (∀ m ∈ ms, m.IsDelete) ∧
      (∀ t, .deleteWrite t ∈ ms → (∃ w, (t, w) ∈ l) ∨
        (∃ w, o = some (t, w)) ∧ ∀ e ∈ l, .deleteWrite e.1 ∈ ms) ∧
      ∀ s, .deleteValue s ∈ ms → ∃ e ∈ l, e.2.inDefault = true ∧ e.2.startTs = s ∧ .deleteWrite e.1 ∈ ms
  | [], writeSize, info => by
    cases o with
    | none =>
      rw [gcFrom]
      · exact ⟨nofun, nofun, nofun⟩
      · exact nofun
    | some d =>
      have hdef : d.2.inDefault = false := by simp [inDefault, ho d rfl]
      rw [gcFrom]
      refine ⟨isDelete_gcDeleteWrite, fun t ht => ?_, fun s hs => ?_⟩
      · rw [deleteWrite_mem_gcDeleteWrite.1 ht]
        exact .inr ⟨⟨d.2, rfl⟩, nofun⟩
      · rw [deleteValue_mem_gcDeleteWrite, hdef] at hs
        cases hs.1
  | (commit, write) :: older, writeSize, info => by
    rw [gcFrom]
    split
    · exact ⟨nofun, nofun, nofun⟩
    obtain ⟨hdel, hwrites, hvalues⟩ := gcFrom_removeAll ho older _ _
    refine ⟨forall_mem_append.2 ⟨isDelete_gcDeleteWrite, hdel⟩, fun t ht => ?_, fun s hs => ?_⟩
    · rcases mem_append.1 ht with ht | ht
      · exact .inl ⟨write, deleteWrite_mem_gcDeleteWrite.1 ht ▸ mem_cons_self⟩
      rcases hwrites t ht with ⟨w, hw⟩ | ⟨ho', hall⟩
      · exact .inl ⟨w, mem_cons_of_mem _ hw⟩
      refine .inr ⟨ho', forall_mem_cons.2 ⟨?_, fun e he => mem_append_right _ (hall e he)⟩⟩
      exact mem_append_left _ (deleteWrite_mem_gcDeleteWrite.2 rfl)
    · rcases mem_append.1 hs with hs | hs
      · obtain ⟨hdef, rfl⟩ := deleteValue_mem_gcDeleteWrite.1 hs
        exact ⟨_, mem_cons_self, hdef, rfl, mem_append_left _ (deleteWrite_mem_gcDeleteWrite.2 rfl)⟩
      obtain ⟨e, he, hdef, hstart, hmem⟩ := hvalues s hs
      exact ⟨e, mem_cons_of_mem _ he, hdef, hstart, mem_append_right _ hmem⟩

theorem Deletes.nil : Deletes p exact l [] := ⟨nofun, nofun, nofun⟩

variable {a : Nat × Write}

theorem Deletes.cons (h : Deletes p exact l ms) (hlt : ∀ e ∈ l, e.1 < a.1) : Deletes p exact (a :: l) ms where
  isDelete := h.isDelete
  writes t ht := by
    obtain ⟨w, hw, hle, hcase⟩ := h.writes t ht
    refine ⟨w, mem_cons_of_mem _ hw, hle, hcase.imp_right (.imp ?_ ?_)⟩
    · exact fun hcov => hcov.mono (subset_cons_self _ _) (le_refl p)
    · exact fun hdel => ⟨hdel.1, forall_mem_cons.2 ⟨fun het => absurd (hlt _ hw) (not_lt.2 het), hdel.2⟩⟩
  values s hs := exists_put_mono (subset_cons_self _ _) le_rfl (fun _ => id) (h.values s hs)

theorem Deletes.append_idempotent (h : Deletes p exact (a :: l) ms) (hdata : a.2.isData = false) (hle : a.1 ≤ p) :
    Deletes p exact (a :: l) (gcDeleteWrite a.2 a.1 ++ ms) where
  isDelete := forall_mem_append.2 ⟨isDelete_gcDeleteWrite, h.isDelete⟩
  writes t ht := by
    rcases mem_append.1 ht with ht | ht
    · rw [deleteWrite_mem_gcDeleteWrite.1 ht]
      exact ⟨a.2, mem_cons_self, hle, .inl hdata⟩
    obtain ⟨w, hw, hle, hcase⟩ := h.writes t ht
    refine ⟨w, hw, hle, hcase.imp_right (.imp_right fun hdel => ⟨hdel.1, fun e he het => ?_⟩)⟩
    exact mem_append_right _ (hdel.2 e he het)
  values s hs := by
    rcases mem_append.1 hs with hs | hs
    · have hput := (inDefault_iff.1 (deleteValue_mem_gcDeleteWrite.1 hs).1).1
      rw [isData_of_put hput] at hdata
      cases hdata
    · exact exists_put_mono (Subset.refl _) le_rfl (fun _ => mem_append_right _) (h.values s hs)

theorem deletes_removeAll (hdata : a.2.isData = true) (hle : a.1 ≤ p) (hlt : ∀ e ∈ l, e.1 < a.1)
    (ho : ∀ d, o = some d → d = a ∧ a.2.writeType = .delete) (writeSize : Nat) (info : GcInfo) :
    Deletes p exact (a :: l) (gcFrom keySize writeSize (.removeAll o) info l).1 := by
  have ho' : ∀ d, o = some d → d.2.writeType = .delete := fun d hd => (ho d hd).1 ▸ (ho d hd).2
  obtain ⟨hdel, hwrites, hvalues⟩ := gcFrom_removeAll ho' l writeSize info
  have hcov : ∀ e ∈ l, Covered (a :: l) p e := fun e he => ⟨a, mem_cons_self, hdata, hlt e he, hle⟩
  refine ⟨hdel, fun t ht => ?_, fun s hs => ?_⟩
  · rcases hwrites t ht with ⟨w, hw⟩ | ⟨⟨w, hw⟩, hall⟩
    · exact ⟨w, mem_cons_of_mem _ hw, (le_of_lt (hlt _ hw)).trans hle, .inr (.inl (hcov _ hw))⟩
    obtain ⟨rfl, htype⟩ := ho _ hw
    exact ⟨w, mem_cons_self, hle, .inr (.inr ⟨htype, forall_mem_cons.2 ⟨fun _ => ht, fun e he _ => hall e he⟩⟩)⟩
  · obtain ⟨e, he, hdef, hstart, hmem⟩ := hvalues s hs
    exact ⟨e, mem_cons_of_mem _ he, hdef, hstart, hcov e he, fun _ => hmem⟩

theorem deletes_removeIdempotent : ∀ {l : List (Nat × Write)},
    (l.Pairwise fun a b => b.1 < a.1) → (∀ e ∈ l, e.1 ≤ p) → ∀ (writeSize : Nat) (info : GcInfo),
      Deletes p exact l (gcFrom keySize writeSize .removeIdempotent info l).1
  | [], _, _, _, _ => Deletes.nil
  | (commit, write) :: older, hl, hp, writeSize, info => by
    obtain ⟨hlt, hsorted⟩ := pairwise_cons.1 hl
    have hle := hp _ mem_cons_self
    have ih : ∀ writeSize info, Deletes p exact ((commit, write) :: older)
        (gcFrom keySize writeSize .removeIdempotent info older).1 := fun writeSize info =>
      (deletes_removeIdempotent hsorted (fun e he => hp e (mem_cons_of_mem _ he)) writeSize info).cons hlt
    rw [gcFrom]
    split
    · exact Deletes.nil
    unfold GcState.step GcState.removeIdempotentStep
    cases htype : write.writeType with
    | put => exact deletes_removeAll (o := none) (isData_of_put htype) hle hlt (fun _ hd => nomatch hd) _ _
    | delete =>
      have hdata : write.isData = true := by simp [isData, htype]
      exact deletes_removeAll hdata hle hlt (fun d hd => ⟨(Option.some.inj hd).symm, htype⟩) _ _
    | _ => exact (ih _ _).append_idempotent (by simp [isData, htype]) hle

theorem deletes_rewind : ∀ {l : List (Nat × Write)}, (l.Pairwise fun a b => b.1 < a.1) →
    ∀ (writeSize : Nat) (info : GcInfo), Deletes p exact l (gcFrom keySize writeSize (.rewind p) info l).1
  | [], _, _, _ => Deletes.nil
  | (commit, write) :: older, hl, writeSize, info => by
    obtain ⟨hlt, hsorted⟩ := pairwise_cons.1 hl
    by_cases hp : commit ≤ p
    · -- from the safe point on the versions are removed
      have hle : ∀ e ∈ (commit, write) :: older, e.1 ≤ p :=
        forall_mem_cons.2 ⟨hp, fun e he => (le_of_lt (hlt e he)).trans hp⟩
      have hstep : GcState.step write commit (.rewind p) = GcState.step write commit .removeIdempotent := if_pos hp
      have hrem : Deletes p exact _ (gcFrom keySize writeSize .removeIdempotent info _).1 :=
        deletes_removeIdempotent hl hle writeSize info
      rw [gcFrom, ← hstep] at hrem
      exact hrem
    · have hstep : GcState.step write commit (.rewind p) = (.rewind p, []) := if_neg hp
      rw [gcFrom]
      split
      · exact Deletes.nil
      rw [hstep]
      exact (deletes_rewind hsorted _ _).cons hlt

theorem deletes_gc (keySize writeSize : Nat) (k : KeyState) (safePoint : Nat) :
    Deletes safePoint exact k.writes.entries (gc keySize writeSize k safePoint).1 :=
  deletes_rewind k.writes.sorted writeSize _

end Loop

end Mvcc
end Tikv
