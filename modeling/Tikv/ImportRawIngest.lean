import Tikv.ImportIngest
/-!
# ImportRawIngest — what raw readers see of ingested files

A raw read takes the value at the plain key, or in API V2 the newest version of the user key, and drops it if it has
expired or is a logical deletion (`RawStore::raw_get_key_value`).  A put of a `RawSstWriter` is read back after
ingestion.  A deletion is not always: the file is saved only if it has a put, and in API V2 it deletes the version of
its own timestamp, so that an older version shows again, where a raw delete would have written a logical deletion.
`raw_reads_iff` says when all is read as it was written.
-/
namespace Tikv
namespace Import

open Lib Codec Raw OrderDual List RawPair RawSstWriter UInt64 Chain

/-! ## Raw reads -/

def seekFirstKeyValue (cf : Cf) (key : Bytes) : Option Bytes :=
  let upperBound := Txn.appendTs key 0
  match cf.seek (toDual (dataKey key)) with
  | none => none
  | some (k, v) => if ofDual k < dataKey upperBound then some v else none

def mapValue (api : ApiVersion) (currentTs : UInt64) (value : Option Bytes) : Except ValueError (Option Bytes) :=
  match value with
  | none => .ok none
  | some v =>
    match api.decodeRawValue v with
    | .error e => .error e
    | .ok rawValue => .ok (if rawValue.isValid currentTs then some rawValue.userValue else none)

/-- `RawStore::raw_get_key_value` of the user key, for the snapshot of each version. -/
def rawGetKeyValue (api : ApiVersion) (cf : Cf) (currentTs : UInt64) (userKey : Bytes) :
    Except ValueError (Option Bytes) :=
  let key := api.encodeRawKey userKey none
  match api with
  | .v1 => .ok (cfGet cf (dataKey key))
  | .v1ttl => mapValue api currentTs (cfGet cf (dataKey key))
  | .v2 => mapValue api currentTs (seekFirstKeyValue cf key)

def RawPair.read (p : RawPair) (currentTs : UInt64) : Option Bytes :=
  if p.isPut && !p.rawValue.isTtlExpired currentTs then some p.pair.value else none

def Newest (ps : List RawPair) (p : RawPair) : Prop :=
  p ∈ ps ∧ ∀ q ∈ ps, q.pair.key = p.pair.key → q.ts ≤ p.ts

/-- **Reads as after writing the pairs one by one**: a key with pairs reads the newest one, another what it read before. -/
def ReadsAsWritten (api : ApiVersion) (before after : Cf) (ps : List RawPair) (currentTs : UInt64) : Prop :=
  (∀ p, Newest ps p → rawGetKeyValue api after currentTs p.pair.key = .ok (p.read currentTs)) ∧
    ∀ key, (∀ p ∈ ps, p.pair.key ≠ key) →
      rawGetKeyValue api after currentTs key = rawGetKeyValue api before currentTs key

/-- In V2 every key of the column family is a version, older than the pairs of its user key. -/
def OlderThan (api : ApiVersion) (cf : Cf) (ps : List RawPair) : Prop :=
  api = .v2 → ∀ e ∈ cf.entries, ∃ key ts, ofDual e.1 = versionKey key ts ∧ ∀ p ∈ ps, p.pair.key = key → ts < p.ts

def withPuts (api : ApiVersion) (cf : Cf) (ps : List RawPair) : Cf :=
  ingestFile cf ((ps.filter RawPair.isPut).map (RawPair.entry api))

/-- **When the files do what the pairs say**: in V2 no put to be read has the timestamp zero; and a deleted key shows nothing
of what was there before and of the puts, unless the plain key is deleted by a file that has a put as well. -/
def Effective (api : ApiVersion) (cf : Cf) (ps : List RawPair) (currentTs : UInt64) : Prop :=
  ∀ p, Newest ps p →
    (p.isPut = true → api = .v2 → p.rawValue.isTtlExpired currentTs = false → p.ts ≠ 0) ∧
    (p.isPut = false → (api ≠ .v2 ∧ ∃ q ∈ ps, q.isPut = true) ∨
      rawGetKeyValue api (withPuts api cf ps) currentTs p.pair.key = .ok none)

/-! ## Versioned keys -/

section Versioned

variable {cf : Cf}

def Versioned (cf : Cf) : Prop := ∀ e ∈ cf.entries, ∃ key ts, ofDual e.1 = versionKey key ts

theorem dataKey_fromRaw_le_iff {key key' : Bytes} {ts : UInt64} :
    dataKey (Txn.fromRaw key) ≤ versionKey key' ts ↔ key ≤ key' := by
  rw [← not_lt, ← not_lt]
  refine not_congr ?_
  have := memcomparable_encodeBytes key' key (encodeU64Desc ts) []
  rw [append_nil] at this
  exact dataKey_lt_iff.trans (this.trans (by simp))

theorem mem_versions_some {k : Bytesᵒᵈ} {v : Bytes} {key : Bytes} {ts : UInt64} (hmem : (k, v) ∈ cf.entries)
    (hk : ofDual k = versionKey key ts) : (ts.toNat, v) ∈ (versions some key cf).entries := by
  refine mem_versions.2 ⟨ts, v, ?_, rfl, rfl⟩
  rw [← hk]
  exact lookup_eq_some.2 hmem

theorem seekFirstKeyValue_eq (hcf : Versioned cf) (key : Bytes) : seekFirstKeyValue cf (Txn.fromRaw key) =
      ((versions some key cf).find fun e => decide (0 < e.1)).map (·.2) := by
  unfold seekFirstKeyValue
  cases hfind : (versions some key cf).find fun e => decide (0 < e.1) with
  | none =>
    have hzero := find_eq_none.1 hfind
    cases hseek : cf.seek (toDual (dataKey (Txn.fromRaw key))) with
    | none => rfl
    | some e =>
      obtain ⟨hmem, hle, -⟩ := seek_eq_some.1 hseek
      obtain ⟨key', ts, hk⟩ := hcf e hmem
      have hkey : key ≤ key' := dataKey_fromRaw_le_iff.1 (hk ▸ ofDual_le_ofDual.2 hle)
      refine if_neg fun hlt => ?_
      rw [hk] at hlt
      rcases versionKey_lt_iff.1 hlt with hlt | ⟨heq, hpos⟩
      · exact absurd hlt (not_lt.2 hkey)
      subst heq
      have := hzero _ (mem_versions_some hmem hk)
      exact absurd (lt_iff_toNat_lt.1 hpos) (of_decide_eq_false this)
  | some r =>
    obtain ⟨hmem, hpos, hmax⟩ := find_eq_some.1 hfind
    obtain ⟨t, v⟩ := r
    obtain ⟨ts, b, hget, hb, rfl⟩ := mem_versions.1 hmem
    cases hb
    have hpos : 0 < ts := lt_iff_toNat_lt.2 (of_decide_eq_true hpos)
    have hseek : cf.seek (toDual (dataKey (Txn.fromRaw key))) = some (toDual (versionKey key ts), v) := by
      refine seek_eq_some.2 ⟨lookup_eq_some.1 hget, ?_, fun e he hle => ?_⟩
      · exact toDual_le_toDual.2 (dataKey_fromRaw_le_iff.2 (le_refl _))
      · obtain ⟨key', ts', hk⟩ := hcf e he
        have hkey : key ≤ key' := dataKey_fromRaw_le_iff.1 (hk ▸ ofDual_le_ofDual.2 hle)
        rw [← ofDual_le_ofDual, ofDual_toDual, hk, ← not_lt, versionKey_lt_iff]
        rintro (hlt | ⟨rfl, hlt⟩)
        · exact absurd hlt (not_lt.2 hkey)
        · -- a version of the same key after the newest one is not above it
          have hpos' : 0 < ts'.toNat := lt_iff_toNat_lt.1 (UInt64.lt_trans hpos hlt)
          have hle' := hmax _ (mem_versions_some he hk) (decide_eq_true hpos')
          exact absurd (lt_iff_toNat_lt.1 hlt) (not_lt.2 hle')
    rw [hseek]
    exact if_pos (versionKey_lt_iff.2 (.inr ⟨rfl, hpos⟩))

end Versioned

/-! ## The pairs in the column family -/

section

variable {api : ApiVersion} {cf : Cf} {ps : List RawPair} {p : RawPair} {currentTs : UInt64}

theorem mapValue_entry (hp : p.Accepted api) (hput : p.isPut = true) :
    mapValue api currentTs (some (api.encodeRawValue p.rawValue)) = .ok (p.read currentTs) := by
  unfold mapValue RawPair.read
  simp only [ApiVersion.decodeRawValue_encode api hp.expire, hput]
  rfl

theorem default_ingestAll (e : Engine) : (e.ingestAll ((new api).add ps).finish).default =
      if ∃ q ∈ ps, q.isPut = true then ingestFile e.default (ps.map (entry api)) else e.default := by
  unfold finish add new
  simp only [zero_add]
  by_cases hput : ∃ q ∈ ps, q.isPut = true
  · rw [if_pos hput, if_neg (ne_of_gt (countP_pos_iff.2 hput))]
    rfl
  rw [if_neg hput, if_pos (Nat.eq_zero_of_not_pos fun hpos => hput (countP_pos_iff.1 hpos))]
  rfl

theorem withPuts_of_forall (h : ¬ ∃ q ∈ ps, q.isPut = true) : withPuts api cf ps = cf := by
  have hnil : ps.filter isPut = [] := filter_eq_nil_iff.2 fun q hq hput => h ⟨q, hq, hput⟩
  unfold withPuts
  rw [hnil]
  rfl

section Versioned

variable (hsorted : (ps.map (encoded .v2)).Pairwise (· < ·)) (holder : OlderThan .v2 cf ps)

include holder in
theorem versioned_of_olderThan : Versioned cf := by
  intro e he
  obtain ⟨key, ts, hk, -⟩ := holder rfl e he
  exact ⟨key, ts, hk⟩

include hsorted in
theorem sorted_rawVersionKeys : ps.Pairwise fun p q => versionKey p.pair.key p.ts < versionKey q.pair.key q.ts :=
  (pairwise_map.1 hsorted).imp dataKey_lt_iff.2

include hsorted holder in
theorem ingestFile_eq_withPuts : ingestFile cf (ps.map (entry .v2)) = withPuts .v2 cf ps := by
  unfold withPuts ingestFile
  have hfilter : ((ps.filter isPut).map (entry .v2)).map (fun e => (toDual e.1, e.2)) =
      ((ps.map (entry .v2)).map fun e => (toDual e.1, e.2)).filter (·.2.isSome) := by
    rw [filter_map, filter_map]
    refine congrArg (map _) (congrArg (map _) (filter_congr fun p _ => ?_))
    simp only [Function.comp_apply, entry]
    cases p.isPut <;> rfl
  rw [hfilter]
  refine (overlay_filter_isSome cf ?_ fun x hx _ => ?_).symm
  · refine pairwise_map.2 (pairwise_map.2 ((sorted_rawVersionKeys hsorted).imp fun hlt heq => ?_))
    exact absurd (toDual_inj.1 heq) (ne_of_lt hlt)
  · obtain ⟨y, hy, rfl⟩ := mem_map.1 hx
    obtain ⟨p, hp, rfl⟩ := mem_map.1 hy
    refine lookup_eq_none.2 fun v hmem => ?_
    obtain ⟨key, ts, hk, hlt⟩ := holder rfl _ hmem
    obtain ⟨hkey, hts⟩ := versionKey_inj hk
    exact absurd (hlt p hp hkey) (hts ▸ UInt64.lt_irrefl _)

theorem withPuts_eq : withPuts .v2 cf ps = ingestFile cf (versionFile (·.pair.key) (·.ts)
    (fun p => if p.isPut then some (ApiVersion.v2.encodeRawValue p.rawValue) else none) (ps.filter isPut)) := rfl

include holder in
theorem versioned_withPuts : Versioned (withPuts .v2 cf ps) := by
  rintro ⟨k, v⟩ he
  have hget : cfGet (withPuts .v2 cf ps) (ofDual k) = some v := lookup_eq_some.2 he
  by_cases hq : ∃ q ∈ ps.filter isPut, versionKey q.pair.key q.ts = ofDual k
  · obtain ⟨q, -, heq⟩ := hq
    exact ⟨_, _, heq.symm⟩
  rw [withPuts_eq, cfGet_ingestFile_of_forall_ne] at hget
  · exact versioned_of_olderThan holder _ (lookup_eq_some.1 hget)
  · intro x hx
    obtain ⟨q, hmem, rfl⟩ := mem_map.1 hx
    exact fun heq => hq ⟨q, hmem, heq⟩

include holder in
theorem le_of_mem_versions (hp : Newest ps p) {r : Nat × Bytes}
    (hr : r ∈ (versions some p.pair.key (withPuts .v2 cf ps)).entries) : r.1 ≤ p.ts.toNat := by
  rcases mem_of_mem_versions hr with ⟨q, hq, hkey, hts⟩ | hr
  · rw [← hts]
    exact hp.2 q (mem_of_mem_filter hq) hkey
  obtain ⟨ts, b, hget, -, hts⟩ := mem_versions.1 hr
  obtain ⟨key, ts', hk, hlt⟩ := holder rfl _ (lookup_eq_some.1 hget)
  obtain ⟨rfl, rfl⟩ := versionKey_inj hk
  rw [← hts]
  exact le_of_lt (lt_iff_toNat_lt.1 (hlt p hp.1 rfl))

include hsorted holder in
theorem rawGet_put (hacc : p.Accepted .v2) (hp : Newest ps p) (hput : p.isPut = true) :
    rawGetKeyValue .v2 (withPuts .v2 cf ps) currentTs p.pair.key =
      .ok (if p.ts = 0 then none else p.read currentTs) := by
  show mapValue .v2 currentTs (seekFirstKeyValue (withPuts .v2 cf ps) (Txn.fromRaw p.pair.key)) = _
  rw [seekFirstKeyValue_eq (versioned_withPuts holder)]
  split
  · rename_i hzero
    have hnone : ((versions some p.pair.key (withPuts .v2 cf ps)).find fun e => decide (0 < e.1)) = none := by
      refine find_eq_none.2 fun r hr => decide_eq_false ?_
      have hle := le_of_mem_versions holder hp hr
      rw [hzero] at hle
      exact not_lt.2 hle
    rw [hnone]
    rfl
  · rename_i hne
    have hmem : (p.ts.toNat, ApiVersion.v2.encodeRawValue p.rawValue) ∈
        (versions some p.pair.key (withPuts .v2 cf ps)).entries := by
      exact mem_versions_of_mem ((sorted_rawVersionKeys hsorted).filter _) (mem_filter.2 ⟨hp.1, hput⟩)
        (if_pos hput) rfl
    have hpos : 0 < p.ts.toNat := pos_of_ne_zero fun h0 => hne (UInt64.toNat_inj.1 h0)
    have hfind : ((versions some p.pair.key (withPuts .v2 cf ps)).find fun e => decide (0 < e.1)) =
        some (p.ts.toNat, ApiVersion.v2.encodeRawValue p.rawValue) :=
      find_eq_some.2 ⟨hmem, decide_eq_true hpos, fun r hr _ => le_of_mem_versions holder hp hr⟩
    rw [hfind]
    exact mapValue_entry hacc hput

include holder in
theorem rawGet_untouched {key : Bytes} (hkey : ∀ p ∈ ps, p.pair.key ≠ key) :
    rawGetKeyValue .v2 (withPuts .v2 cf ps) currentTs key = rawGetKeyValue .v2 cf currentTs key := by
  show mapValue .v2 currentTs (seekFirstKeyValue (withPuts .v2 cf ps) (Txn.fromRaw key)) =
    mapValue .v2 currentTs (seekFirstKeyValue cf (Txn.fromRaw key))
  rw [seekFirstKeyValue_eq (versioned_withPuts holder), seekFirstKeyValue_eq (versioned_of_olderThan holder), withPuts_eq,
    versions_ingestFile key fun q hq => hkey q (mem_of_mem_filter hq)]

end Versioned

/-! ## Plain keys -/

section Plain

variable (hapi : api ≠ .v2) (hsorted : (ps.map (encoded api)).Pairwise (· < ·))

theorem rawGet_plain (hapi : api ≠ .v2) (cf : Cf) (key : Bytes) :
    rawGetKeyValue api cf currentTs key = mapValue api currentTs (cfGet cf (dataKey key)) := by
  cases api with
  | v1 =>
    show Except.ok (cfGet cf (dataKey key)) = _
    cases cfGet cf (dataKey key) <;> rfl
  | v1ttl => rfl
  | v2 => exact absurd rfl hapi

theorem encoded_plain (hapi : api ≠ .v2) (p : RawPair) : p.encoded api = p.pair.key := by
  cases api with
  | v1 | v1ttl => rfl
  | v2 => exact absurd rfl hapi

include hapi hsorted in
theorem rawGet_plain_pair (hacc : p.Accepted api) (hp : p ∈ ps) :
    rawGetKeyValue api (ingestFile cf (ps.map (entry api))) currentTs p.pair.key = .ok (p.read currentTs) := by
  have hfile : (ps.map (entry api)).Pairwise fun a b => a.1 < b.1 :=
    pairwise_map.2 ((pairwise_map.1 hsorted).imp dataKey_lt_iff.2)
  have hget := cfGet_ingestFile_of_mem cf hfile (mem_map_of_mem hp)
  rw [rawGet_plain hapi, ← encoded_plain hapi p]
  refine (congrArg (mapValue api currentTs) hget).trans ?_
  unfold entry
  cases hput : p.isPut with
  | true => exact mapValue_entry hacc hput
  | false =>
    unfold RawPair.read
    rw [hput]
    rfl

include hapi in
theorem rawGet_plain_untouched {key : Bytes} (hkey : ∀ p ∈ ps, p.pair.key ≠ key) :
    rawGetKeyValue api (ingestFile cf (ps.map (entry api))) currentTs key = rawGetKeyValue api cf currentTs key := by
  rw [rawGet_plain hapi, rawGet_plain hapi, cfGet_ingestFile_of_forall_ne]
  intro x hx heq
  obtain ⟨p, hp, rfl⟩ := mem_map.1 hx
  exact hkey p hp ((encoded_plain hapi p).symm.trans (dataKey_inj.1 heq))

end Plain

/-! ## When all is read as it was written -/

theorem RawPair.read_delete (h : p.isPut = false) : p.read currentTs = none := by
  unfold read
  rw [h]
  rfl

variable (hacc : ∀ p ∈ ps, p.Accepted api) (hsorted : (ps.map (encoded api)).Pairwise (· < ·))

include hacc hsorted in
theorem readsAsWritten_plain_iff (hapi : api ≠ .v2) :
    ReadsAsWritten api cf (if ∃ q ∈ ps, q.isPut = true then ingestFile cf (ps.map (entry api)) else cf) ps
      currentTs ↔ Effective api cf ps currentTs := by
  by_cases hput : ∃ q ∈ ps, q.isPut = true
  · rw [if_pos hput]
    constructor
    · exact fun _ p _ => ⟨fun _ h => absurd h hapi, fun _ => .inl ⟨hapi, hput⟩⟩
    · exact fun _ => ⟨fun p hp => rawGet_plain_pair hapi hsorted (hacc p hp.1) hp.1,
        fun key hkey => rawGet_plain_untouched hapi hkey⟩
  · have hdelete : ∀ p ∈ ps, p.isPut = false := fun p hp => Bool.eq_false_iff.2 fun h => hput ⟨p, hp, h⟩
    rw [if_neg hput]
    constructor
    · rintro ⟨hreads, -⟩ p hp
      refine ⟨fun _ h => absurd h hapi, fun hdel => .inr ?_⟩
      rw [withPuts_of_forall hput, hreads p hp, read_delete hdel]
    · intro heff
      refine ⟨fun p hp => ?_, fun _ _ => rfl⟩
      rcases (heff p hp).2 (hdelete p hp.1) with ⟨-, h⟩ | h
      · exact absurd h hput
      rw [withPuts_of_forall hput] at h
      rw [h, read_delete (hdelete p hp.1)]

theorem readsAsWritten_versioned_iff (hacc : ∀ p ∈ ps, p.Accepted .v2)
    (hsorted : (ps.map (encoded .v2)).Pairwise (· < ·)) (holder : OlderThan .v2 cf ps) :
    ReadsAsWritten .v2 cf (withPuts .v2 cf ps) ps currentTs ↔ Effective .v2 cf ps currentTs := by
  constructor
  · rintro ⟨hreads, -⟩ p hp
    refine ⟨fun hput _ hlive hzero => ?_, fun hdel => .inr ?_⟩
    · have hread := hreads p hp
      rw [rawGet_put hsorted holder (hacc p hp.1) hp hput, if_pos hzero] at hread
      unfold RawPair.read at hread
      rw [hput, hlive] at hread
      cases hread
    · rw [hreads p hp, read_delete hdel]
  · intro heff
    refine ⟨fun p hp => ?_, fun key hkey => rawGet_untouched holder hkey⟩
    cases hput : p.isPut with
    | false =>
      rcases (heff p hp).2 hput with ⟨h, -⟩ | h
      · exact absurd rfl h
      · rw [h, read_delete hput]
    | true =>
      rw [rawGet_put hsorted holder (hacc p hp.1) hp hput]
      split
      · rename_i hzero
        -- a put at the timestamp zero is not found, which is right only once it has expired
        have hexpired : p.rawValue.isTtlExpired currentTs = true :=
          Bool.of_not_eq_false fun hlive => (heff p hp).1 hput rfl hlive hzero
        unfold RawPair.read
        rw [hexpired, Bool.not_true, Bool.and_false]
        rfl
      · rfl

theorem raw_reads_iff (e : Engine) (hacc : ∀ p ∈ ps, p.Accepted api) (hsorted : (ps.map (encoded api)).Pairwise (· < ·))
    (holder : OlderThan api e.default ps) :
    ReadsAsWritten api e.default (e.ingestAll ((new api).add ps).finish).default ps currentTs ↔
      Effective api e.default ps currentTs := by
  rw [default_ingestAll]
  by_cases hapi : api = .v2
  · subst hapi
    have hafter : (if ∃ q ∈ ps, q.isPut = true then ingestFile e.default (ps.map (entry .v2)) else e.default) =
        withPuts .v2 e.default ps := by
      split
      · exact ingestFile_eq_withPuts hsorted holder
      rename_i hput
      exact (withPuts_of_forall hput).symm
    rw [hafter]
    exact readsAsWritten_versioned_iff hacc hsorted holder
  · exact readsAsWritten_plain_iff hacc hsorted hapi

end

/-- **What is written through an SST writer, and what is read after ingestion**, for every API version and every run of
accepted batches.  Transactional pairs: the engine is as after applying them one by one, and a pair is read from its commit
timestamp on, until a newer pair of its key.  Raw pairs: the reads are as after applying them one by one exactly if the pairs
are effective. -/
theorem sst_pairs_read (api : ApiVersion) :
    (∀ (e : Engine) (batches : List WriteBatch) (w : TxnSstWriter), (TxnSstWriter.new api).writeAll batches = .ok w →
      ((txnPairs batches).map TxnPair.encoded).Pairwise (· < ·) →
      e.ingestAll w.finish = (txnPairs batches).foldl Engine.applyPair e ∧
      ∀ p ∈ txnPairs batches, (∀ r ∈ (e.keyState p.pair.key).writes.entries, r.1 < p.commitTs.toNat) →
        ∀ (cfg : Mvcc.ReadConfig) (newer : Mvcc.NewerTsCheckState), p.commitTs.toNat ≤ cfg.ts →
          (∀ q ∈ txnPairs batches, q.pair.key = p.pair.key → q.commitTs.toNat ≤ cfg.ts → q.commitTs ≤ p.commitTs) →
          (cfg.isolationLevel = .rcCheckTs →
            ∀ q ∈ txnPairs batches, q.pair.key = p.pair.key → q.commitTs.toNat ≤ cfg.ts) →
          (Mvcc.pointGet cfg newer p.pair.key ((e.ingestAll w.finish).keyState p.pair.key)).1 =
            (Mvcc.lockRead cfg p.pair.key ((e.ingestAll w.finish).keyState p.pair.key)).getD (.ok (p.read cfg))) ∧
    ∀ (e : Engine) (batches : List RawWriteBatch) (w : RawSstWriter), (RawSstWriter.new api).writeAll batches = .ok w →
      ((rawPairs batches).map (RawPair.encoded api)).Pairwise (· < ·) → OlderThan api e.default (rawPairs batches) →
      ∀ currentTs, ReadsAsWritten api e.default (e.ingestAll w.finish).default (rawPairs batches) currentTs ↔
        Effective api e.default (rawPairs batches) currentTs := by
  constructor
  · intro e batches w hw hsorted
    have hfinish : e.ingestAll w.finish = (txnPairs batches).foldl Engine.applyPair e := by
      rw [TxnSstWriter.writeAll_spec hw, Engine.ingestAll_finish]
    refine ⟨hfinish, fun p hp holder cfg newer hle hnewest hrc => ?_⟩
    rw [hfinish]
    exact pointGet_ingested hsorted newer hp hle hnewest hrc holder
  · intro e batches w hw hsorted holder currentTs
    have htook := writeAll_spec hw
    rw [htook.eq_add]
    exact raw_reads_iff e htook.accepted hsorted holder

/-! ## A stream of batches -/

def sampleKey : Bytes := [0x72, 0x6b]
def otherKey : Bytes := [0x72, 0x61]

def sampleEngine (api : ApiVersion) : Engine :=
  ⟨ingestFile .empty [(dataKey (api.encodeRawKey sampleKey (some 1)), some (api.encodeRawValue ⟨[5], none, false⟩))],
    .empty, fun _ => none⟩

def rawBatch (ts : UInt64) (pairs : List Pair) : RawWriteBatch := ⟨ts, 0, pairs, 100⟩

def readAfter (api : ApiVersion) (batches : List RawWriteBatch) (key : Bytes) : Option (Except ValueError (Option Bytes)) :=
  ((RawSstWriter.new api).writeAll batches).toOption.map fun w =>
    rawGetKeyValue api ((sampleEngine api).ingestAll w.finish).default 100 key

def sampleBatches : List RawWriteBatch := [rawBatch 2 [⟨sampleKey, [9], .put⟩]]

def sampleTxnBatches : List WriteBatch := [⟨10, [⟨sampleKey, [9], .put⟩]⟩]

def sampleRead : Mvcc.ReadConfig := ⟨10, .si, false, [], []⟩

theorem olderThan_sample : OlderThan .v2 (sampleEngine .v2).default (rawPairs sampleBatches) := by
  intro _ e he
  cases mem_singleton.1 he
  refine ⟨sampleKey, 1, rfl, fun p hp _ => ?_⟩
  cases mem_singleton.1 hp
  decide

theorem effective_sample : Effective .v2 (sampleEngine .v2).default (rawPairs sampleBatches) 100 := by
  intro p hp
  cases mem_singleton.1 hp.1
  exact ⟨fun _ _ _ => by decide, fun h => absurd h (by decide)⟩

theorem sst_pairs_read_sample : ReadsAsWritten .v2 (sampleEngine .v2).default ((sampleEngine .v2).ingestAll
        ((RawSstWriter.new .v2).add (rawPairs sampleBatches)).finish).default (rawPairs sampleBatches) 100 ∧
      (Mvcc.pointGet sampleRead .unknown sampleKey (((sampleEngine .v1).ingestAll
        ((TxnSstWriter.new .v1).add (txnPairs sampleTxnBatches)).finish).keyState sampleKey)).1 = .ok (some [9]) := by
  constructor
  · exact ((sst_pairs_read .v2).2 (sampleEngine .v2) sampleBatches _ rfl (by decide) olderThan_sample 100).2
      effective_sample
  · refine ((sst_pairs_read .v1).1 (sampleEngine .v1) sampleTxnBatches _ rfl (by decide)).2
      ⟨10, ⟨sampleKey, [9], .put⟩⟩ (by simp [sampleTxnBatches, txnPairs, WriteBatch.txnPairs]) ?_ sampleRead .unknown
      (by decide) ?_ fun h => absurd h (by decide)
    · intro r hr
      exact absurd hr not_mem_nil
    · intro q hq _ _
      cases mem_singleton.1 hq
      exact UInt64.le_refl _

/-- **Pairs that are lost.**  A file of deletions only is not saved; in V2 a deletion leaves the older version; and a put at
the timestamp zero is not found. -/
theorem sst_pairs_lost : readAfter .v1 [rawBatch 0 [⟨sampleKey, [], .delete⟩]] sampleKey = some (.ok (some [5])) ∧
      readAfter .v2 [rawBatch 2 [⟨otherKey, [9], .put⟩, ⟨sampleKey, [], .delete⟩]] sampleKey = some (.ok (some [5])) ∧
      ((rawPairs [rawBatch 2 [⟨otherKey, [9], .put⟩, ⟨sampleKey, [], .delete⟩]]).map (RawPair.encoded .v2)).Pairwise
        (· < ·) ∧
      readAfter .v2 [rawBatch 0 [⟨otherKey, [9], .put⟩]] otherKey = some (.ok none) := by
  decide +kernel

end Import
end Tikv
