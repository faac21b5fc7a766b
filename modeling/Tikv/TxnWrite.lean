import Tikv.CodecNumber
import Tikv.LibTagged
/-!
# TxnWrite — timestamped keys and the records of the write column family (`txn_types`)

A key of the write or default column family is the encoded user key with the timestamp appended in descending order.  A
value of the write column family is a `Write`; its bytes are the type, the start timestamp and then the optional fields,
each under a tag of its own, until an unknown tag.  `Write.parse` reads the bytes of every record back
(`parse_toBytes`), and the size it allocates for them is enough (`length_toBytes`).
-/
namespace Tikv
namespace Txn

open Lib Codec List

/-! ## Timestamped keys -/

def appendTs (key : Bytes) (ts : UInt64) : Bytes := key ++ encodeU64Desc ts

def truncateTsFor (key : Bytes) : Except CodecError Bytes :=
  if key.length < 8 then .error .keyLength else .ok (key.take (key.length - 8))

def decodeTsFrom (key : Bytes) : Except CodecError UInt64 :=
  if key.length < 8 then .error .keyLength
  else (decodeU64Desc (key.drop (key.length - 8))).map (·.1)

theorem truncateTsFor_appendTs (key : Bytes) (ts : UInt64) : truncateTsFor (appendTs key ts) = .ok key := by
  unfold truncateTsFor appendTs
  rw [if_neg (by simp), length_append, length_encodeU64Desc, Nat.add_sub_cancel, take_left' rfl]

theorem decodeTsFrom_appendTs (key : Bytes) (ts : UInt64) : decodeTsFrom (appendTs key ts) = .ok ts := by
  have hdec : decodeU64 (encodeU64 (~~~ ts)) = .ok (~~~ ts, []) := by
    have := decodeU64_encode (~~~ ts) []
    rwa [append_nil] at this
  unfold decodeTsFrom appendTs
  rw [length_append, length_encodeU64Desc, Nat.add_sub_cancel, drop_left' rfl]
  unfold decodeU64Desc encodeU64Desc
  rw [hdec]
  show Except.ok (~~~ (~~~ ts)) = _
  rw [UInt64.not_not]

theorem eq_appendTs {key : Bytes} {ts : UInt64} (h : decodeTsFrom key = .ok ts) :
    ∃ user, truncateTsFor key = .ok user ∧ key = appendTs user ts := by
  unfold decodeTsFrom at h
  split at h
  · cases h
  rename_i hlen
  refine ⟨key.take (key.length - 8), if_neg hlen, ?_⟩
  have hdrop : (key.drop (key.length - 8)).length = 8 := by rw [length_drop]; omega
  unfold decodeU64Desc decodeU64 at h
  rw [if_pos (by omega), take_of_length_le (by omega)] at h
  cases h
  unfold appendTs encodeU64Desc
  rw [UInt64.not_not, encodeU64_decode hdrop, take_append_drop]

theorem appendTs_inj {key key' : Bytes} {ts ts' : UInt64} (h : appendTs key ts = appendTs key' ts') :
    key = key' ∧ ts = ts' := by
  have hkey := truncateTsFor_appendTs key ts
  have hts := decodeTsFrom_appendTs key ts
  rw [h, truncateTsFor_appendTs] at hkey
  rw [h, decodeTsFrom_appendTs] at hts
  cases hkey
  cases hts
  exact ⟨rfl, rfl⟩

/-! ## Records -/

inductive WriteType
  | put | delete | lock | rollback
deriving DecidableEq, Repr

def WriteType.fromU8 (b : UInt8) : Option WriteType :=
  if b = 0x50 then some .put            -- b'P'
  else if b = 0x44 then some .delete    -- b'D'
  else if b = 0x4c then some .lock      -- b'L'
  else if b = 0x52 then some .rollback  -- b'R'
  else none

def WriteType.toU8 : WriteType → UInt8
  | put => 0x50
  | delete => 0x44
  | lock => 0x4c
  | rollback => 0x52

/-- The position of the last PUT or DELETE; `make_exist` asserts what `exist` carries. -/
inductive LastChange
  | unknown
  | exist (lastChangeTs estimatedVersions : UInt64) (hts : lastChangeTs ≠ 0) (hv : estimatedVersions ≠ 0)
  | notExist
deriving DecidableEq

abbrev ShortValue := { v : Bytes // v.length ≤ 255 }

theorem length_take_toNat_le (b : Bytes) (len : UInt8) : (b.take len.toNat).length ≤ 255 := by
  have := len.toNat_lt
  rw [length_take]; omega

structure Write where
  writeType : WriteType
  startTs : UInt64
  shortValue : Option ShortValue
  hasOverlappedRollback : Bool
  gcFence : Option UInt64
  lastChange : LastChange
  txnSource : UInt64
deriving DecidableEq

def Write.new (writeType : WriteType) (startTs : UInt64) (shortValue : Option ShortValue) : Write :=
  ⟨writeType, startTs, shortValue, false, none, .unknown, 0⟩

/-- Why a record was not read: the two errors of `parse`, and its panics. -/
inductive ParseError
  | badFormatWrite
  | codec (e : CodecError)
  | panic (message : String)
deriving DecidableEq, Repr

def LastChange.toParts : LastChange → UInt64 × UInt64
  | unknown => (0, 0)
  | exist ts versions _ _ => (ts, versions)
  | notExist => (0, 1)

def LastChange.fromParts (ts versions : UInt64) : Except ParseError LastChange :=
  if hts : ts = 0 then
    if 0 < versions then .ok .notExist else .ok .unknown
  else if hv : versions = 0 then .error (.panic "assertion failed: estimated_versions_to_last_change > 0")
  else .ok (.exist ts versions hts hv)

structure Fields where
  shortValue : Option ShortValue
  hasOverlappedRollback : Bool
  gcFence : Option UInt64
  lastChangeTs : UInt64
  versions : UInt64
  txnSource : UInt64
deriving DecidableEq

def shortValuePrefix : UInt8 := 0x76         -- b'v'
def flagOverlappedRollback : UInt8 := 0x52   -- b'R'
def gcFencePrefix : UInt8 := 0x46            -- b'F'
def lastChangePrefix : UInt8 := 0x6c         -- b'l'
def txnSourcePrefix : UInt8 := 0x53          -- b'S'

def parseField (tag : UInt8) (b : Bytes) (f : Fields) : Except ParseError (Option (Bytes × Fields)) :=
  if tag = shortValuePrefix then
    match b with
    | [] => .error .badFormatWrite
    | len :: b =>
      if b.length < len.toNat then
        .error (.panic s!"content len [{b.length}] shorter than short value len [{len.toNat}]")
      else
        .ok (some (b.drop len.toNat, { f with shortValue := some ⟨b.take len.toNat, length_take_toNat_le b len⟩ }))
  else if tag = flagOverlappedRollback then .ok (some (b, { f with hasOverlappedRollback := true }))
  else if tag = gcFencePrefix then do
    let (ts, b) ← (decodeU64 b).mapError .codec
    .ok (some (b, { f with gcFence := some ts }))
  else if tag = lastChangePrefix then do
    let (ts, b) ← (decodeU64 b).mapError .codec
    let (versions, b) ← (decodeVarU64 b).mapError .codec
    .ok (some (b, { f with lastChangeTs := ts, versions := versions }))
  else if tag = txnSourcePrefix then do
    let (source, b) ← (decodeVarU64 b).mapError .codec
    .ok (some (b, { f with txnSource := source }))
  else .ok none

/-- The loop of `parse`; each round takes a byte at least, so as many rounds as bytes are enough. -/
def parseLoop : Nat → Bytes → Fields → Except ParseError Fields
  | _, [], f => .ok f
  | 0, _ :: _, f => .ok f
  | n + 1, tag :: b, f => do
    match ← parseField tag b f with
    | none => .ok f
    | some (b, f) => parseLoop n b f

def Write.parse (bytes : Bytes) : Except ParseError Write :=
  match bytes with
  | [] => .error .badFormatWrite
  | tp :: b =>
    match WriteType.fromU8 tp with
    | none => .error .badFormatWrite
    | some writeType =>
      match readVarU64 b with
      | .error _ => .error .badFormatWrite
      | .ok (startTs, b) => do
        let f ← parseLoop b.length b ⟨none, false, none, 0, 0, 0⟩
        let lastChange ← LastChange.fromParts f.lastChangeTs f.versions
        .ok ⟨writeType, startTs, f.shortValue, f.hasOverlappedRollback, f.gcFence, lastChange, f.txnSource⟩

/-- `.ok()` on a parse: an error is no record, a panic stays one. -/
def recordOrPanic (r : Except ParseError Write) : Except String (Option Write) :=
  match r with
  | .ok w => .ok (some w)
  | .error (.panic message) => .error message
  | .error _ => .ok none

def shortValueBytes : Option ShortValue → Bytes
  | none => []
  | some v => shortValuePrefix :: UInt8.ofNat v.1.length :: v.1

def gcFenceBytes : Option UInt64 → Bytes
  | none => []
  | some ts => gcFencePrefix :: encodeU64 ts

def lastChangeBytes (lastChange : LastChange) : Bytes :=
  if lastChange = .unknown then []
  else lastChangePrefix :: (encodeU64 lastChange.toParts.1 ++ encodeVarU64 lastChange.toParts.2)

def txnSourceBytes (txnSource : UInt64) : Bytes :=
  if txnSource = 0 then [] else txnSourcePrefix :: encodeVarU64 txnSource

def Write.toBytes (w : Write) : Bytes :=
  w.writeType.toU8 :: (encodeVarU64 w.startTs ++ (shortValueBytes w.shortValue ++
    ((if w.hasOverlappedRollback then [flagOverlappedRollback] else []) ++
      (gcFenceBytes w.gcFence ++ (lastChangeBytes w.lastChange ++ txnSourceBytes w.txnSource)))))

/-! ## A record's bytes read back -/

theorem bind_ok {α β ε : Type} {r : Except ε α} {g : α → Except ε β} {b : β} (h : r >>= g = .ok b) :
    ∃ a, r = .ok a ∧ g a = .ok b := by
  cases r with
  | error e => cases h
  | ok a => exact ⟨a, rfl, h⟩

theorem mapError_ok {α ε ε' : Type} {r : Except ε α} {f : ε → ε'} {a : α} (h : r.mapError f = .ok a) : r = .ok a := by
  cases r with
  | error e => cases h
  | ok x => cases h; rfl

variable {tag : UInt8} {b b' rest : Bytes} {f f' : Fields}

theorem parseField_length (h : parseField tag b f = .ok (some (b', f'))) : b'.length ≤ b.length := by
  unfold parseField at h
  split at h
  · cases b with
    | nil => cases h
    | cons len b =>
      dsimp only at h
      split at h
      · cases h
      cases h
      rw [length_drop, length_cons]; omega
  · split at h
    · cases h; exact le_rfl
    split at h
    · obtain ⟨⟨ts, b₁⟩, h₁, h⟩ := bind_ok h
      cases h
      exact decodeU64_length (mapError_ok h₁)
    · split at h
      · obtain ⟨⟨ts, b₁⟩, h₁, h⟩ := bind_ok h
        obtain ⟨⟨versions, b₂⟩, h₂, h⟩ := bind_ok h
        cases h
        exact (decodeVarU64_length (mapError_ok h₂)).le.trans (decodeU64_length (mapError_ok h₁))
      · split at h
        · obtain ⟨⟨source, b₁⟩, h₁, h⟩ := bind_ok h
          cases h
          exact (decodeVarU64_length (mapError_ok h₁)).le
        · cases h

theorem parseLoop_eq : ∀ (n : Nat) (b : Bytes) (f : Fields), parseLoop n b f = tagLoop parseField n b f
  | _, [], _ => by rw [parseLoop, tagLoop]
  | 0, _ :: _, _ => by rw [parseLoop, tagLoop]
  | n + 1, tag :: b, f => by
    rw [parseLoop, tagLoop]
    cases parseField tag b f with
    | error e => rfl
    | ok r =>
      cases r with
      | none => rfl
      | some r => exact parseLoop_eq n r.1 r.2

def parseFields (b : Bytes) (f : Fields) : Except ParseError Fields := parseLoop b.length b f

theorem parseFields_eq : parseFields b f = readTagged parseField b f := parseLoop_eq _ b f

theorem parseFields_of_field (h : parseField tag b f = .ok (some (b', f'))) :
    parseFields (tag :: b) f = parseFields b' f' := by
  rw [parseFields_eq, parseFields_eq]
  exact readTagged_of_field parseField_length h

theorem parseFields_shortValue {v : Option ShortValue} (hf : f.shortValue = none) :
    parseFields (shortValueBytes v ++ rest) f = parseFields rest { f with shortValue := v } := by
  cases v with
  | none => cases f; cases hf; rfl
  | some v =>
    refine parseFields_of_field ?_
    have hlen : (UInt8.ofNat v.1.length).toNat = v.1.length := by
      rw [UInt8.toNat_ofNat']; omega
    unfold parseField
    simp [hlen]

theorem parseFields_overlapped {flag : Bool} (hf : f.hasOverlappedRollback = false) :
    parseFields ((if flag then [flagOverlappedRollback] else []) ++ rest) f =
      parseFields rest { f with hasOverlappedRollback := flag } := by
  cases flag with
  | false => cases f; cases hf; rfl
  | true => exact parseFields_of_field rfl

theorem parseFields_gcFence {fence : Option UInt64} (hf : f.gcFence = none) :
    parseFields (gcFenceBytes fence ++ rest) f = parseFields rest { f with gcFence := fence } := by
  cases fence with
  | none => cases f; cases hf; rfl
  | some ts =>
    refine parseFields_of_field ?_
    show ((decodeU64 (encodeU64 ts ++ rest)).mapError ParseError.codec >>= _) = _
    rw [decodeU64_encode]; rfl

theorem parseFields_lastChange {lastChange : LastChange} (hts : f.lastChangeTs = 0) (hv : f.versions = 0) :
    parseFields (lastChangeBytes lastChange ++ rest) f =
      parseFields rest { f with lastChangeTs := lastChange.toParts.1, versions := lastChange.toParts.2 } := by
  unfold lastChangeBytes
  split
  · rename_i h
    cases f; cases hts; cases hv; cases h; rfl
  refine parseFields_of_field ?_
  show ((decodeU64 (_ ++ _ ++ rest)).mapError ParseError.codec >>= _) = _
  rw [append_assoc, decodeU64_encode]
  show ((decodeVarU64 (_ ++ rest)).mapError ParseError.codec >>= _) = _
  rw [decodeVarU64_encode]; rfl

theorem parseFields_txnSource {source : UInt64} (hf : f.txnSource = 0) :
    parseFields (txnSourceBytes source ++ rest) f = parseFields rest { f with txnSource := source } := by
  unfold txnSourceBytes
  split
  · rename_i h
    cases f; cases hf; cases h; rfl
  refine parseFields_of_field ?_
  show ((decodeVarU64 (encodeVarU64 source ++ rest)).mapError ParseError.codec >>= _) = _
  rw [decodeVarU64_encode]; rfl

def fieldPrefixes : List UInt8 :=
  [shortValuePrefix, flagOverlappedRollback, gcFencePrefix, lastChangePrefix, txnSourcePrefix]

theorem parseFields_suffix {suffix : Bytes} (h : StartsWithout fieldPrefixes suffix) :
    parseFields suffix f = .ok f := by
  cases suffix with
  | nil => rfl
  | cons tag rest =>
    have htag : tag ∉ fieldPrefixes := h tag rfl
    rw [parseFields_eq]
    refine readTagged_of_unknown ?_
    simp only [fieldPrefixes, mem_cons, not_mem_nil, or_false, not_or] at htag
    unfold parseField
    rw [if_neg htag.1, if_neg htag.2.1, if_neg htag.2.2.1, if_neg htag.2.2.2.1, if_neg htag.2.2.2.2]

theorem fromU8_toU8 (t : WriteType) : WriteType.fromU8 t.toU8 = some t := by cases t <;> rfl

theorem fromParts_toParts (l : LastChange) : LastChange.fromParts l.toParts.1 l.toParts.2 = .ok l := by
  cases l with
  | unknown | notExist => rfl
  | exist ts versions hts hv =>
    unfold LastChange.fromParts LastChange.toParts
    rw [dif_neg hts, dif_neg hv]

/-- **`parse` reads every record's bytes back**, also before bytes that do not go on with a field. -/
theorem Write.parse_toBytes_append (w : Write) {suffix : Bytes} (h : StartsWithout fieldPrefixes suffix) :
    Write.parse (w.toBytes ++ suffix) = .ok w := by
  unfold Write.parse Write.toBytes
  simp only [cons_append, append_assoc]
  rw [fromU8_toU8, readVarU64_encode]
  change (parseFields _ _ >>= _) = _
  rw [parseFields_shortValue rfl, parseFields_overlapped rfl, parseFields_gcFence rfl,
    parseFields_lastChange rfl rfl, parseFields_txnSource rfl, parseFields_suffix h]
  change (LastChange.fromParts w.lastChange.toParts.1 w.lastChange.toParts.2 >>= _) = _
  rw [fromParts_toParts]; rfl

theorem Write.parse_toBytes (w : Write) : Write.parse w.toBytes = .ok w := by
  have hnil : StartsWithout fieldPrefixes [] := nofun
  have := w.parse_toBytes_append hnil
  rwa [append_nil] at this

/-! ## The size of a record -/

def maxVarU64Len : Nat := 10

def Write.preAllocateSize (w : Write) : Nat :=
  1 + maxVarU64Len + w.hasOverlappedRollback.toNat
    + w.shortValue.elim 0 (fun v => 2 + v.1.length)
    + (if w.gcFence.isSome then 1 + 8 else 0)
    + (if w.lastChange = .unknown then 0 else 1 + 8 + maxVarU64Len)
    + (if w.txnSource ≠ 0 then 1 + maxVarU64Len else 0)

theorem length_shortValueBytes (v : Option ShortValue) :
    (shortValueBytes v).length = v.elim 0 (fun v => 2 + v.1.length) := by
  cases v with
  | none => rfl
  | some v => simp only [shortValueBytes, length_cons, Option.elim_some]; omega

theorem length_lastChangeBytes (l : LastChange) :
    (lastChangeBytes l).length ≤ if l = .unknown then 0 else 1 + 8 + maxVarU64Len := by
  have := length_encodeVarU64 l.toParts.2
  unfold lastChangeBytes
  split
  · rfl
  simp only [length_cons, length_append, length_encodeU64, maxVarU64Len]
  omega

theorem length_txnSourceBytes (source : UInt64) :
    (txnSourceBytes source).length ≤ if source ≠ 0 then 1 + maxVarU64Len else 0 := by
  have := length_encodeVarU64 source
  unfold txnSourceBytes
  by_cases h : source = 0
  · simp [h]
  simp only [h, if_false, ne_eq, not_false_eq_true, if_true, length_cons, maxVarU64Len]
  omega

theorem Write.length_toBytes (w : Write) : w.toBytes.length ≤ w.preAllocateSize := by
  have hts := length_encodeVarU64 w.startTs
  have hshort := length_shortValueBytes w.shortValue
  have hlast := length_lastChangeBytes w.lastChange
  have hsource := length_txnSourceBytes w.txnSource
  have hflag : (if w.hasOverlappedRollback then [flagOverlappedRollback] else []).length =
      w.hasOverlappedRollback.toNat := by cases w.hasOverlappedRollback <;> rfl
  have hfence : (gcFenceBytes w.gcFence).length = if w.gcFence.isSome then 1 + 8 else 0 := by
    cases w.gcFence with
    | none => rfl
    | some ts => simp [gcFenceBytes]
  unfold Write.toBytes Write.preAllocateSize
  rw [length_cons, length_append, length_append, length_append, length_append, length_append]
  unfold maxVarU64Len at *
  omega

end Txn
end Tikv
