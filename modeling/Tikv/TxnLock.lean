import Mathlib.Algebra.Order.BigOperators.Group.List
import Tikv.LibDelimited
import Tikv.MvccKey
/-!
# TxnLock — the records of the lock column family (`txn_types::lock`)

A lock's bytes are the type, the primary, two timestamps and then the optional fields under their tags.  Everything of a
lock is read back, except that the number of secondaries goes through an `i32`: `parse` gives a lock with fewer than 2^31 of
them (`length_secondaries_parse`), so `parse_toBytes_append` has that bound.
-/
namespace Tikv
namespace Txn

open Lib Codec List UInt64
open Mvcc (LockType)

/-! ## Compact bytes (`codec::bytes`) -/

def encodeVarI64 (v : Int64) : Bytes :=
  let vx := v.toUInt64 <<< 1
  encodeVarU64 (if v < 0 then ~~~ vx else vx)

def decodeVarI64 (data : Bytes) : Except CodecError (Int64 × Bytes) :=
  (decodeVarU64 data).map fun (v, data) =>
    (if v &&& 1 = 0 then (v >>> 1).toInt64 else (~~~ (v >>> 1)).toInt64, data)

def encodeCompactBytes (data : Bytes) : Bytes := encodeVarI64 (Int64.ofNat data.length) ++ data

def decodeCompactBytes (data : Bytes) : Except CodecError (Bytes × Bytes) :=
  match decodeVarI64 data with
  | .error e => .error e
  | .ok (vn, data) =>
    let vn := vn.toUInt64.toNat  -- `as usize`
    if vn ≤ data.length then .ok (data.take vn, data.drop vn) else .error .unexpectedEof

variable {n : Nat}

theorem encodeVarI64_ofNat (h : n < 2 ^ 63) : encodeVarI64 (Int64.ofNat n) = encodeVarU64 (ofNat (2 * n)) := by
  have hneg : ¬ Int64.ofNat n < 0 := by
    rw [Int64.lt_iff_toInt_lt, Int64.toInt_ofNat_of_lt h]
    exact Int.not_lt.2 (Int.natCast_nonneg n)
  have hshift : (Int64.ofNat n).toUInt64 <<< 1 = ofNat (2 * n) := by
    apply UInt64.toNat_inj.1
    have : (Int64.ofNat n).toUInt64 = ofNat n := rfl
    rw [this, UInt64.toNat_shiftLeft, toNat_ofNat', toNat_ofNat', Nat.shiftLeft_eq]
    show n % 2 ^ 64 * 2 ^ 1 % 2 ^ 64 = _
    omega
  unfold encodeVarI64
  simp only [hneg, if_false, hshift]

theorem decodeVarI64_encode (h : n < 2 ^ 63) (rest : Bytes) :
    ∃ v, decodeVarI64 (encodeVarI64 (Int64.ofNat n) ++ rest) = .ok (v, rest) ∧ v.toUInt64.toNat = n := by
  have heven : ofNat (2 * n) &&& 1 = 0 := by
    apply UInt64.toNat_inj.1
    rw [UInt64.toNat_and, toNat_ofNat']
    refine (Nat.and_two_pow_sub_one_eq_mod _ 1).trans ?_
    show _ = 0
    omega
  refine ⟨(ofNat (2 * n) >>> 1).toInt64, ?_, ?_⟩
  · rw [encodeVarI64_ofNat h]
    unfold decodeVarI64
    rw [decodeVarU64_encode]
    simp only [Except.map, heven, if_true]
  · show 2 * n % 2 ^ 64 / 2 ^ 1 = n
    omega

variable {data rest : Bytes}

theorem decodeCompactBytes_encode (h : data.length < 2 ^ 63) :
    decodeCompactBytes (encodeCompactBytes data ++ rest) = .ok (data, rest) := by
  obtain ⟨v, hdec, hv⟩ := decodeVarI64_encode h (data ++ rest)
  unfold decodeCompactBytes encodeCompactBytes
  rw [append_assoc, hdec]
  simp [hv]

theorem decodeVarI64_length {v : Int64} (h : decodeVarI64 data = .ok (v, rest)) : rest.length < data.length := by
  unfold decodeVarI64 at h
  cases hvar : decodeVarU64 data with
  | error e => rw [hvar] at h; cases h
  | ok r =>
    rw [hvar] at h
    obtain ⟨_, rfl⟩ := Prod.mk.inj (Except.ok.inj h)
    exact decodeVarU64_length hvar

theorem decodeCompactBytes_length {bs : Bytes} (h : decodeCompactBytes data = .ok (bs, rest)) :
    rest.length ≤ data.length := by
  unfold decodeCompactBytes at h
  split at h
  · cases h
  rename_i vn data' hdec
  have hlen := decodeVarI64_length hdec
  dsimp only at h
  split at h
  · cases h
    rw [length_drop]; omega
  · cases h

theorem length_encodeCompactBytes (data : Bytes) : (encodeCompactBytes data).length ≤ 10 + data.length := by
  have hvar : (encodeVarI64 (Int64.ofNat data.length)).length ≤ 10 := length_encodeVarU64 _
  unfold encodeCompactBytes
  rw [length_append]; omega

/-! ## Locks -/

def LockType.fromU8 (b : UInt8) : Option LockType :=
  if b = 0x50 then some .put               -- b'P'
  else if b = 0x44 then some .delete       -- b'D'
  else if b = 0x4c then some .lock         -- b'L'
  else if b = 0x53 then some .pessimistic  -- b'S'
  else none

def LockType.toU8 : LockType → UInt8
  | .put => 0x50
  | .delete => 0x44
  | .lock => 0x4c
  | .pessimistic => 0x53

structure Lock where
  lockType : LockType
  primary : Bytes
  ts : UInt64
  ttl : UInt64
  shortValue : Option ShortValue
  forUpdateTs : UInt64
  txnSize : UInt64
  minCommitTs : UInt64
  useAsyncCommit : Bool
  useOnePc : Bool
  secondaries : List Bytes
  rollbackTs : List UInt64
  lastChange : LastChange
  txnSource : UInt64
  isLockedWithConflict : Bool
  generation : UInt64
deriving DecidableEq

open Lock

def forUpdateTsPrefix : UInt8 := 0x66                  -- b'f'
def txnSizePrefix : UInt8 := 0x74                      -- b't'
def minCommitTsPrefix : UInt8 := 0x63                  -- b'c'
def asyncCommitPrefix : UInt8 := 0x61                  -- b'a'
def rollbackTsPrefix : UInt8 := 0x72                   -- b'r'
def lockTxnSourcePrefix : UInt8 := 0x73                -- b's'
def pessimisticLockWithConflictPrefix : UInt8 := 0x46  -- b'F'
def generationPrefix : UInt8 := 0x67                   -- b'g'

/-! ### Writing -/

def u64FieldBytes (tag : UInt8) (v : UInt64) : Bytes := if v = 0 then [] else tag :: encodeU64 v

def secondariesBytes (useAsyncCommit : Bool) (secondaries : List Bytes) : Bytes :=
  if useAsyncCommit then
    asyncCommitPrefix :: (encodeVarU64 (UInt64.ofNat secondaries.length) ++ secondaries.flatMap encodeCompactBytes)
  else []

def rollbackTsBytes (rollbackTs : List UInt64) : Bytes :=
  if rollbackTs.isEmpty then []
  else rollbackTsPrefix :: (encodeVarU64 (UInt64.ofNat rollbackTs.length) ++ rollbackTs.flatMap encodeU64)

def lockTxnSourceBytes (txnSource : UInt64) : Bytes :=
  if txnSource = 0 then [] else lockTxnSourcePrefix :: encodeVarU64 txnSource

def conflictBytes (isLockedWithConflict : Bool) : Bytes :=
  if isLockedWithConflict then [pessimisticLockWithConflictPrefix] else []

def Lock.toBytes (l : Lock) : Bytes :=
  LockType.toU8 l.lockType :: (encodeCompactBytes l.primary ++ (encodeVarU64 l.ts ++ (encodeVarU64 l.ttl ++
    (shortValueBytes l.shortValue ++ (u64FieldBytes forUpdateTsPrefix l.forUpdateTs ++
    (u64FieldBytes txnSizePrefix l.txnSize ++ (u64FieldBytes minCommitTsPrefix l.minCommitTs ++
    (secondariesBytes l.useAsyncCommit l.secondaries ++ (rollbackTsBytes l.rollbackTs ++
    (lastChangeBytes l.lastChange ++ (lockTxnSourceBytes l.txnSource ++ (conflictBytes l.isLockedWithConflict ++
    u64FieldBytes generationPrefix l.generation))))))))))))

def maxVarI64Len : Nat := 10

def Lock.preAllocateSize (l : Lock) : Nat :=
  1 + maxVarI64Len + l.primary.length + maxVarU64Len * 2
    + l.shortValue.elim 0 (fun v => 2 + v.1.length)
    + (if l.forUpdateTs ≠ 0 then 1 + 8 else 0)
    + (if l.txnSize ≠ 0 then 1 + 8 else 0)
    + (if l.minCommitTs ≠ 0 then 1 + 8 else 0)
    + (if l.useAsyncCommit then 1 + maxVarU64Len + (l.secondaries.map fun k => maxVarI64Len + k.length).sum else 0)
    + (if l.rollbackTs.isEmpty then 0 else 1 + maxVarU64Len + 8 * l.rollbackTs.length)
    + (if l.lastChange = .unknown then 0 else 1 + 8 + maxVarU64Len)
    + (if l.txnSource ≠ 0 then 1 + maxVarU64Len else 0)
    + l.isLockedWithConflict.toNat
    + (if l.generation ≠ 0 then 1 + 8 else 0)

/-! ### Reading -/

/-- Why a lock was not read: its type, an end of the bytes, a number or compact bytes, or a panic. -/
inductive LockParseError
  | badFormatLock
  | io
  | codec (e : CodecError)
  | panic (message : String)
deriving DecidableEq, Repr

structure LockFields where
  shortValue : Option ShortValue
  forUpdateTs : UInt64
  txnSize : UInt64
  minCommitTs : UInt64
  useAsyncCommit : Bool
  secondaries : List Bytes
  rollbackTs : List UInt64
  lastChangeTs : UInt64
  versions : UInt64
  txnSource : UInt64
  isLockedWithConflict : Bool
  generation : UInt64
deriving DecidableEq

def LockFields.empty : LockFields := ⟨none, 0, 0, 0, false, [], [], 0, 0, 0, false, 0⟩

/-- The rounds of `0..len` in `parse`, where `len` is `decode_var_u64(..)? as _`: nothing but the literal gives the range a
type, so it is `i32`, and a count is cut to 32 bits and may be negative. -/
def secondariesCount (len : UInt64) : Nat :=
  if len.toNat % 2 ^ 32 < 2 ^ 31 then len.toNat % 2 ^ 32 else 0

def readU64 (b : Bytes) (set : UInt64 → LockFields) : Except LockParseError (Option (Bytes × LockFields)) :=
  match decodeU64 b with
  | .error e => .error (.codec e)
  | .ok (v, b) => .ok (some (b, set v))

def readVar (b : Bytes) (set : UInt64 → LockFields) : Except LockParseError (Option (Bytes × LockFields)) :=
  match decodeVarU64 b with
  | .error e => .error (.codec e)
  | .ok (v, b) => .ok (some (b, set v))

def readShortValue (b : Bytes) (f : LockFields) : Except LockParseError (Option (Bytes × LockFields)) :=
  match b with
  | [] => .error .io
  | len :: b =>
    if b.length < len.toNat then
      .error (.panic s!"content len [{b.length}] shorter than short value len [{len.toNat}]")
    else .ok (some (b.drop len.toNat, { f with shortValue := some ⟨b.take len.toNat, length_take_toNat_le b len⟩ }))

def readSecondaries (b : Bytes) (f : LockFields) : Except LockParseError (Option (Bytes × LockFields)) :=
  match decodeVarU64 b with
  | .error e => .error (.codec e)
  | .ok (len, b) =>
    match readMany decodeCompactBytes (secondariesCount len) b with
    | .error e => .error (.codec e)
    | .ok (secondaries, b) => .ok (some (b, { f with useAsyncCommit := true, secondaries }))

/-- Room for one more timestamp is allocated, the sum wrapping around; a `Vec` has at most `isize::MAX` bytes. -/
def readRollbackTs (b : Bytes) (f : LockFields) : Except LockParseError (Option (Bytes × LockFields)) :=
  match decodeVarU64 b with
  | .error e => .error (.codec e)
  | .ok (len, b) =>
    if 2 ^ 63 ≤ (len.toNat + 1) % 2 ^ 64 * 8 then .error (.panic "capacity overflow")
    else
      match readMany decodeU64 len.toNat b with
      | .error e => .error (.codec e)
      | .ok (rollbackTs, b) => .ok (some (b, { f with rollbackTs }))

def readLastChange (b : Bytes) (f : LockFields) : Except LockParseError (Option (Bytes × LockFields)) :=
  match decodeU64 b with
  | .error e => .error (.codec e)
  | .ok (ts, b) => readVar b fun versions => { f with lastChangeTs := ts, versions }

def parseLockField (tag : UInt8) (b : Bytes) (f : LockFields) : Except LockParseError (Option (Bytes × LockFields)) :=
  if tag = shortValuePrefix then readShortValue b f
  else if tag = forUpdateTsPrefix then readU64 b fun ts => { f with forUpdateTs := ts }
  else if tag = txnSizePrefix then readU64 b fun size => { f with txnSize := size }
  else if tag = minCommitTsPrefix then readU64 b fun ts => { f with minCommitTs := ts }
  else if tag = asyncCommitPrefix then readSecondaries b f
  else if tag = rollbackTsPrefix then readRollbackTs b f
  else if tag = lastChangePrefix then readLastChange b f
  else if tag = lockTxnSourcePrefix then readVar b fun source => { f with txnSource := source }
  else if tag = pessimisticLockWithConflictPrefix then .ok (some (b, { f with isLockedWithConflict := true }))
  else if tag = generationPrefix then readU64 b fun generation => { f with generation }
  else .ok none

/-- The lock of what was read; secondaries are set by `use_async_commit` only. -/
def LockFields.lock (f : LockFields) (lockType : LockType) (primary : Bytes) (ts ttl : UInt64) (lastChange : LastChange) :
    Lock where
  lockType := lockType
  primary := primary
  ts := ts
  ttl := ttl
  shortValue := f.shortValue
  forUpdateTs := f.forUpdateTs
  txnSize := f.txnSize
  minCommitTs := f.minCommitTs
  useAsyncCommit := f.useAsyncCommit
  useOnePc := false
  secondaries := if f.useAsyncCommit then f.secondaries else []
  rollbackTs := f.rollbackTs
  lastChange := lastChange
  txnSource := f.txnSource
  isLockedWithConflict := f.isLockedWithConflict
  generation := f.generation

def parseRest (lockType : LockType) (primary : Bytes) (ts ttl : UInt64) (b : Bytes) : Except LockParseError Lock :=
  if b.isEmpty then .ok (LockFields.empty.lock lockType primary ts ttl .unknown)
  else
    match readTagged parseLockField b .empty with
    | .error e => .error e
    | .ok f =>
      match LastChange.fromParts f.lastChangeTs f.versions with
      | .error _ => .error (.panic "assertion failed: estimated_versions_to_last_change > 0")
      | .ok lastChange => .ok (f.lock lockType primary ts ttl lastChange)

def parseTtl (b : Bytes) : Except CodecError (UInt64 × Bytes) := if b.isEmpty then .ok (0, b) else decodeVarU64 b

def Lock.parse : Bytes → Except LockParseError Lock
  | [] => .error .badFormatLock
  | tp :: b =>
    match LockType.fromU8 tp with
    | none => .error .badFormatLock
    | some lockType =>
      match decodeCompactBytes b with
      | .error e => .error (.codec e)
      | .ok (primary, b) =>
        match decodeVarU64 b with
        | .error e => .error (.codec e)
        | .ok (ts, b) =>
          match parseTtl b with
          | .error e => .error (.codec e)
          | .ok (ttl, b) => parseRest lockType primary ts ttl b

/-! ## What `parse` can return -/

/-- What reading a field can do: it takes bytes, and the secondaries are as before or fewer than 2^31. -/
def Keeps (b : Bytes) (f : LockFields) (r : Except LockParseError (Option (Bytes × LockFields))) : Prop :=
  ∀ b' f', r = .ok (some (b', f')) →
    b'.length ≤ b.length ∧ (f'.secondaries = f.secondaries ∨ f'.secondaries.length < 2 ^ 31)

variable {b : Bytes} {f : LockFields}

theorem Keeps.ite {c : Prop} [Decidable c]
    {r r' : Except LockParseError (Option (Bytes × LockFields))} (h : Keeps b f r) (h' : Keeps b f r') :
    Keeps b f (if c then r else r') := by
  by_cases hc : c
  · rwa [if_pos hc]
  · rwa [if_neg hc]

variable {set : UInt64 → LockFields}

section

variable (hset : ∀ v, (set v).secondaries = f.secondaries)
include hset

theorem keeps_readU64 : Keeps b f (readU64 b set) := by
  intro b' f' h
  unfold readU64 at h
  split at h
  · cases h
  rename_i v b₁ hdec
  cases h
  exact ⟨decodeU64_length hdec, .inl (hset v)⟩

theorem keeps_readVar : Keeps b f (readVar b set) := by
  intro b' f' h
  unfold readVar at h
  split at h
  · cases h
  rename_i v b₁ hdec
  cases h
  exact ⟨(decodeVarU64_length hdec).le, .inl (hset v)⟩

end

theorem keeps_readShortValue : Keeps b f (readShortValue b f) := by
  intro b' f' h
  unfold readShortValue at h
  split at h
  · cases h
  split at h
  · cases h
  cases h
  refine ⟨?_, .inl rfl⟩
  rw [length_drop, length_cons]; omega

theorem secondariesCount_lt (len : UInt64) : secondariesCount len < 2 ^ 31 := by
  unfold secondariesCount
  split
  · assumption
  · exact Nat.two_pow_pos 31

theorem keeps_readSecondaries : Keeps b f (readSecondaries b f) := by
  intro b' f' h
  unfold readSecondaries at h
  split at h
  · cases h
  rename_i len b₁ hlen
  split at h
  · cases h
  rename_i secondaries b₂ hmany
  cases h
  obtain ⟨hle, hcount⟩ := readMany_length decodeCompactBytes_length hmany
  exact ⟨hle.trans (decodeVarU64_length hlen).le, .inr (hcount.trans_lt (secondariesCount_lt len))⟩

theorem keeps_readRollbackTs : Keeps b f (readRollbackTs b f) := by
  intro b' f' h
  unfold readRollbackTs at h
  split at h
  · cases h
  rename_i len b₁ hlen
  split at h
  · cases h
  split at h
  · cases h
  rename_i rollbackTs b₂ hmany
  cases h
  exact ⟨(readMany_length decodeU64_length hmany).1.trans (decodeVarU64_length hlen).le, .inl rfl⟩

theorem keeps_readLastChange : Keeps b f (readLastChange b f) := by
  intro b' f' h
  unfold readLastChange at h
  split at h
  · cases h
  rename_i ts b₁ hdec
  have hkeeps : Keeps b₁ f (readVar b₁ fun versions => { f with lastChangeTs := ts, versions }) :=
    keeps_readVar fun _ => rfl
  obtain ⟨hle, hsec⟩ := hkeeps b' f' h
  exact ⟨hle.trans (decodeU64_length hdec), hsec⟩

theorem keeps_parseLockField (tag : UInt8) : Keeps b f (parseLockField tag b f) := by
  refine .ite keeps_readShortValue (.ite (keeps_readU64 fun _ => rfl) (.ite (keeps_readU64 fun _ => rfl) ?_))
  refine .ite (keeps_readU64 fun _ => rfl) (.ite keeps_readSecondaries (.ite keeps_readRollbackTs ?_))
  refine .ite keeps_readLastChange (.ite (keeps_readVar fun _ => rfl) (.ite ?_ (.ite (keeps_readU64 fun _ => rfl) nofun)))
  intro b' f' h
  cases h
  exact ⟨le_rfl, .inl rfl⟩

theorem shortens_parseLockField : Shortens parseLockField := fun h => (keeps_parseLockField _ _ _ h).1

variable {l : Lock}

theorem length_secondaries_parse {bytes : Bytes} (h : parse bytes = .ok l) : l.secondaries.length < 2 ^ 31 := by
  have hrest {lockType : LockType} {primary b : Bytes} {ts ttl : UInt64}
      (h : parseRest lockType primary ts ttl b = .ok l) : l.secondaries.length < 2 ^ 31 := by
    unfold parseRest at h
    split at h
    · cases h
      exact Nat.two_pow_pos 31
    split at h
    · cases h
    rename_i f hf
    split at h
    · cases h
    cases h
    have hbound : f.secondaries.length < 2 ^ 31 := by
      refine tagLoop_invariant (I := fun f : LockFields => f.secondaries.length < 2 ^ 31) ?_ (by decide) hf
      intro tag b b' f f' hI hfield
      rcases (keeps_parseLockField _ _ _ hfield).2 with heq | hlt
      · rw [heq]; exact hI
      · exact hlt
    show (if f.useAsyncCommit then f.secondaries else []).length < 2 ^ 31
    split
    · exact hbound
    · decide
  unfold parse at h
  split at h
  · cases h
  split at h
  · cases h
  split at h
  · cases h
  split at h
  · cases h
  split at h
  · cases h
  · exact hrest h

/-! ## A lock's bytes read back -/

/-- What `to_bytes` writes out whole: no one-phase commit, secondaries only for async commit, and a buffer that a `Vec` can
have, which is at most `isize::MAX` bytes. -/
structure Lock.Storable (l : Lock) : Prop where
  useOnePc : l.useOnePc = false
  secondaries : l.useAsyncCommit = false → l.secondaries = []
  capacity : l.preAllocateSize < 2 ^ 63

variable {tag : UInt8} {v : UInt64} {useAsyncCommit flag : Bool} {rollbackTs : List UInt64}

theorem read_of_field {b' : Bytes} {f' : LockFields} (h : parseLockField tag b f = .ok (some (b', f'))) :
    readTagged parseLockField (tag :: b) f = readTagged parseLockField b' f' :=
  readTagged_of_field shortens_parseLockField h

theorem read_shortValue {v : Option ShortValue} (hf : f.shortValue = none) :
    readTagged parseLockField (shortValueBytes v ++ rest) f =
      readTagged parseLockField rest { f with shortValue := v } := by
  cases v with
  | none => cases f; cases hf; rfl
  | some v =>
    refine read_of_field ?_
    have hlen : (UInt8.ofNat v.1.length).toNat = v.1.length := by
      rw [UInt8.toNat_ofNat']; omega
    unfold parseLockField
    simp [readShortValue, hlen]

theorem read_u64Field (hfield : ∀ b, parseLockField tag b f = readU64 b set) (hzero : set 0 = f) :
    readTagged parseLockField (u64FieldBytes tag v ++ rest) f = readTagged parseLockField rest (set v) := by
  unfold u64FieldBytes
  by_cases hv : v = 0
  · rw [hv, hzero]; rfl
  rw [if_neg hv, cons_append]
  refine read_of_field ?_
  rw [hfield]
  unfold readU64
  rw [decodeU64_encode]

theorem toNat_ofNat_length (h : n < 2 ^ 63) : (ofNat n).toNat = n := by
  rw [toNat_ofNat']; omega

variable {secondaries : List Bytes}

theorem read_secondaries (hf : f.useAsyncCommit = false ∧ f.secondaries = [])
    (hsec : useAsyncCommit = false → secondaries = []) (hcount : secondaries.length < 2 ^ 31)
    (hlen : ∀ k ∈ secondaries, k.length < 2 ^ 63) :
    readTagged parseLockField (secondariesBytes useAsyncCommit secondaries ++ rest) f =
      readTagged parseLockField rest { f with useAsyncCommit, secondaries } := by
  cases useAsyncCommit with
  | false =>
    rw [hsec rfl]
    cases f; cases hf.1; cases hf.2; rfl
  | true =>
    have hn : secondariesCount (ofNat secondaries.length) = secondaries.length := by
      unfold secondariesCount
      rw [toNat_ofNat_length (by omega), if_pos (by omega)]
      omega
    have hmany := readMany_encode rest secondaries fun k hk _ => decodeCompactBytes_encode (hlen k hk)
    unfold secondariesBytes
    rw [if_pos rfl, cons_append, append_assoc]
    refine read_of_field ?_
    show readSecondaries _ _ = _
    unfold readSecondaries
    rw [decodeVarU64_encode]
    dsimp only
    rw [hn, hmany]

theorem read_rollbackTs (hf : f.rollbackTs = []) (hlen : (rollbackTs.length + 1) * 8 < 2 ^ 63) :
    readTagged parseLockField (rollbackTsBytes rollbackTs ++ rest) f =
      readTagged parseLockField rest { f with rollbackTs } := by
  unfold rollbackTsBytes
  by_cases hnil : rollbackTs = []
  · rw [hnil]
    cases f; cases hf; rfl
  have hmany := readMany_encode rest rollbackTs fun ts _ => decodeU64_encode ts
  rw [if_neg (by simpa using hnil), cons_append, append_assoc]
  refine read_of_field ?_
  show readRollbackTs _ _ = _
  unfold readRollbackTs
  rw [decodeVarU64_encode]
  dsimp only
  rw [toNat_ofNat_length (by omega), if_neg (by omega), hmany]

theorem read_lastChange {lastChange : LastChange} (hf : f.lastChangeTs = 0 ∧ f.versions = 0) :
    readTagged parseLockField (lastChangeBytes lastChange ++ rest) f =
      readTagged parseLockField rest
        { f with lastChangeTs := lastChange.toParts.1, versions := lastChange.toParts.2 } := by
  unfold lastChangeBytes
  by_cases hunknown : lastChange = .unknown
  · rw [hunknown]
    cases f; cases hf.1; cases hf.2; rfl
  rw [if_neg hunknown, cons_append, append_assoc]
  refine read_of_field ?_
  rw [show ∀ b, parseLockField lastChangePrefix b f = readLastChange b f from fun _ => rfl]
  unfold readLastChange readVar
  rw [decodeU64_encode]
  dsimp only
  rw [decodeVarU64_encode]

theorem read_txnSource {source : UInt64} (hf : f.txnSource = 0) :
    readTagged parseLockField (lockTxnSourceBytes source ++ rest) f =
      readTagged parseLockField rest { f with txnSource := source } := by
  unfold lockTxnSourceBytes
  by_cases hzero : source = 0
  · rw [hzero]
    cases f; cases hf; rfl
  rw [if_neg hzero, cons_append]
  refine read_of_field ?_
  show readVar _ _ = _
  unfold readVar
  rw [decodeVarU64_encode]

theorem read_conflict (hf : f.isLockedWithConflict = false) : readTagged parseLockField (conflictBytes flag ++ rest) f =
      readTagged parseLockField rest { f with isLockedWithConflict := flag } := by
  cases flag with
  | false => cases f; cases hf; rfl
  | true => exact read_of_field rfl

def lockFieldPrefixes : List UInt8 :=
  [shortValuePrefix, forUpdateTsPrefix, txnSizePrefix, minCommitTsPrefix, asyncCommitPrefix, rollbackTsPrefix,
    lastChangePrefix, lockTxnSourcePrefix, pessimisticLockWithConflictPrefix, generationPrefix]

variable {suffix : Bytes}

theorem read_suffix (h : StartsWithout lockFieldPrefixes suffix) : readTagged parseLockField suffix f = .ok f := by
  cases suffix with
  | nil => rfl
  | cons tag rest =>
    have htag : tag ∉ lockFieldPrefixes := h tag rfl
    refine readTagged_of_unknown ?_
    simp only [lockFieldPrefixes, mem_cons, not_or] at htag
    unfold parseLockField
    simp [htag]

def Lock.toFields (l : Lock) : LockFields where
  shortValue := l.shortValue
  forUpdateTs := l.forUpdateTs
  txnSize := l.txnSize
  minCommitTs := l.minCommitTs
  useAsyncCommit := l.useAsyncCommit
  secondaries := l.secondaries
  rollbackTs := l.rollbackTs
  lastChangeTs := l.lastChange.toParts.1
  versions := l.lastChange.toParts.2
  txnSource := l.txnSource
  isLockedWithConflict := l.isLockedWithConflict
  generation := l.generation

theorem length_le_sum {k : Bytes} (h : k ∈ secondaries) :
    k.length ≤ (secondaries.map fun k => maxVarI64Len + k.length).sum := by
  have hle : maxVarI64Len + k.length ≤ (secondaries.map fun k => maxVarI64Len + k.length).sum :=
    le_sum_of_mem (mem_map.2 ⟨k, h, rfl⟩)
  omega

section

variable (h : l.Storable)
include h

theorem Lock.Storable.length_secondary : ∀ k ∈ l.secondaries, k.length < 2 ^ 63 := by
  intro k hk
  have hcap := h.capacity
  have hle := length_le_sum hk
  unfold preAllocateSize at hcap
  by_cases hasync : l.useAsyncCommit = true
  · rw [if_pos hasync] at hcap
    omega
  rw [h.secondaries (Bool.eq_false_iff.2 hasync)] at hk
  cases hk

theorem Lock.Storable.length_rollbackTs : (l.rollbackTs.length + 1) * 8 < 2 ^ 63 := by
  have hcap := h.capacity
  unfold preAllocateSize at hcap
  cases hr : l.rollbackTs with
  | nil => decide
  | cons ts rest =>
    rw [hr, if_neg (c := isEmpty _ = true) (by simp)] at hcap
    unfold maxVarU64Len at hcap
    omega

theorem read_toBytes (hcount : l.secondaries.length < 2 ^ 31) (hsuffix : StartsWithout lockFieldPrefixes suffix) :
    readTagged parseLockField (shortValueBytes l.shortValue ++ (u64FieldBytes forUpdateTsPrefix l.forUpdateTs ++
      (u64FieldBytes txnSizePrefix l.txnSize ++ (u64FieldBytes minCommitTsPrefix l.minCommitTs ++
      (secondariesBytes l.useAsyncCommit l.secondaries ++ (rollbackTsBytes l.rollbackTs ++
      (lastChangeBytes l.lastChange ++ (lockTxnSourceBytes l.txnSource ++ (conflictBytes l.isLockedWithConflict ++
      (u64FieldBytes generationPrefix l.generation ++ suffix)))))))))) .empty = .ok l.toFields := by
  rw [read_shortValue rfl]
  refine (read_u64Field (fun _ => rfl) (by rfl)).trans ?_
  refine (read_u64Field (fun _ => rfl) (by rfl)).trans ?_
  refine (read_u64Field (fun _ => rfl) (by rfl)).trans ?_
  rw [read_secondaries ⟨rfl, rfl⟩ h.secondaries hcount h.length_secondary,
    read_rollbackTs rfl h.length_rollbackTs, read_lastChange ⟨rfl, rfl⟩, read_txnSource rfl, read_conflict rfl]
  exact (read_u64Field (fun _ => rfl) (by rfl)).trans (read_suffix hsuffix)

theorem lock_toFields : l.toFields.lock l.lockType l.primary l.ts l.ttl l.lastChange = l := by
  have hone := h.useOnePc
  have hsec : (if l.useAsyncCommit then l.secondaries else []) = l.secondaries := by
    by_cases hasync : l.useAsyncCommit = true
    · rw [if_pos hasync]
    · rw [if_neg hasync, h.secondaries (Bool.eq_false_iff.2 hasync)]
  unfold LockFields.lock toFields
  rw [hsec, ← hone]

end

theorem lockType_fromU8_toU8 (t : LockType) : LockType.fromU8 (LockType.toU8 t) = some t := by cases t <;> rfl

theorem parseTtl_encode {ttl : UInt64} : parseTtl (encodeVarU64 ttl ++ rest) = .ok (ttl, rest) := by
  have hdec := decodeVarU64_encode ttl rest
  unfold parseTtl
  split
  · rename_i hempty
    rw [isEmpty_iff.1 hempty] at hdec
    cases hdec
  · exact hdec

/-- **`parse` reads every lock's bytes back**, also before bytes that do not go on with a field, if the secondaries can be
counted in an `i32`. -/
theorem Lock.parse_toBytes_append (h : l.Storable) (hcount : l.secondaries.length < 2 ^ 31)
    (hsuffix : StartsWithout lockFieldPrefixes suffix) : parse (l.toBytes ++ suffix) = .ok l := by
  have hprimary : l.primary.length < 2 ^ 63 := by
    have hcap := h.capacity
    unfold preAllocateSize at hcap
    omega
  have hread := read_toBytes h hcount hsuffix
  unfold toBytes parse
  simp only [cons_append, append_assoc]
  rw [lockType_fromU8_toU8, decodeCompactBytes_encode hprimary]
  dsimp only
  rw [decodeVarU64_encode]
  dsimp only
  rw [parseTtl_encode]
  dsimp only
  unfold parseRest
  split
  · -- nothing follows the timestamps, and the loop would have said the same
    rename_i hempty
    rw [isEmpty_iff.1 hempty] at hread
    have heq : l.toFields = .empty := (Except.ok.inj hread).symm
    have hlast : l.lastChange = .unknown := by
      have hparts := fromParts_toParts l.lastChange
      have hts : l.lastChange.toParts.1 = 0 := congrArg LockFields.lastChangeTs heq
      have hv : l.lastChange.toParts.2 = 0 := congrArg LockFields.versions heq
      rw [hts, hv] at hparts
      exact (Except.ok.inj hparts).symm
    rw [← heq, ← hlast, lock_toFields h]
  · rw [hread]
    dsimp only
    rw [show LastChange.fromParts l.toFields.lastChangeTs l.toFields.versions = .ok l.lastChange from
      fromParts_toParts l.lastChange]
    dsimp only
    rw [lock_toFields h]

/-! ## The size of a lock -/

theorem length_u64FieldBytes : (u64FieldBytes tag v).length = if v ≠ 0 then 1 + 8 else 0 := by
  unfold u64FieldBytes
  by_cases hv : v = 0
  · simp [hv]
  · simp [hv]

theorem length_secondariesBytes (useAsyncCommit : Bool) (secondaries : List Bytes) :
    (secondariesBytes useAsyncCommit secondaries).length ≤
      if useAsyncCommit then 1 + maxVarU64Len + (secondaries.map fun k => maxVarI64Len + k.length).sum else 0 := by
  have hkeys : ∀ keys : List Bytes,
      (keys.flatMap encodeCompactBytes).length ≤ (keys.map fun k => maxVarI64Len + k.length).sum := by
    intro keys
    induction keys with
    | nil => exact le_rfl
    | cons k keys ih =>
      rw [flatMap_cons, length_append]
      exact Nat.add_le_add (length_encodeCompactBytes k) ih
  have hlen := length_encodeVarU64 (ofNat secondaries.length)
  have := hkeys secondaries
  unfold secondariesBytes
  cases useAsyncCommit with
  | false => exact le_rfl
  | true =>
    simp only [if_true, length_cons, length_append, maxVarU64Len]
    omega

theorem length_rollbackTsBytes (rollbackTs : List UInt64) : (rollbackTsBytes rollbackTs).length ≤
      if rollbackTs.isEmpty then 0 else 1 + maxVarU64Len + 8 * rollbackTs.length := by
  have hts : (rollbackTs.flatMap encodeU64).length = 8 * rollbackTs.length := by
    induction rollbackTs with
    | nil => rfl
    | cons ts rest ih => rw [flatMap_cons, length_append, length_encodeU64, length_cons]; omega
  have hlen := length_encodeVarU64 (ofNat rollbackTs.length)
  unfold rollbackTsBytes
  split
  · exact le_rfl
  simp only [length_cons, length_append, maxVarU64Len]
  omega

theorem length_lockTxnSourceBytes (source : UInt64) :
    (lockTxnSourceBytes source).length ≤ if source ≠ 0 then 1 + maxVarU64Len else 0 := by
  have := length_encodeVarU64 source
  unfold lockTxnSourceBytes
  by_cases h : source = 0
  · simp [h]
  simp only [h, if_false, ne_eq, not_false_eq_true, if_true, length_cons, maxVarU64Len]
  omega

theorem length_conflictBytes : (conflictBytes flag).length = flag.toNat := by cases flag <;> rfl

theorem Lock.length_toBytes (l : Lock) : l.toBytes.length ≤ l.preAllocateSize := by
  have hprimary := length_encodeCompactBytes l.primary
  have hts := length_encodeVarU64 l.ts
  have httl := length_encodeVarU64 l.ttl
  have hsec := length_secondariesBytes l.useAsyncCommit l.secondaries
  have hrollback := length_rollbackTsBytes l.rollbackTs
  have hlast := length_lastChangeBytes l.lastChange
  have hsource := length_lockTxnSourceBytes l.txnSource
  unfold toBytes preAllocateSize
  simp only [length_cons, length_append, length_shortValueBytes, length_u64FieldBytes, length_conflictBytes]
  unfold maxVarU64Len maxVarI64Len at *
  omega

/-! ## Both records -/

/-- **Records round-trip, before any bytes that do not go on with a field, and fit the buffer allocated for them**; a lock
exactly if its secondaries can be counted in an `i32`. -/
theorem records_round_trip (w : Write) (l : Lock) (suffix : Bytes) :
    (StartsWithout fieldPrefixes suffix → Write.parse (w.toBytes ++ suffix) = .ok w) ∧
    w.toBytes.length ≤ w.preAllocateSize ∧
    (l.Storable → StartsWithout lockFieldPrefixes suffix →
      (Lock.parse (l.toBytes ++ suffix) = .ok l ↔ l.secondaries.length < 2 ^ 31)) ∧
    l.toBytes.length ≤ l.preAllocateSize := by
  refine ⟨fun h => w.parse_toBytes_append h, w.length_toBytes, fun h hsuffix => ?_, l.length_toBytes⟩
  exact ⟨length_secondaries_parse, fun hcount => parse_toBytes_append h hcount hsuffix⟩

def sampleLock (secondaries : List Bytes) : Lock :=
  ⟨.put, [1], 10, 0, none, 0, 0, 11, true, false, secondaries, [], .unknown, 0, false, 0⟩

theorem records_round_trip_sample : StartsWithout fieldPrefixes [0] ∧ (sampleLock [[2], [3]]).Storable ∧
    Write.parse ((Write.new .put 10 none).toBytes ++ [0]) = .ok (.new .put 10 none) ∧
    Lock.parse ((sampleLock [[2], [3]]).toBytes ++ [0]) = .ok (sampleLock [[2], [3]]) := by
  have hw : StartsWithout fieldPrefixes [0] := by
    intro tag htag
    cases htag
    decide
  have hl : StartsWithout lockFieldPrefixes [0] := by
    intro tag htag
    cases htag
    decide
  have hs : (sampleLock [[2], [3]]).Storable := ⟨rfl, nofun, by decide⟩
  obtain ⟨hwrite, _, hlock, _⟩ := records_round_trip (.new .put 10 none) (sampleLock [[2], [3]]) [0]
  exact ⟨hw, hs, hwrite hw, (hlock hs hl).2 (by decide)⟩

theorem storable_replicate (h : n ≤ 2 ^ 31) : (sampleLock (List.replicate n [])).Storable := by
  refine ⟨rfl, nofun, ?_⟩
  have hsum : ((replicate n ([] : Bytes)).map fun k => maxVarI64Len + k.length).sum = n * 10 := by
    rw [map_replicate, sum_replicate]; rfl
  have hsize : (sampleLock (replicate n [])).preAllocateSize = 52 + n * 10 := by
    simp only [preAllocateSize, sampleLock, hsum]
    show 1 + 10 + 1 + 10 * 2 + 0 + 0 + 0 + 9 + (1 + 10 + n * 10) + 0 + 0 + 0 + 0 + 0 = 52 + n * 10
    omega
  rw [hsize]; omega

/-- **A lock with 2^31 secondaries is not read back.** -/
theorem lock_not_read_back : (sampleLock (List.replicate (2 ^ 31) [])).Storable ∧
    Lock.parse (sampleLock (List.replicate (2 ^ 31) [])).toBytes ≠ .ok (sampleLock (List.replicate (2 ^ 31) [])) := by
  refine ⟨storable_replicate le_rfl, fun h => ?_⟩
  have hlen : (replicate (2 ^ 31) ([] : Bytes)).length < 2 ^ 31 := length_secondaries_parse h
  rw [length_replicate] at hlen
  exact lt_irrefl _ hlen

end Txn
end Tikv
