import Tikv.LibDelimited
import Tikv.LibNumber
/-!
# RaftSimpleWrite — batches of simple writes (`raftstore::store::simple_write`)

A binary is the encodings of a few writes of one kind, one after another; a request is a header and the binaries that were
accepted for it, again one after another.  The decoder reads the header and then write after write.  Lengths are written
in one to five bytes; their five forms tile the 32-bit numbers (`decodeLen_encode`).
-/
namespace Tikv
namespace SimpleWrite

open Lib List Except UInt8

/-! ## Messages -/

/-- A protobuf message type with its length-delimited form: what is written is read back, whatever follows it. -/
structure Message (μ : Type) where
  write : μ → Bytes
  read : Bytes → Option (μ × Bytes)
  read_write : ∀ m rest, read (write m ++ rest) = some (m, rest)

/-! ## Writes -/

/-- `SimpleWrite`, with `σ` for `SstMeta`. -/
inductive Write (σ : Type)
  | put (cf : String) (key value : Bytes)
  | delete (cf : String) (key : Bytes)
  | deleteRange (cf : String) (startKey endKey : Bytes) (notifyOnly : Bool)
  | ingest (ssts : List σ)
deriving DecidableEq

inductive WriteType
  | unspecified | putDelete | deleteRange | ingest
deriving DecidableEq

def Write.writeType {σ : Type} : Write σ → WriteType
  | put .. | delete .. => .putDelete
  | deleteRange .. => .deleteRange
  | ingest _ => .ingest

/-! ## Lengths, bytes and column families -/

def encodeLen (len : Nat) : Bytes :=
  if len ≤ 240 then [UInt8.ofNat len]
  else if len ≤ 2287 then [UInt8.ofNat (241 + (len - 240) / 256), UInt8.ofNat ((len - 240) % 256)]
  else if len ≤ 67823 then [249, UInt8.ofNat ((len - 2288) / 256), UInt8.ofNat ((len - 2288) % 256)]
  else if len ≤ 16777215 then 250 :: (toBe 4 len).drop 1
  else 251 :: toBe 4 len

def splitAt (mid : Nat) (b : Bytes) : Except String (Bytes × Bytes) :=
  if mid ≤ b.length then .ok (b.take mid, b.drop mid) else .error "mid > len"

/-- The rest of a length, after its first byte. -/
def decodeLenFrom (f : UInt8) (left : Bytes) : Except String (Nat × Bytes) :=
  if f.toNat ≤ 240 then .ok (f.toNat, left)
  else if f.toNat ≤ 248 then
    match left with
    | [] => .error "decode len can't be 1"
    | s :: left => .ok (240 + (f.toNat - 241) * 256 + s.toNat, left)
  else if f.toNat = 249 then (splitAt 2 left).map fun (f, left) => (2288 + ofBe f, left)
  else if f.toNat = 250 then (splitAt 3 left).map fun (f, left) => (ofBe f, left)
  else if f.toNat = 251 then (splitAt 4 left).map fun (f, left) => (ofBe f, left)
  else .error s!"invalid len byte: {f.toNat}"

def decodeLen : Bytes → Except String (Nat × Bytes)
  | [] => .error "decode len can't be 0"
  | f :: left => decodeLenFrom f left

/-- The length goes through `as u32`. -/
def encodeBytes (bytes : Bytes) : Bytes := encodeLen (bytes.length % 2 ^ 32) ++ bytes

def decodeBytes (buf : Bytes) : Except String (Bytes × Bytes) :=
  match decodeLen buf with
  | .error e => .error e
  | .ok (len, left) => splitAt len left

def cfDefault : String := "default"
def cfLock : String := "lock"
def cfWrite : String := "write"

def utf8 (s : String) : Bytes := s.toUTF8.data.toList

def encodeCf (cf : String) : Bytes :=
  if cf = cfDefault then [0]
  else if cf = cfLock then [2]
  else if cf = cfWrite then [1]
  else 3 :: encodeBytes (utf8 cf)

def decodeCf : Bytes → Except String (String × Bytes)
  | [] => .error "cf cant't empty"
  | tag :: left =>
    if tag = 0 then .ok (cfDefault, left)
    else if tag = 2 then .ok (cfLock, left)
    else if tag = 1 then .ok (cfWrite, left)
    else if tag = 3 then
      match decodeBytes left with
      | .error e => .error e
      | .ok (cf, left) =>
        match String.fromUTF8? ⟨cf.toArray⟩ with
        | none => .error "cf must be valid utf8"
        | some cf => .ok (cf, left)
    else .error s!"invalid cf tag: {tag.toNat}"

/-! ## One write -/

section Codec

variable {η σ : Type} (sst : Message σ)

def encode : Write σ → Bytes
  | .put cf key value => 0 :: (encodeCf cf ++ (encodeBytes key ++ encodeBytes value))
  | .delete cf key => 1 :: (encodeCf cf ++ encodeBytes key)
  | .deleteRange cf startKey endKey notifyOnly =>
    2 :: (encodeCf cf ++ (encodeBytes startKey ++ (encodeBytes endKey ++ [if notifyOnly then 1 else 0])))
  | .ingest ssts => 3 :: (encodeLen (ssts.length % 2 ^ 32) ++ ssts.flatMap sst.write)

def readSst (buf : Bytes) : Except String (σ × Bytes) :=
  match sst.read buf with
  | none => .error "data corrupted"
  | some r => .ok r

def decodePut (left : Bytes) : Except String (Option (Write σ × Bytes)) := do
  let (cf, left) ← decodeCf left
  let (key, left) ← decodeBytes left
  let (value, left) ← decodeBytes left
  return some (.put cf key value, left)

def decodeDelete (left : Bytes) : Except String (Option (Write σ × Bytes)) := do
  let (cf, left) ← decodeCf left
  let (key, left) ← decodeBytes left
  return some (.delete cf key, left)

/-- A missing last byte ends the iteration, it does not panic. -/
def decodeDeleteRange (left : Bytes) : Except String (Option (Write σ × Bytes)) := do
  let (cf, left) ← decodeCf left
  let (startKey, left) ← decodeBytes left
  let (endKey, left) ← decodeBytes left
  match left with
  | [] => return none
  | notifyOnly :: left => return some (.deleteRange cf startKey endKey (notifyOnly != 0), left)

def decodeIngest (left : Bytes) : Except String (Option (Write σ × Bytes)) := do
  let (len, left) ← decodeLen left
  let (ssts, left) ← readMany (readSst sst) len left
  return some (.ingest ssts, left)

def decode : Bytes → Except String (Option (Write σ × Bytes))
  | [] => .ok none
  | tag :: left =>
    if tag = 0 then decodePut left
    else if tag = 1 then decodeDelete left
    else if tag = 2 then decodeDeleteRange left
    else if tag = 3 then decodeIngest sst left
    else .error s!"corrupted data: invalid tag {tag.toNat}"

/-! ## Binaries -/

structure Binary where
  buf : Bytes
  writeType : WriteType
deriving DecidableEq

def Binary.empty : Binary := ⟨[], .unspecified⟩

/-- What the methods below have in common: an assertion on what was written before, and the write's encoding. -/
def Binary.add (bin : Binary) (w : Write σ) : Except String Binary :=
  if bin.writeType = .unspecified ∨ bin.writeType = w.writeType then .ok ⟨bin.buf ++ encode sst w, w.writeType⟩
  else .error "assertion failed"

def Binary.put (bin : Binary) (cf : String) (key value : Bytes) : Except String Binary := bin.add sst (.put cf key value)

def Binary.delete (bin : Binary) (cf : String) (key : Bytes) : Except String Binary := bin.add sst (.delete cf key)

def Binary.deleteRange (bin : Binary) (cf : String) (startKey endKey : Bytes) (notifyOnly : Bool) :
    Except String Binary :=
  bin.add sst (.deleteRange cf startKey endKey notifyOnly)

def Binary.ingest (bin : Binary) (ssts : List σ) : Except String Binary := bin.add sst (.ingest ssts)

def Binary.write (bin : Binary) : Write σ → Except String Binary
  | .put cf key value => bin.put sst cf key value
  | .delete cf key => bin.delete sst cf key
  | .deleteRange cf startKey endKey notifyOnly => bin.deleteRange sst cf startKey endKey notifyOnly
  | .ingest ssts => bin.ingest sst ssts

def Binary.freeze (bin : Binary) : Binary := { bin with writeType := .unspecified }

def Binary.writeAll (bin : Binary) : List (Write σ) → Except String Binary
  | [] => .ok bin
  | w :: ws =>
    match bin.write sst w with
    | .error e => .error e
    | .ok bin => bin.writeAll ws

/-! ## Requests -/

structure ReqEncoder (η : Type) where
  header : η
  buf : Bytes
  sizeLimit : Nat
  writeType : WriteType

def magicPrefix : UInt8 := 0

def ReqEncoder.new (head : Message η) (header : η) (bin : Binary) (sizeLimit : Nat) : ReqEncoder η where
  header := header
  buf := magicPrefix :: (head.write header ++ bin.buf)
  sizeLimit := sizeLimit
  writeType := bin.writeType

def ReqEncoder.amend [DecidableEq η] (enc : ReqEncoder η) (header : η) (bin : Binary) : ReqEncoder η × Bool :=
  if enc.header ≠ header then (enc, false)
  else if enc.writeType = bin.writeType ∧ bin.writeType ≠ .unspecified ∧
      enc.buf.length + bin.buf.length < enc.sizeLimit then
    ({ enc with buf := enc.buf ++ bin.buf }, true)
  else (enc, false)

structure ReqDecoder (η : Type) where
  header : η
  buf : Bytes

/-- `SimpleWriteReqDecoder::new`; `none` stands for the fallback on bytes of another format. -/
def ReqDecoder.new (head : Message η) : Bytes → Except String (Option (ReqDecoder η))
  | [] => .ok none
  | first :: rest =>
    if first = magicPrefix then
      match head.read rest with
      | none => .error "data corrupted"
      | some (header, buf) => .ok (some ⟨header, buf⟩)
    else .ok none

/-- The decoder run to its end, with the bytes it has not read. -/
def ReqDecoder.collect (d : ReqDecoder η) : Except String (List (Write σ) × Bytes) := readAll (decode sst) d.buf.length d.buf

inductive Request (σ : Type)
  | put (cf : String) (key value : Bytes)
  | delete (cf : String) (key : Bytes)
  | deleteRange (cf : String) (startKey endKey : Bytes) (notifyOnly : Bool)
  | ingestSst (sst : σ)
deriving DecidableEq

def Write.requests : Write σ → List (Request σ)
  | .put cf key value => [.put cf key value]
  | .delete cf key => [.delete cf key]
  | .deleteRange cf startKey endKey notifyOnly => [.deleteRange cf startKey endKey notifyOnly]
  | .ingest ssts => ssts.map .ingestSst

structure RaftCmdRequest (η σ : Type) where
  header : η
  requests : List (Request σ)

def ReqDecoder.toRaftCmdRequest (d : ReqDecoder η) : Except String (RaftCmdRequest η σ) :=
  match d.collect sst with
  | .error e => .error e
  | .ok (writes, _) => .ok ⟨d.header, writes.flatMap Write.requests⟩

end Codec

/-! ## Lengths and bytes read back -/

theorem toNat_ofNat {n : Nat} (h : n < 256) : (ofNat n).toNat = n := by
  rw [toNat_ofNat']; omega

variable {rest : Bytes}

theorem splitAt_append {mid : Nat} {a : Bytes} (h : a.length = mid) : splitAt mid (a ++ rest) = .ok (a, rest) := by
  unfold splitAt
  rw [if_pos (by rw [length_append]; omega), take_left' h, drop_left' h]

theorem ofBe_drop_toBe {len : Nat} (h : len < 2 ^ 24) : ofBe ((toBe 4 len).drop 1) = len := by
  have hsplit : toBe 4 len = ofNat (len / 2 ^ 24) :: toBe 3 len := by
    simp only [toBe, nil_append, cons_append]
    rw [show len / 256 / 256 / 256 = len / 2 ^ 24 by omega]
  rw [hsplit, drop_succ_cons, drop_zero, ofBe_toBe]
  omega

theorem decodeLen_encode {len : Nat} (h : len < 2 ^ 32) : decodeLen (encodeLen len ++ rest) = .ok (len, rest) := by
  unfold encodeLen
  by_cases h1 : len ≤ 240
  · simp [decodeLen, decodeLenFrom, toNat_ofNat (show len < 256 by omega), h1]
  rw [if_neg h1]
  by_cases h2 : len ≤ 2287
  · rw [if_pos h2]
    have hf : (ofNat (241 + (len - 240) / 256)).toNat = 241 + (len - 240) / 256 := toNat_ofNat (by omega)
    have hs : (ofNat ((len - 240) % 256)).toNat = (len - 240) % 256 := toNat_ofNat (by omega)
    show decodeLenFrom _ (_ :: rest) = _
    unfold decodeLenFrom
    rw [if_neg (by omega), if_pos (by omega)]
    refine congrArg (fun n => ok (n, rest)) ?_
    omega
  rw [if_neg h2]
  by_cases h3 : len ≤ 67823
  · rw [if_pos h3]
    have hf : (ofNat ((len - 2288) / 256)).toNat = (len - 2288) / 256 := toNat_ofNat (by omega)
    have hs : (ofNat ((len - 2288) % 256)).toNat = (len - 2288) % 256 := toNat_ofNat (by omega)
    refine congrArg (fun n => ok (n, rest)) ?_
    show 2288 + ((0 * 256 + _) * 256 + _) = len
    omega
  rw [if_neg h3]
  by_cases h4 : len ≤ 16777215
  · rw [if_pos h4]
    exact congrArg (fun n => ok (n, rest)) (ofBe_drop_toBe (by omega))
  rw [if_neg h4]
  refine congrArg (fun n => ok (n, rest)) ?_
  show ofBe (toBe 4 len) = len
  rw [ofBe_toBe]
  omega

theorem decodeBytes_encode {bytes : Bytes} (h : bytes.length < 2 ^ 32) :
    decodeBytes (encodeBytes bytes ++ rest) = .ok (bytes, rest) := by
  unfold decodeBytes encodeBytes
  rw [Nat.mod_eq_of_lt h, append_assoc, decodeLen_encode h]
  exact splitAt_append rfl

theorem fromUTF8_utf8 (s : String) : String.fromUTF8? ⟨(utf8 s).toArray⟩ = some s := by
  exact dif_pos s.isValidUTF8

theorem decodeCf_encode {cf : String} (h : (utf8 cf).length < 2 ^ 32) :
    decodeCf (encodeCf cf ++ rest) = .ok (cf, rest) := by
  unfold encodeCf
  by_cases hd : cf = cfDefault
  · rw [hd]; rfl
  rw [if_neg hd]
  by_cases hl : cf = cfLock
  · rw [hl]; rfl
  rw [if_neg hl]
  by_cases hw : cf = cfWrite
  · rw [hw]; rfl
  rw [if_neg hw]
  show (match decodeBytes (encodeBytes (utf8 cf) ++ rest) with | .error e => _ | .ok (cf, left) => _) = _
  rw [decodeBytes_encode h]
  dsimp only
  rw [fromUTF8_utf8]

/-! ## Writes read back -/

section Codec

variable {η σ : Type} {sst : Message σ}

/-- Every length of the write fits 32 bits: of its column family, its keys and values, and the number of SSTs. -/
def Write.Fits : Write σ → Prop
  | .put cf key value => (utf8 cf).length < 2 ^ 32 ∧ key.length < 2 ^ 32 ∧ value.length < 2 ^ 32
  | .delete cf key => (utf8 cf).length < 2 ^ 32 ∧ key.length < 2 ^ 32
  | .deleteRange cf startKey endKey _ =>
    (utf8 cf).length < 2 ^ 32 ∧ startKey.length < 2 ^ 32 ∧ endKey.length < 2 ^ 32
  | .ingest ssts => ssts.length < 2 ^ 32

theorem encode_ne_nil (w : Write σ) : encode sst w ≠ [] := by cases w <;> exact cons_ne_nil _ _

theorem readSst_write (m : σ) (rest : Bytes) : readSst sst (sst.write m ++ rest) = .ok (m, rest) := by
  unfold readSst
  rw [sst.read_write]

theorem decode_encode {w : Write σ} (h : w.Fits) (rest : Bytes) :
    decode sst (encode sst w ++ rest) = .ok (some (w, rest)) := by
  cases w with
  | put cf key value =>
    obtain ⟨hcf, hkey, hvalue⟩ := h
    show decodePut (_ ++ (_ ++ _) ++ rest) = _
    unfold decodePut
    rw [append_assoc, append_assoc, decodeCf_encode hcf]
    dsimp only [bind, Except.bind]
    rw [decodeBytes_encode hkey]
    dsimp only
    rw [decodeBytes_encode hvalue]
    rfl
  | delete cf key =>
    obtain ⟨hcf, hkey⟩ := h
    show decodeDelete (_ ++ _ ++ rest) = _
    unfold decodeDelete
    rw [append_assoc, decodeCf_encode hcf]
    dsimp only [bind, Except.bind]
    rw [decodeBytes_encode hkey]
    rfl
  | deleteRange cf startKey endKey notifyOnly =>
    obtain ⟨hcf, hstart, hend⟩ := h
    show decodeDeleteRange (_ ++ (_ ++ (_ ++ _)) ++ rest) = _
    unfold decodeDeleteRange
    rw [append_assoc, append_assoc, append_assoc, decodeCf_encode hcf]
    dsimp only [bind, Except.bind]
    rw [decodeBytes_encode hstart]
    dsimp only
    rw [decodeBytes_encode hend]
    cases notifyOnly <;> rfl
  | ingest ssts =>
    have hlen : ssts.length < 2 ^ 32 := h
    have hmany : readMany (readSst sst) ssts.length (ssts.flatMap sst.write ++ rest) = .ok (ssts, rest) :=
      readMany_encode rest ssts fun m _ => readSst_write m
    show decodeIngest sst (_ ++ _ ++ rest) = _
    unfold decodeIngest
    rw [Nat.mod_eq_of_lt hlen, append_assoc, decodeLen_encode hlen]
    dsimp only [bind, Except.bind]
    rw [hmany]
    rfl

theorem write_eq (bin : Binary) (w : Write σ) : bin.write sst w = bin.add sst w := by cases w <;> rfl

theorem buf_writeAll : ∀ {ws : List (Write σ)} {bin bin' : Binary}, bin.writeAll sst ws = .ok bin' →
    bin'.buf = bin.buf ++ ws.flatMap (encode sst)
  | [], bin, bin', h => by
    cases h
    rw [flatMap_nil, append_nil]
  | w :: ws, bin, bin', h => by
    rw [Binary.writeAll, write_eq] at h
    unfold Binary.add at h
    split at h
    · cases h
    rename_i bin₁ hadd
    split at hadd
    · cases hadd
      rw [buf_writeAll h, flatMap_cons, append_assoc]
    · cases hadd

/-! ## Batches -/

/-- A binary that an encoder built from writes that fit, possibly frozen afterwards. -/
structure Built (sst : Message σ) where
  writes : List (Write σ)
  bin : Binary
  built : Binary.empty.writeAll sst writes = .ok bin
  fits : ∀ w ∈ writes, w.Fits
  frozen : Bool

def Built.binary (b : Built sst) : Binary := if b.frozen then b.bin.freeze else b.bin

theorem Built.buf (b : Built sst) : b.binary.buf = b.writes.flatMap (encode sst) := by
  have hbuf := buf_writeAll b.built
  unfold Built.binary
  cases b.frozen with
  | false | true => exact hbuf

theorem collect_flatMap {d : ReqDecoder η} {ws : List (Write σ)} (h : d.buf = ws.flatMap (encode sst))
    (hfits : ∀ w ∈ ws, w.Fits) : d.collect sst = .ok (ws, []) := by
  unfold ReqDecoder.collect
  rw [h]
  exact readAll_encode rfl ws (fun w hw => ⟨encode_ne_nil w, decode_encode (hfits w hw)⟩) le_rfl

variable [DecidableEq η]

/-- Binaries offered one after another, each with its header; the ones that are accepted. -/
def ReqEncoder.amendAll (enc : ReqEncoder η) : List (η × Built sst) → ReqEncoder η × List (η × Built sst)
  | [] => (enc, [])
  | o :: os =>
    let (enc', accepted) := enc.amend o.1 o.2.binary
    let (enc', os) := enc'.amendAll os
    (enc', if accepted then o :: os else os)

theorem amend_cases (enc : ReqEncoder η) (header : η) (bin : Binary) :
    (enc.amend header bin = ({ enc with buf := enc.buf ++ bin.buf }, true) ∧ header = enc.header ∧
      bin.writeType = enc.writeType ∧ bin.writeType ≠ .unspecified) ∨ enc.amend header bin = (enc, false) := by
  unfold ReqEncoder.amend
  by_cases hh : enc.header = header
  · rw [if_neg (not_not.2 hh)]
    split
    · rename_i h
      exact .inl ⟨rfl, hh.symm, h.1.symm, h.2.1⟩
    · exact .inr rfl
  · rw [if_pos hh]
    exact .inr rfl

/-- **What is accepted is appended**, and only what has the header and the kind of the first binary is. -/
theorem amendAll_spec : ∀ (os : List (η × Built sst)) (enc : ReqEncoder η),
    (enc.amendAll os).1.buf = enc.buf ++ (enc.amendAll os).2.flatMap (fun o => o.2.writes.flatMap (encode sst)) ∧
    (enc.amendAll os).2.Sublist os ∧
    ∀ o ∈ (enc.amendAll os).2, o.1 = enc.header ∧ o.2.binary.writeType = enc.writeType ∧
      o.2.binary.writeType ≠ .unspecified
  | [], enc => ⟨(append_nil _).symm, List.Sublist.refl _, nofun⟩
  | o :: os, enc => by
    rw [ReqEncoder.amendAll]
    rcases amend_cases enc o.1 o.2.binary with ⟨heq, hheader, htype, hspec⟩ | heq
    · rw [heq]
      obtain ⟨hbuf, hsub, hall⟩ := amendAll_spec os { enc with buf := enc.buf ++ o.2.binary.buf }
      refine ⟨?_, hsub.cons_cons o, fun o' ho' => ?_⟩
      · dsimp only
        rw [hbuf, if_pos rfl, flatMap_cons, o.2.buf, append_assoc]
      · rcases mem_cons.1 ho' with rfl | ho'
        · exact ⟨hheader, htype, hspec⟩
        · exact hall o' ho'
    · rw [heq]
      obtain ⟨hbuf, hsub, hall⟩ := amendAll_spec os enc
      exact ⟨hbuf, hsub.cons o, hall⟩

/-- **A batch decodes to exactly what was proposed**: its header, then the writes of the binaries that were accepted, in
order, up to the end of the bytes; and what is accepted has the header and the specified kind of the first. -/
theorem decode_batch (head : Message η) (header : η) (first : Built sst) (sizeLimit : Nat) (offers : List (η × Built sst))
    (enc : ReqEncoder η) (accepted : List (η × Built sst))
    (h : (ReqEncoder.new head header first.binary sizeLimit).amendAll offers = (enc, accepted)) :
    ∃ d, ReqDecoder.new head enc.buf = .ok (some d) ∧ d.header = header ∧
      d.collect sst = .ok (first.writes ++ accepted.flatMap (·.2.writes), []) ∧
      d.toRaftCmdRequest sst =
        .ok ⟨header, (first.writes ++ accepted.flatMap (·.2.writes)).flatMap Write.requests⟩ ∧
      accepted.Sublist offers ∧
      ∀ o ∈ accepted, o.1 = header ∧ o.2.binary.writeType = first.binary.writeType ∧
        o.2.binary.writeType ≠ .unspecified := by
  obtain ⟨hbuf, hsub, hall⟩ := amendAll_spec offers (ReqEncoder.new head header first.binary sizeLimit)
  rw [h] at hbuf hsub hall
  let d : ReqDecoder η := ⟨header, (first.writes ++ accepted.flatMap (·.2.writes)).flatMap (encode sst)⟩
  have hnew : ReqDecoder.new head enc.buf = .ok (some d) := by
    have heq : enc.buf = magicPrefix :: (head.write header ++ d.buf) := by
      rw [hbuf]
      show magicPrefix :: (head.write header ++ first.binary.buf ++ _) = _
      rw [first.buf, append_assoc, ← flatMap_assoc, ← flatMap_append]
    rw [heq, ReqDecoder.new, if_pos rfl, head.read_write]
  have hcollect : d.collect sst = .ok (first.writes ++ accepted.flatMap (·.2.writes), []) := by
    refine collect_flatMap rfl (forall_mem_append.2 ⟨first.fits, fun w hw => ?_⟩)
    obtain ⟨o, _, hw⟩ := mem_flatMap.1 hw
    exact o.2.fits w hw
  refine ⟨d, hnew, rfl, hcollect, ?_, hsub, hall⟩
  unfold ReqDecoder.toRaftCmdRequest
  rw [hcollect]

end Codec

/-! ## Too many SSTs -/

def unitMessage : Message Unit where
  write _ := [0]
  read
    | 0 :: rest => some ((), rest)
    | _ => none
  read_write _ _ := rfl

def samplePut : Built unitMessage where
  writes := [.put "default" [1] [2]]
  bin := ⟨encode unitMessage (.put "default" [1] [2]), .putDelete⟩
  built := rfl
  fits := by
    intro w hw
    cases List.mem_singleton.1 hw
    exact ⟨by decide, by decide, by decide⟩
  frozen := false

theorem decode_batch_sample : ∃ d, ReqDecoder.new unitMessage
      ((ReqEncoder.new unitMessage () samplePut.binary 100).amendAll [((), samplePut)]).1.buf = .ok (some d) ∧
    d.collect unitMessage = .ok ([.put "default" [1] [2], .put "default" [1] [2]], []) := by
  obtain ⟨d, hnew, _, hcollect, _⟩ := decode_batch unitMessage () samplePut 100 [((), samplePut)] _ _ rfl
  exact ⟨d, hnew, hcollect⟩

theorem collect_ingest_ne {ssts : List Unit} (hlen : ssts.length % 2 ^ 32 = 0) (hne : ssts ≠ []) (n : Nat) (rest : Bytes) :
    readAll (decode unitMessage) n (encode unitMessage (.ingest ssts)) ≠ .ok ([.ingest ssts], rest) := by
  intro h
  have hdecode : decode unitMessage (encode unitMessage (.ingest ssts)) =
      .ok (some (.ingest [], ssts.flatMap unitMessage.write)) := by
    rw [encode, hlen]
    rfl
  cases n with
  | zero => cases h
  | succ n =>
    rw [readAll, hdecode] at h
    dsimp only at h
    cases hrest : readAll (decode unitMessage) n (ssts.flatMap unitMessage.write) with
    | error e => rw [hrest] at h; cases h
    | ok r =>
      rw [hrest] at h
      have hhead := congrArg (fun r => r.1.head?) (ok.inj h)
      exact hne (Write.ingest.inj (Option.some.inj hhead)).symm

/-- **The number of SSTs of an ingest is written in 32 bits**: 2^32 of them are not decoded. -/
theorem ingest_not_decoded : ∃ bin, Binary.empty.writeAll unitMessage [.ingest (List.replicate (2 ^ 32) ())] = .ok bin ∧
    ∃ d, ReqDecoder.new unitMessage (ReqEncoder.new unitMessage () bin 0).buf = .ok (some d) ∧
      ∀ rest, d.collect unitMessage ≠ .ok ([.ingest (List.replicate (2 ^ 32) ())], rest) := by
  have hlen : (replicate (2 ^ 32) ()).length % 2 ^ 32 = 0 := by rw [length_replicate, Nat.mod_self]
  have hne : replicate (2 ^ 32) () ≠ [] := by
    intro hnil
    have := congrArg length hnil
    rw [length_replicate] at this
    cases this
  generalize replicate (2 ^ 32) () = ssts at hlen hne
  exact ⟨⟨encode unitMessage (.ingest ssts), .ingest⟩, rfl, ⟨(), encode unitMessage (.ingest ssts)⟩, rfl,
    collect_ingest_ne hlen hne _⟩

end SimpleWrite
end Tikv
