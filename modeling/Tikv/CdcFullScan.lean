import Mathlib.Data.Nat.Digits.Lemmas
import Tikv.CdcSinkPut
/-!
# CdcFullScan — the write records of a full scan (`SpanBridge::scan_region`)

For the records of meta keys the scan makes up the default column family's entries itself, and reads the records by hand
for it: it skips the start timestamp to find the short value, and it reads the start timestamp a second time, as
`addFallback` does.  The skipping is right.  The reading takes the 7-bit groups of the number in the wrong order, so that
the keys it makes up are those of the record exactly when the groups read the same from both ends (`reader_agrees_iff`).
-/
namespace Tikv
namespace Cdc

open Lib (Bytes and_top_bit_eq_zero_iff)
open Codec Txn List Nat

/-! ## The closure of the write column family -/

def metaMarker : Bytes := [0x6d, 0x44, 0x42, 0x3a, 0x31]

def hasWindow (marker k : Bytes) : Bool := k.tails.any fun t => marker.isPrefixOf t

def skipVarU64 : Bytes → Bytes
  | [] => []
  | b :: bs => if b &&& 0x80 = 0 then bs else skipVarU64 bs

inductive InlineRead
  | shortValue (value : Bytes)
  | cutOff
  | noShortValue
deriving DecidableEq, Repr

def readInline (v : Bytes) : InlineRead :=
  match skipVarU64 (v.drop 1) with
  | [] => .noShortValue
  | tag :: rest =>
    if tag = 0x76 then
      match rest with
      | [] => .cutOff
      | len :: rest => if len.toNat ≤ rest.length then .shortValue (rest.take len.toNat) else .cutOff
    else .noShortValue

def inlineStartTs (v : Bytes) : UInt64 := fallbackStartTs 0 (v.drop 1)

def inlineDefaultKey (k v : Bytes) : Bytes := k.take (k.length - 8) ++ encodeU64 (~~~ inlineStartTs v)

/-- What the scan makes up for a record; without a value in the source, an empty one. -/
def synthesize (getValueCf : Bytes → Except String (Option Bytes)) (k v : Bytes) : List PcrKv :=
  match readInline v with
  | .shortValue value => if 9 ≤ k.length then [⟨inlineDefaultKey k v, value, .put, .default⟩] else []
  | .cutOff => []
  | .noShortValue =>
    if 9 ≤ k.length then
      match getValueCf (inlineDefaultKey k v) with
      | .ok (some value) => [⟨inlineDefaultKey k v, value, .put, .default⟩]
      | _ => [⟨inlineDefaultKey k v, [], .put, .default⟩]
    else []

def scanWrite (getValueCf : Bytes → Except String (Option Bytes)) (k v : Bytes) : List PcrKv :=
  (if hasWindow metaMarker k then synthesize getValueCf k v else []) ++ [⟨k, v, .put, .write⟩]

theorem synthesize_key {getValueCf : Bytes → Except String (Option Bytes)} {k v : Bytes} :
    ∀ kv ∈ synthesize getValueCf k v, kv.key = inlineDefaultKey k v := by
  unfold synthesize
  intro kv hkv
  split at hkv
  · split at hkv
    · rw [mem_singleton.1 hkv]
    · cases hkv
  · cases hkv
  · split at hkv
    · split at hkv <;> rw [mem_singleton.1 hkv]
    · cases hkv

theorem scanWrite_key {getValueCf : Bytes → Except String (Option Bytes)} {k v : Bytes} {kv : PcrKv}
    (hkv : kv ∈ scanWrite getValueCf k v) (hcf : kv.cf = .default) : kv.key = inlineDefaultKey k v := by
  rcases mem_append.1 hkv with hkv | hkv
  · split at hkv
    · exact synthesize_key kv hkv
    · cases hkv
  · rw [mem_singleton.1 hkv] at hcf
    cases hcf

/-! ## The groups of a number -/

/-- A number of 64 bits is the one with its groups in the other order exactly when the groups read the same from both
ends.  The number with ten groups is no exception: what the tenth loses to the word's width is known from the first. -/
theorem ofDigits_reverse_mod_eq_iff {v : Nat} (hv : v < 2 ^ 64) :
    ofDigits 128 (digits 128 v).reverse % 2 ^ 64 = v ↔ (digits 128 v).reverse = digits 128 v := by
  have hdigit : ∀ d ∈ digits 128 v, d < 128 := fun d hd => digits_lt_base (by decide) hd
  have hval := ofDigits_digits 128 v
  have hlen : (digits 128 v).length ≤ 10 := by
    rw [digits_length_le_iff (by decide)]
    exact lt_trans hv (by decide)
  generalize digits 128 v = ds at hdigit hval hlen
  constructor
  · intro h
    rcases lt_or_ge ds.length 10 with hshort | hlong
    · -- nothing is lost
      have hlt := ofDigits_lt_base_pow_length (by decide) fun d hd => hdigit d (mem_reverse.1 hd)
      have hpow : 128 ^ ds.reverse.length ≤ 128 ^ 9 := Nat.pow_le_pow_right (by decide) (by simp; omega)
      have hlt' : ofDigits 128 ds.reverse < 2 ^ 64 := lt_of_lt_of_le hlt (le_trans hpow (by decide))
      rw [mod_eq_of_lt hlt', ← hval] at h
      exact ofDigits_inj_of_len_eq (by decide) (length_reverse) (fun d hd => hdigit d (mem_reverse.1 hd)) hdigit h
    · have hten : ds.length = 10 := le_antisymm hlen hlong
      cases ds with
      | nil => cases hten
      | cons g ds =>
        have hnine : ds.length = 9 := succ.inj hten
        -- the first group and the others, the last group and the others
        obtain ⟨init, last, hsplit⟩ : ∃ init last, g :: ds = init ++ [last] :=
          ⟨_, _, (dropLast_append_getLast (cons_ne_nil g ds)).symm⟩
        have hinit : init.length = 9 := by
          have := congrArg length hsplit
          simp only [length_cons, length_append, length_nil] at this
          omega
        have hdig' : ∀ d ∈ init, d < 128 := fun d hd => hdigit d (hsplit ▸ mem_append_left _ hd)
        have hdig : ∀ d ∈ ds.reverse, d < 128 := fun d hd => hdigit d (mem_cons_of_mem _ (mem_reverse.1 hd))
        have hlt := ofDigits_lt_base_pow_length (by decide) hdig
        have hlt' := ofDigits_lt_base_pow_length (by decide) hdig'
        rw [length_reverse, hnine] at hlt
        rw [hinit] at hlt'
        rw [hsplit, ofDigits_append, hinit] at hval
        rw [reverse_cons, ofDigits_append, length_reverse, hnine] at h
        have hsame : ofDigits 128 ds.reverse = ofDigits 128 init := by omega
        have hrev : ds.reverse = init :=
          ofDigits_inj_of_len_eq (by decide) (by rw [length_reverse, hnine, hinit]) hdig hdig' hsame
        have hends : g = last := by
          cases init with
          | nil => cases hinit
          | cons a init =>
            have hga : g = a := (cons.inj hsplit).1
            have hds : ds = init ++ [last] := (cons.inj hsplit).2
            rw [hds, reverse_append, reverse_singleton] at hrev
            exact hga.trans (cons.inj hrev).1.symm
        rw [reverse_cons, hrev, hsplit, hends]
  · intro h
    rw [h, hval]
    exact mod_eq_of_lt hv

/-! ## Reading a record -/

theorem toNat_pushGroup (val : UInt64) (b : UInt8) :
    (val <<< 7 ||| (b &&& 0x7f).toUInt64).toNat = (val.toNat * 128 + b.toNat % 128) % 2 ^ 64 := by
  have hgroup : (b &&& 0x7f).toUInt64.toNat = b.toNat % 128 := by
    exact and_two_pow_sub_one_eq_mod b.toNat 7
  have hshift : (val <<< 7).toNat = (val.toNat % 2 ^ 57) <<< 7 := by
    rw [UInt64.toNat_shiftLeft, shiftLeft_eq, shiftLeft_eq]
    show val.toNat * 128 % 2 ^ 64 = val.toNat % 2 ^ 57 * 128
    omega
  rw [UInt64.toNat_or, hshift, hgroup, ← shiftLeft_add_eq_or_of_lt (show b.toNat % 128 < 2 ^ 7 by omega)]
  omega

section

variable (rest : Bytes)

theorem fallbackStartTs_encode : ∀ (n : Nat) {v acc : UInt64} (a : Nat), v.toNat < 128 ^ (n + 1) → v.toNat ≠ 0 →
    acc.toNat = a % 2 ^ 64 → (fallbackStartTs acc (encodeVarLoop n v ++ rest)).toNat =
      (digits 128 v.toNat).foldl (fun a d => a * 128 + d) a % 2 ^ 64 := by
  intro n
  induction n using Nat.strong_induction_on with
  | _ n ih =>
    intro v acc a hv hne hacc
    rw [digits_def' (by decide) (pos_of_ne_zero hne), foldl_cons]
    rcases encodeVarLoop_cases hv with ⟨hlt, b, henc, hb⟩ | ⟨m, b, rfl, hge, henc, hb, hv'⟩
    · rw [henc, singleton_append, fallbackStartTs, if_pos ((and_top_bit_eq_zero_iff b).2 (by omega)), toNat_pushGroup,
        div_eq_of_lt hlt, digits_zero, foldl_nil]
      omega
    · have hpush : (acc <<< 7 ||| (b &&& 0x7f).toUInt64).toNat = (a * 128 + v.toNat % 128) % 2 ^ 64 := by
        rw [toNat_pushGroup]
        omega
      rw [henc, cons_append, fallbackStartTs, if_neg (mt (and_top_bit_eq_zero_iff b).1 (by omega))]
      rw [ih m (lt_succ_self m) _ hv' (by rw [toNat_shiftRight_seven]; omega) hpush, toNat_shiftRight_seven]

theorem skipVarU64_encode : ∀ (n : Nat) {v : UInt64}, v.toNat < 128 ^ (n + 1) →
    skipVarU64 (encodeVarLoop n v ++ rest) = rest := by
  intro n
  induction n using Nat.strong_induction_on with
  | _ n ih =>
    intro v hv
    rcases encodeVarLoop_cases hv with ⟨hlt, b, henc, hb⟩ | ⟨m, b, rfl, hge, henc, hb, hv'⟩
    · rw [henc, singleton_append, skipVarU64, if_pos ((and_top_bit_eq_zero_iff b).2 (by omega))]
    rw [henc, cons_append, skipVarU64, if_neg (mt (and_top_bit_eq_zero_iff b).1 (by omega))]
    exact ih m (lt_succ_self m) hv'

end

theorem toNat_inlineStartTs (w : Write) :
    (inlineStartTs w.toBytes).toNat = ofDigits 128 (digits 128 w.startTs.toNat).reverse % 2 ^ 64 := by
  have hv : w.startTs.toNat < 128 ^ 10 := lt_trans w.startTs.toNat_lt (by decide)
  unfold inlineStartTs Write.toBytes
  rw [drop_one, ofDigits_eq_foldr, foldr_reverse]
  by_cases hzero : w.startTs.toNat = 0
  · obtain hz : w.startTs = 0 := UInt64.toNat_inj.1 hzero
    rw [hz]; rfl
  refine (fallbackStartTs_encode _ 9 0 hv hzero rfl).trans ?_
  congr 2
  funext a d
  rw [cast_id, add_comm, mul_comm]

theorem readInline_toBytes (w : Write) :
    readInline w.toBytes = w.shortValue.elim .noShortValue fun value => .shortValue value.1 := by
  have hv : w.startTs.toNat < 128 ^ 10 := lt_trans w.startTs.toNat_lt (by decide)
  unfold readInline Write.toBytes
  rw [drop_one, tail_cons, encodeVarU64, skipVarU64_encode _ 9 hv]
  cases w.shortValue with
  | some value =>
    have hlen : (UInt8.ofNat value.1.length).toNat = value.1.length :=
      mod_eq_of_lt (lt_succ_of_le value.2)
    simp [shortValueBytes, shortValuePrefix, hlen]
  | none =>
    -- the tag of another field, or the end of the record
    unfold shortValueBytes gcFenceBytes lastChangeBytes txnSourceBytes
    cases w.hasOverlappedRollback with
    | true => rfl
    | false =>
      cases w.gcFence with
      | some ts => rfl
      | none =>
        by_cases hlast : w.lastChange = .unknown
        · by_cases hsource : w.txnSource = 0
          · rw [if_pos hlast, if_pos hsource]; rfl
          · rw [if_pos hlast, if_neg hsource]; rfl
        · rw [if_neg hlast]; rfl

/-! ## The keys that are made up -/

/-- **The hand-written readers agree with the codec** on the record of a key: the scan's, and that of a live put which gives
no mutation. -/
structure ReaderAgrees (userKey : Bytes) (commitTs : UInt64) (w : Write) : Prop where
  startTs : inlineStartTs w.toBytes = w.startTs
  shortValue : readInline w.toBytes = w.shortValue.elim .noShortValue fun value => .shortValue value.1
  scanned : ∀ getValueCf, ∀ kv ∈ scanWrite getValueCf (dataPrefix :: appendTs userKey commitTs) w.toBytes,
    kv.cf = .default → kv.key = defaultKeyOf userKey w
  live : ∀ batcher, ∃ value, (addFallback batcher (writePut userKey commitTs w)).batch =
    batcher.batch ++ [⟨dataPrefix :: appendTs userKey commitTs, w.toBytes, .put, .write⟩,
      ⟨defaultKeyOf userKey w, value, .put, .default⟩]

theorem inlineDefaultKey_eq (userKey : Bytes) (commitTs : UInt64) (v : Bytes) :
    inlineDefaultKey (dataPrefix :: appendTs userKey commitTs) v = dataPrefix :: appendTs userKey (inlineStartTs v) := by
  have hlen : (dataPrefix :: appendTs userKey commitTs).length - 8 = (dataPrefix :: userKey).length := by simp [appendTs]
  unfold inlineDefaultKey
  rw [hlen]
  exact congrArg (· ++ _) (take_left' (rfl : (dataPrefix :: userKey).length = _))

/-- **The readers agree exactly on the start timestamps whose groups of 7 bits read the same from both ends**; the short
value is found for all of them. -/
theorem reader_agrees_iff (userKey : Bytes) (commitTs : UInt64) (w : Write) :
    ReaderAgrees userKey commitTs w ↔
      (Nat.digits 128 w.startTs.toNat).reverse = Nat.digits 128 w.startTs.toNat := by
  rw [← ofDigits_reverse_mod_eq_iff w.startTs.toNat_lt, ← toNat_inlineStartTs, UInt64.toNat_inj]
  constructor
  · exact fun h => h.startTs
  · intro h
    refine ⟨h, readInline_toBytes w, fun getValueCf kv hkv hcf => ?_, fun batcher => ⟨w.toBytes, ?_⟩⟩
    · rw [scanWrite_key hkv hcf, inlineDefaultKey_eq, h, defaultKeyOf]
    · rw [addFallback_record]
      have htail : fallbackStartTs 0 w.toBytes.tail = w.startTs := h
      rw [htail]; rfl

/-- **The transaction 128 is read as 1**, so the value goes under a key that no record points to. -/
theorem reader_disagrees_128 :
    ¬ ReaderAgrees [0x6d, 0x44, 0x42, 0x3a, 0x31] 200 (.new .put 128 (some ⟨[0x61], by decide⟩)) :=
  fun h => absurd h.startTs (by decide +kernel)

end Cdc
end Tikv
