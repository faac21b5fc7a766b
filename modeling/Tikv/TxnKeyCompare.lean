import Mathlib.Data.List.Forall2
import Tikv.TxnKey
/-!
# TxnKeyCompare — comparisons that start at the tail (`bytes::is_encoded_from`, `Key::is_user_key_eq`)

Keys that differ mostly differ in their last bytes.  A key is therefore compared with what it may be encoded from chunk by
chunk from the end, and the user key of a version by its last eight bytes first, read as one word.  Both are the plain
comparison, on malformed keys too (`keyComparisons_exact`).
-/
namespace Tikv
namespace Codec

open Lib List

def chunksExact (size : Nat) : Nat → Bytes → List Bytes
  | 0, _ => []
  | n + 1, bs => bs.take size :: chunksExact size n (bs.drop size)

def rchunksExact (size : Nat) : Nat → Bytes → List Bytes
  | 0, _ => []
  | n + 1, bs => bs.drop (bs.length - size) :: rchunksExact size n (bs.take (bs.length - size))

def checkSingleChunk (desc : Bool) (encoded raw : Bytes) : Bool :=
  let len := raw.length
  let pad := UInt8.ofNat (encGroupSize - len)
  if desc then
    encoded[encGroupSize]? == some (~~~ (encMarker - pad)) &&
      ((encoded.take len).zip raw).all (fun (enc, raw) => enc == ~~~ raw) &&
      ((encoded.take (encoded.length - 1)).drop len).all (· == encMarker)
  else
    encoded[encGroupSize]? == some (encMarker - pad) && encoded.take len == raw &&
      ((encoded.take (encoded.length - 1)).drop len).all (· == ~~~ encMarker)

def isEncodedFrom (encoded raw : Bytes) (desc : Bool) : Bool :=
  if !(encoded.take (encoded.length % (encGroupSize + 1))).isEmpty then false
  else
    let rawChunks := chunksExact encGroupSize (raw.length / encGroupSize) raw
    let remainder := raw.drop (encGroupSize * (raw.length / encGroupSize))
    match rchunksExact (encGroupSize + 1) (encoded.length / (encGroupSize + 1)) encoded with
    | [] => false
    | encodedChunk :: revEncodedChunks =>
      if !checkSingleChunk desc encodedChunk remainder then false
      else if revEncodedChunks.length ≠ rawChunks.length then false
      else (revEncodedChunks.zip rawChunks.reverse).all fun (encodedChunk, rawChunk) =>
        checkSingleChunk desc encodedChunk rawChunk

variable {desc : Bool} {raw encoded : Bytes}

section

variable (he : encoded.length = encGroupSize + 1)
include he

theorem chunk_eq_iff {c m : UInt8} (hr : raw.length ≤ encGroupSize) :
    encoded = raw ++ replicate (encGroupSize - raw.length) c ++ [m] ↔ encoded[encGroupSize]? = some m ∧
      encoded.take raw.length = raw ∧ ∀ b ∈ (encoded.take (encoded.length - 1)).drop raw.length, b = c := by
  obtain ⟨v, x, rfl⟩ : ∃ v x, encoded = v ++ [x] :=
    (eq_nil_or_concat' encoded).resolve_left (by rintro rfl; cases he)
  have hv : v.length = encGroupSize := by simpa using he
  have hpad : (v.drop raw.length = replicate (encGroupSize - raw.length) c) ↔ ∀ b ∈ v.drop raw.length, b = c := by
    rw [eq_replicate_iff, length_drop, hv, and_iff_right rfl]
  have hx : (v ++ [x])[encGroupSize]? = some x := by simp [← hv]
  rw [hx, take_append_of_le_length (hr.trans hv.ge), length_append, length_singleton, Nat.add_sub_cancel, take_left,
    Option.some_inj, append_singleton_inj, eq_iff_take_drop raw.length v, take_left, drop_left]
  tauto

theorem checkSingleChunk_iff (hr : raw.length ≤ encGroupSize) :
    checkSingleChunk desc encoded raw = true ↔ encoded = adjustBytesOrder (encodeGroup raw) desc := by
  cases desc
  · refine Iff.trans ?_ (chunk_eq_iff he hr).symm
    simp [checkSingleChunk, and_assoc, show ~~~ encMarker = 0 from rfl]
  · have hmap : (∀ p ∈ (encoded.take raw.length).zip raw, p.1 = ~~~ p.2) ↔
        encoded.take raw.length = raw.map (~~~ ·) := by
      rw [← forall₂_eq_eq_eq, forall₂_map_right_iff, forall₂_iff_zip]
      simp
      omega
    have henc : adjustBytesOrder (encodeGroup raw) true = raw.map (~~~ ·) ++
        replicate (encGroupSize - (raw.map (~~~ ·)).length) encMarker ++
          [~~~ (encMarker - UInt8.ofNat (encGroupSize - raw.length))] := by
      simp [adjustBytesOrder, encodeGroup, encMarker, show (-1 : UInt8) = 255 from rfl]
    rw [henc, chunk_eq_iff he (by simpa using hr), length_map, ← hmap]
    simp [checkSingleChunk, and_assoc]

end

theorem length_adjusted (hr : raw.length ≤ 8) :
    (adjustBytesOrder (encodeGroup raw) desc).length = 9 := by
  cases desc
  · exact length_encodeGroup hr
  · exact (length_map _).trans (length_encodeGroup hr)

theorem forall₂_rchunksExact_iff : ∀ (n : Nat) {encoded : Bytes} {raws : List Bytes},
    encoded.length = 9 * n → (∀ raw ∈ raws, raw.length ≤ 8) →
    (Forall₂ (fun e r => checkSingleChunk desc e r = true) (rchunksExact 9 n encoded) raws ↔
      encoded = raws.reverse.flatMap fun raw => adjustBytesOrder (encodeGroup raw) desc)
  | 0, encoded, [], he, _ => by simpa [rchunksExact] using he
  | n + 1, encoded, [], he, _ => by
    have : encoded ≠ [] := by rintro rfl; simp at he
    simpa [rchunksExact] using this
  | n, encoded, raw :: raws, he, hr => by
    rw [forall_mem_cons] at hr
    have hlen : (adjustBytesOrder (encodeGroup raw) desc).length = 9 := length_adjusted hr.1
    rw [reverse_cons, flatMap_append, flatMap_singleton]
    cases n with
    | zero =>
      refine iff_of_false (nomatch ·) fun h => ?_
      rw [h, length_append] at he
      omega
    | succ n =>
      have hlast : (encoded.drop (encoded.length - 9)).length = 9 := by rw [length_drop]; omega
      rw [rchunksExact, forall₂_cons, checkSingleChunk_iff hlast hr.1,
        forall₂_rchunksExact_iff n (by rw [length_take]; omega) hr.2]
      constructor
      · rintro ⟨h₁, h₂⟩
        rw [← h₁, ← h₂, take_append_drop]
      · intro h
        rw [← take_append_drop (encoded.length - 9) encoded] at h
        exact (append_inj' h (hlast.trans hlen.symm)).symm

theorem encodeLoop_eq_flatMap : ∀ (n : Nat) {rounds index : Nat}, n < rounds →
    index + 8 * n ≤ raw.length → raw.length < index + 8 * (n + 1) →
    encodeLoop raw desc rounds index = (chunksExact 8 n (raw.drop index) ++
      [raw.drop (index + 8 * n)]).flatMap fun raw => adjustBytesOrder (encodeGroup raw) desc
  | _, 0, _, h, _, _ => absurd h (Nat.not_lt_zero _)
  | 0, rounds + 1, index, _, hle, hlt => by
    have hlen : (raw.drop index).length ≤ encGroupSize := by rw [length_drop]; unfold encGroupSize; omega
    rw [encodeLoop_of_le (by omega), encodeLoop_of_gt (by unfold encGroupSize; omega), take_of_length_le hlen]
    simp [chunksExact]
  | n + 1, rounds + 1, index, h, hle, hlt => by
    have ih : encodeLoop raw desc rounds (index + 8) = _ := encodeLoop_eq_flatMap n (by omega) (by omega) (by omega)
    rw [encodeLoop_of_le (by omega), chunksExact, cons_append, drop_drop, Nat.mul_succ, add_comm (8 * n), ← add_assoc]
    exact congrArg _ ih

theorem length_le_of_mem_chunksExact : ∀ {n : Nat} {bs c : Bytes}, c ∈ chunksExact 8 n bs → c.length ≤ 8
  | n + 1, bs, c, h => by
    rcases mem_cons.1 h with rfl | h
    · rw [length_take]; omega
    · exact length_le_of_mem_chunksExact h

theorem isEncodedFrom_iff (encoded raw : Bytes) :
    isEncodedFrom encoded raw desc = true ↔ encoded = encodeOrderBytes raw desc := by
  let raws := raw.drop (8 * (raw.length / 8)) :: (chunksExact 8 (raw.length / 8) raw).reverse
  have hspec : encodeOrderBytes raw desc = raws.reverse.flatMap fun raw => adjustBytesOrder (encodeGroup raw) desc := by
    have : encodeOrderBytes raw desc = _ := encodeLoop_eq_flatMap (raw.length / 8) (by omega) (by omega) (by omega)
    rw [this, reverse_cons, reverse_reverse, drop_zero, zero_add]
  have hraws : ∀ r ∈ raws, r.length ≤ 8 := by
    refine forall_mem_cons.2 ⟨?_, fun r hr => length_le_of_mem_chunksExact (mem_reverse.1 hr)⟩
    rw [length_drop]; omega
  have hlen : (encodeOrderBytes raw desc).length = (raw.length / 8 + 1) * 9 := by
    cases desc
    · exact length_encodeBytes raw
    · exact (congrArg length (encodeBytesDesc_eq raw)).trans ((length_map _).trans (length_encodeBytes raw))
  by_cases hmod : encoded.length % 9 = 0
  · rw [hspec, ← forall₂_rchunksExact_iff (encoded.length / 9) (by omega) hraws]
    simp only [isEncodedFrom, encGroupSize, hmod]
    cases rchunksExact 9 (encoded.length / 9) encoded with
    | nil => simp
    | cons c cs =>
      rw [forall₂_cons, forall₂_iff_zip]
      by_cases hcount : cs.length = (chunksExact 8 (raw.length / 8) raw).length
      · simp [hcount]
      · simp [hcount]
  · have hne : encoded ≠ encodeOrderBytes raw desc := by
      rintro rfl
      omega
    have : encoded ≠ [] := by
      rintro rfl
      exact hmod rfl
    simp [isEncodedFrom, encGroupSize, hmod, hne, this]

end Codec

namespace Txn

open Lib Codec List

def readU64Native (bigEndian : Bool) (bs : Bytes) : Nat := ofBe (if bigEndian then bs.take 8 else (bs.take 8).reverse)

def isUserKeyEq (bigEndian : Bool) (tsEncodedKey userKey : Bytes) : Bool :=
  let userKeyLen := userKey.length
  if tsEncodedKey.length ≠ userKeyLen + 8 then false
  else if userKeyLen ≥ 8 then
    let left := readU64Native bigEndian (tsEncodedKey.drop (userKeyLen - 8))
    let right := readU64Native bigEndian (userKey.drop (userKeyLen - 8))
    if left ≠ right then false
    else tsEncodedKey.take (userKeyLen - 8) == userKey.take (userKeyLen - 8)
  else tsEncodedKey.take userKeyLen == userKey

theorem readU64Native_inj {bigEndian : Bool} {u v : Bytes} (hu : 8 ≤ u.length) (hv : 8 ≤ v.length) :
    readU64Native bigEndian u = readU64Native bigEndian v ↔ u.take 8 = v.take 8 := by
  have hofBe {x y : Bytes} (h : x.length = y.length) : ofBe x = ofBe y ↔ x = y :=
    ⟨fun he => by rw [← toBe_ofBe x, he, h, toBe_ofBe], congrArg ofBe⟩
  cases bigEndian
  · exact (hofBe (by simp [hu, hv])).trans reverse_inj
  · exact hofBe (by simp [hu, hv])

theorem isUserKeyEq_iff (bigEndian : Bool) (e u : Bytes) :
    isUserKeyEq bigEndian e u = true ↔ e.length = u.length + 8 ∧ u <+: e := by
  unfold isUserKeyEq
  by_cases hlen : e.length = u.length + 8
  · rw [if_neg (not_not.2 hlen), and_iff_right hlen, prefix_iff_eq_take]
    split
    · -- the last eight bytes, then the ones before
      rename_i h8
      have hword : readU64Native bigEndian (e.drop (u.length - 8)) = readU64Native bigEndian (u.drop (u.length - 8)) ↔
          (e.take u.length).drop (u.length - 8) = u.drop (u.length - 8) := by
        rw [readU64Native_inj (by simp; omega) (by simp; omega), take_drop, take_drop, Nat.sub_add_cancel h8, take_length]
      rw [eq_iff_take_drop (u.length - 8) u, take_take, min_eq_left (Nat.sub_le _ _)]
      by_cases h : readU64Native bigEndian (e.drop (u.length - 8)) = readU64Native bigEndian (u.drop (u.length - 8))
      · rw [if_neg (not_not.2 h), beq_iff_eq, and_iff_left (hword.1 h).symm, eq_comm]
      · rw [if_pos h]
        exact iff_of_false Bool.false_ne_true fun hu => h (hword.2 hu.2.symm)
    · rw [beq_iff_eq, eq_comm]
  · simp [hlen]

/-- **Both comparisons are the plain ones**: a key passes as encoded from a string, in either order, exactly when it is the
string's encoding, and a version as one of a user key exactly when it is the user key and eight bytes. -/
theorem keyComparisons_exact (e : Bytes) :
    (∀ raw desc, isEncodedFrom e raw desc = true ↔ e = encodeOrderBytes raw desc) ∧
    ∀ bigEndian u, isUserKeyEq bigEndian e u = true ↔ e.length = u.length + 8 ∧ u <+: e :=
  ⟨fun raw _ => isEncodedFrom_iff e raw, fun bigEndian => isUserKeyEq_iff bigEndian e⟩

end Txn
end Tikv
