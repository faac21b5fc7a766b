import Tikv.CodecVarint
/-!
# CodecFirstLen — the length of the first item of a buffer (`codec::byte`)

The length of a memcomparable or compact byte string is found without decoding it: a length inside the buffer, and the item's
own where the buffer starts with one.  A compact length that is a small negative number makes the sum with the bytes of its
varint overflow (`firstLen_exact_iff`).  `none` is an overflow.
-/
namespace Tikv
namespace Codec

open Lib List

/-- A slice has no more than `isize::MAX` bytes. -/
abbrev Slice : Type := { bs : Bytes // bs.length < 2 ^ 63 }

def addUsize (a b : Nat) : Option Nat := if a + b < 2 ^ 64 then some (a + b) else none

def encodeGroups : Nat → Bytes → Bytes
  | 0, src => src ++ List.replicate (8 - src.length) 0 ++ [~~~ UInt8.ofNat (8 - src.length)]
  | n + 1, src => src.take 8 ++ 0xff :: encodeGroups n (src.drop 8)

def encodeAll (desc : Bool) (src : Bytes) : Bytes :=
  (encodeGroups (src.length / 8) src).map (if desc then (~~~ ·) else id)

def compactBytes (data : Bytes) : Bytes := NumberCodec.encodeVarI64 (Int64.ofNat data.length) ++ data

def parsePaddingSize (desc : Bool) (rawMarker : UInt8) : Nat := if desc then rawMarker.toNat else (~~~ rawMarker).toNat

def firstLenFrom (desc : Bool) (encoded : Bytes) : Nat → Nat → Option Nat
  | 0, _ => none
  | rounds + 1, idx => (addUsize idx 1).bind fun next =>
    if encoded.length < next then some encoded.length
    else if 0 < parsePaddingSize desc (encoded[idx]?.getD 0) then some next
    else (addUsize idx 9).bind (firstLenFrom desc encoded rounds)

def getFirstEncodedLen (desc : Bool) (encoded : Bytes) : Option Nat := firstLenFrom desc encoded (encoded.length + 1) 8

def CompactByteCodec.getFirstEncodedLen (encoded : Bytes) : Option Nat :=
  match readVarI64 encoded with
  | .error _ => some encoded.length
  | .ok (value, rest) =>
    (addUsize value.toUInt64.toNat (encoded.length - rest.length)).map (min · encoded.length)

/-- **The length is in the buffer, and the first item's** where the buffer starts with one. -/
def FirstLen (encode : Bytes → Bytes) (e : Bytes) (len : Option Nat) : Prop :=
  ∃ n, len = some n ∧ (e ≠ [] → 1 ≤ n ∧ n ≤ e.length) ∧ ∀ src, encode src <+: e → n = (encode src).length

/-- The buffer starts with a varint that stands for a negative number, no further from 0 than the varint has bytes. -/
def NegativeLength (e : Bytes) : Prop :=
  match readVarI64 e with
  | .error _ => False
  | .ok (value, rest) => value.toInt < 0 ∧ (rest.length : Int) ≤ e.length + value.toInt

variable {desc : Bool} {e : Bytes} {rounds pos : Nat}

theorem le_length_encodeGroups : ∀ (n : Nat) (src : Bytes), n ≤ (encodeGroups n src).length
  | 0, _ => Nat.zero_le _
  | n + 1, src => by
    have := le_length_encodeGroups n (src.drop 8)
    rw [encodeGroups, length_append, length_cons]
    omega

theorem readVarI64_length {rest : Bytes} {v : Int64} (h : readVarI64 e = .ok (v, rest)) : rest.length < e.length := by
  rw [readVarI64, readVarU64_eq] at h
  cases hr : varLoop tenthMasked 9 0 0 e with
  | error err => rw [hr] at h; cases h
  | ok r =>
    rw [hr] at h
    cases h
    exact varLoop_length hr

section

variable (he : e.length < 2 ^ 63)

include he

theorem firstLenFrom_succ {idx : Nat} (hle : idx ≤ e.length + 8) :
    firstLenFrom desc e (rounds + 1) idx = if e.length < idx + 1 then some e.length
      else if 0 < parsePaddingSize desc (e[idx]?.getD 0) then some (idx + 1)
      else firstLenFrom desc e rounds (idx + 9) := by
  have hone : addUsize idx 1 = some (idx + 1) := if_pos (by omega)
  have hnine : addUsize idx 9 = some (idx + 9) := if_pos (by omega)
  rw [firstLenFrom, hone, hnine]
  rfl

theorem firstLenFrom_bounds : ∀ {rounds idx : Nat}, idx ≤ e.length + 8 →
    e.length + 9 ≤ idx + rounds → ∃ n, firstLenFrom desc e rounds idx = some n ∧ (e ≠ [] → 1 ≤ n ∧ n ≤ e.length)
  | 0, idx, hle, hfuel => by omega
  | rounds + 1, idx, hle, hfuel => by
    rw [firstLenFrom_succ he hle]
    split
    · exact ⟨_, rfl, fun hne => ⟨length_pos_of_ne_nil hne, le_rfl⟩⟩
    split
    · exact ⟨_, rfl, fun _ => by omega⟩
    · exact firstLenFrom_bounds (by omega) (by omega)

variable (desc rounds) in
theorem firstLenFrom_group {g tail : Bytes} {m : UInt8} (hdrop : e.drop pos = g ++ m :: tail)
    (hg : g.length = 8) : e.drop (pos + 9) = tail ∧ firstLenFrom desc e (rounds + 1) (pos + 8) =
      if 0 < parsePaddingSize desc m then some (pos + 9) else firstLenFrom desc e rounds (pos + 9 + 8) := by
  obtain ⟨hlt, -, hm, htail⟩ := chunk_of_drop hdrop
  rw [hg] at hlt hm htail
  refine ⟨htail, ?_⟩
  rw [firstLenFrom_succ he (by omega), if_neg (by omega), hm]
  rfl

theorem firstLenFrom_encode {rest : Bytes} : ∀ {n rounds pos : Nat} {src : Bytes}, src.length / 8 = n → n < rounds →
    e.drop pos = (encodeGroups n src).map (if desc then (~~~ ·) else id) ++ rest →
    firstLenFrom desc e rounds (pos + 8) = some (pos + (encodeGroups n src).length)
  | 0, rounds + 1, pos, src, hn, _, hdrop => by
    have hpad : ∀ k < 8, 0 < parsePaddingSize desc ((if desc then (~~~ ·) else id) (~~~ UInt8.ofNat (8 - k))) := by
      cases desc <;> decide
    simp only [encodeGroups, map_append, append_assoc] at hdrop
    rw [← append_assoc] at hdrop
    rw [(firstLenFrom_group desc rounds he hdrop (by simp; omega)).2, if_pos (hpad _ (by omega)), encodeGroups]
    simp
    omega
  | n + 1, rounds + 1, pos, src, hn, hlt, hdrop => by
    have hmark : ¬ 0 < parsePaddingSize desc ((if desc then (~~~ ·) else id) 0xff) := by cases desc <;> decide
    rw [encodeGroups, map_append, append_assoc] at hdrop
    obtain ⟨htail, hstep⟩ := firstLenFrom_group desc rounds he hdrop (by simp; omega)
    rw [hstep, if_neg hmark, firstLenFrom_encode (by simp; omega) (by omega) htail, encodeGroups]
    simp
    omega

theorem firstLen_encodeAll (desc : Bool) : FirstLen (encodeAll desc) e (getFirstEncodedLen desc e) := by
  obtain ⟨n, hn, hbounds⟩ : ∃ n, getFirstEncodedLen desc e = some n ∧ _ := firstLenFrom_bounds he (by omega) (by omega)
  refine ⟨n, hn, hbounds, fun src ⟨rest, hrest⟩ => ?_⟩
  have hlen := congrArg length hrest
  rw [encodeAll, length_append, length_map] at hlen
  have hle := le_length_encodeGroups (src.length / 8) src
  have hfirst : getFirstEncodedLen desc e = _ := firstLenFrom_encode he rfl (by omega) hrest.symm
  rw [encodeAll, length_map, Option.some.inj (hn.symm.trans hfirst), zero_add]

theorem readVarI64_compactBytes {src : Bytes} (hsrc : compactBytes src <+: e) :
    ∃ v rest, readVarI64 e = .ok (v, rest) ∧
      min (v.toUInt64.toNat + (e.length - rest.length)) e.length = (compactBytes src).length := by
  obtain ⟨rest, rfl⟩ := hsrc
  have hlen : (compactBytes src).length = _ + src.length := length_append
  rw [length_append] at he
  have hcast : (Int64.ofNat src.length).toUInt64.toNat = src.length := by
    show (UInt64.ofNat src.length).toNat = _
    rw [UInt64.toNat_ofNat']
    omega
  refine ⟨Int64.ofNat src.length, src ++ rest, ?_, ?_⟩
  · rw [compactBytes, append_assoc]
    show readVarI64 (NumberCodec.encodeVarLoop 9 _ ++ _) = _
    rw [numberCodec_encodeVarLoop]
    exact readVarI64_encode _ _
  · rw [length_append, length_append]
    omega

theorem firstLen_compactBytes :
    FirstLen compactBytes e (CompactByteCodec.getFirstEncodedLen e) ↔ ¬ NegativeLength e := by
  unfold CompactByteCodec.getFirstEncodedLen NegativeLength
  cases hread : readVarI64 e with
  | error err =>
    refine iff_of_true ⟨_, rfl, fun hne => ⟨length_pos_of_ne_nil hne, le_rfl⟩, fun src hsrc => ?_⟩ id
    obtain ⟨v, rest, hread', -⟩ := readVarI64_compactBytes he hsrc
    cases hread.symm.trans hread'
  | ok r =>
    obtain ⟨v, rest⟩ := r
    have hrest := readVarI64_length hread
    have hv := v.toUInt64.toNat_lt
    have hover : ¬ (v.toInt < 0 ∧ (rest.length : Int) ≤ e.length + v.toInt) ↔
        v.toUInt64.toNat + (e.length - rest.length) < 2 ^ 64 := by
      rw [toInt_eq]
      split <;> omega
    dsimp only
    rw [hover]
    constructor
    · rintro ⟨n, hn, -⟩
      by_contra hge
      rw [addUsize, if_neg hge] at hn
      cases hn
    · intro hlt
      refine ⟨min (v.toUInt64.toNat + (e.length - rest.length)) e.length, by rw [addUsize, if_pos hlt]; rfl,
        fun _ => by omega, fun src hsrc => ?_⟩
      obtain ⟨v', rest', hread', hlen⟩ := readVarI64_compactBytes he hsrc
      cases hread.symm.trans hread'
      exact hlen

end

/-- **The lengths are exact**, but for a compact string with a small negative length. -/
theorem firstLen_exact_iff (e : Slice) : (∀ desc, FirstLen (encodeAll desc) e.1 (getFirstEncodedLen desc e.1)) ∧
    (FirstLen compactBytes e.1 (CompactByteCodec.getFirstEncodedLen e.1) ↔ ¬ NegativeLength e.1) :=
  ⟨firstLen_encodeAll e.2, firstLen_compactBytes e.2⟩

theorem firstLen_overflows : CompactByteCodec.getFirstEncodedLen [1] = none := by decide

end Codec
end Tikv
