import Tikv.CodecNumber
import Tikv.LibMemcmp
/-!
# CodecBytes — the memcomparable encoding of byte strings (`tikv_util::codec::bytes`)

A byte string is cut into groups of eight.  A full group is followed by the marker `0xff`; the last group, which holds at
most seven bytes, is padded with zeros and followed by `0xff` less the length of the padding.  The descending encoding
complements every byte.  Encoded strings compare as the strings themselves, whatever is appended to them
(`memcomparable_encodeBytes`).
-/
namespace Tikv
namespace Codec

open Lib List UInt8

def encGroupSize : Nat := 8
def encMarker : UInt8 := 0xff

def maxEncodedBytesSize (n : Nat) : Nat := (n / encGroupSize + 1) * (encGroupSize + 1)

def adjustBytesOrder (bs : Bytes) (desc : Bool) : Bytes := if desc then bs.map (~~~ ·) else bs

def padding (desc : Bool) (pad : Nat) : Bytes := List.replicate pad (if desc then ~~~ 0 else 0)

/-- The loop of `encode_bytes`, from `index` on, for at most so many rounds. -/
def encodeLoop (key : Bytes) (desc : Bool) : Nat → Nat → Bytes
  | 0, _ => []
  | rounds + 1, index =>
    if index ≤ key.length then
      let remain := key.length - index
      if remain > encGroupSize then
        adjustBytesOrder ((key.drop index).take encGroupSize) desc ++ adjustBytesOrder [encMarker - 0] desc ++
          encodeLoop key desc rounds (index + encGroupSize)
      else
        let pad := encGroupSize - remain
        adjustBytesOrder (key.drop index) desc ++ padding desc pad ++
          adjustBytesOrder [encMarker - UInt8.ofNat pad] desc ++ encodeLoop key desc rounds (index + encGroupSize)
    else []

/-- A round moves on by a group, so there are no more rounds than `length + 1`. -/
def encodeOrderBytes (bs : Bytes) (desc : Bool) : Bytes := encodeLoop bs desc (bs.length + 1) 0

def encodeBytes (bs : Bytes) : Bytes := encodeOrderBytes bs false

def encodeBytesDesc (bs : Bytes) : Bytes := encodeOrderBytes bs true

/-! ## Group by group -/

def encodeGroup (g : Bytes) : Bytes :=
  g ++ List.replicate (encGroupSize - g.length) 0 ++ [encMarker - UInt8.ofNat (encGroupSize - g.length)]

theorem length_encodeGroup {g : Bytes} (h : g.length ≤ encGroupSize) : (encodeGroup g).length = encGroupSize + 1 := by
  unfold encodeGroup
  simp only [length_append, length_replicate, length_singleton]
  omega

@[simp] theorem adjustBytesOrder_append (u v : Bytes) (desc : Bool) :
    adjustBytesOrder (u ++ v) desc = adjustBytesOrder u desc ++ adjustBytesOrder v desc := by
  cases desc
  · rfl
  · exact map_append

theorem padding_eq (desc : Bool) (pad : Nat) : padding desc pad = adjustBytesOrder (List.replicate pad 0) desc := by
  cases desc
  · rfl
  · simp [padding, adjustBytesOrder]

theorem encodeLoop_of_gt {key : Bytes} {desc : Bool} {index : Nat} (h : key.length < index) (rounds : Nat) :
    encodeLoop key desc rounds index = [] := by
  cases rounds with
  | zero => rfl
  | succ rounds => rw [encodeLoop, if_neg (not_le.2 h)]

theorem encodeLoop_of_le {key : Bytes} {desc : Bool} {index : Nat} (h : index ≤ key.length) (rounds : Nat) :
    encodeLoop key desc (rounds + 1) index = adjustBytesOrder (encodeGroup ((key.drop index).take encGroupSize)) desc ++
      encodeLoop key desc rounds (index + encGroupSize) := by
  rw [encodeLoop, if_pos h]
  dsimp only
  split
  · have hlen : ((key.drop index).take encGroupSize).length = encGroupSize := by
      rw [length_take, length_drop]; omega
    simp [encodeGroup, hlen]
  · have hlen : (key.drop index).length = key.length - index := length_drop
    rw [take_of_length_le (by omega), encodeGroup, adjustBytesOrder_append, adjustBytesOrder_append, hlen, padding_eq]

/-! ## Order -/

theorem replicate_zero_append_lt : ∀ (zs : Bytes) {c d : UInt8}, c < d →
    List.replicate zs.length 0 ++ [c] < zs ++ [d]
  | [], _, _, h => cons_lt_cons_iff.2 (.inl h)
  | z :: zs, _, _, h => by
    rw [length_cons, replicate_succ, cons_append, cons_append, cons_lt_cons_iff]
    have hz : (0 : UInt8) ≤ z := le_iff_toNat_le.2 (Nat.zero_le _)
    rcases hz.lt_or_eq with hlt | heq
    · exact .inl hlt
    · exact .inr ⟨heq, replicate_zero_append_lt zs h⟩

theorem marker_lt_marker {m n : Nat} (hm : m ≤ encGroupSize) (hn : n < m) :
    encMarker - ofNat m < encMarker - ofNat n := by
  have htable : ∀ m ≤ 8, ∀ n < m, encMarker - ofNat m < encMarker - ofNat n := by decide
  exact htable m hm n hn

theorem pad_lt_pad : ∀ {k : Nat} {g h : Bytes}, k ≤ encGroupSize → h.length ≤ k → g.length ≤ k → g < h →
    g ++ List.replicate (k - g.length) 0 ++ [encMarker - ofNat (k - g.length)] <
      h ++ List.replicate (k - h.length) 0 ++ [encMarker - ofNat (k - h.length)]
  | _, g, [], _, _, _, hgh => absurd hgh (List.not_lt_nil g)
  | k, [], y :: ys, hk, hlen, _, _ => by
    -- the shorter group has more padding, hence the smaller marker
    have hmark := marker_lt_marker (m := k) (n := k - (y :: ys).length) hk (by simp at hlen ⊢; omega)
    have hzs : ((y :: ys) ++ replicate (k - (y :: ys).length) (0 : UInt8)).length = k := by
      simp only [length_append, length_replicate]; omega
    have := replicate_zero_append_lt ((y :: ys) ++ replicate (k - (y :: ys).length) 0) hmark
    rwa [hzs] at this
  | k + 1, x :: xs, y :: ys, hk, hy, hx, hgh => by
    rw [cons_lt_cons_iff] at hgh
    simp only [cons_append, length_cons, Nat.add_sub_add_right] at hx hy ⊢
    rw [cons_lt_cons_iff]
    refine hgh.imp_right fun ⟨hxy, hlt⟩ => ⟨hxy, ?_⟩
    exact pad_lt_pad (by omega) (by omega) (by omega) hlt
  | 0, _ :: _, _ :: _, _, hy, _, _ => absurd hy (by simp)

section

variable {g h : Bytes} (hg : g.length ≤ encGroupSize) (hh : h.length ≤ encGroupSize)
include hg hh

theorem encodeGroup_lt (hgh : g < h) : encodeGroup g < encodeGroup h := pad_lt_pad le_rfl hh hg hgh

theorem encodeGroup_lt_iff : encodeGroup g < encodeGroup h ↔ g < h := by
  refine ⟨fun hlt => ?_, encodeGroup_lt hg hh⟩
  rcases lt_trichotomy g h with h1 | rfl | h1
  · exact h1
  · exact absurd hlt (lt_irrefl _)
  · exact absurd (encodeGroup_lt hh hg h1) (lt_asymm hlt)

theorem encodeGroup_inj : encodeGroup g = encodeGroup h ↔ g = h := by
  refine ⟨fun heq => ?_, congrArg encodeGroup⟩
  rcases lt_trichotomy g h with h1 | h1 | h1
  · exact absurd (heq ▸ encodeGroup_lt hg hh h1) (lt_irrefl _)
  · exact h1
  · exact absurd (heq ▸ encodeGroup_lt hh hg h1) (lt_irrefl _)

end

theorem eq_iff_take_drop (n : Nat) (u v : Bytes) : u = v ↔ u.take n = v.take n ∧ u.drop n = v.drop n := by
  constructor
  · rintro rfl
    exact ⟨rfl, rfl⟩
  · rintro ⟨h₁, h₂⟩
    rw [← take_append_drop n u, h₁, h₂, take_append_drop]

theorem encodeLoop_append_lt_iff {a b : Bytes} (x y : Bytes) : ∀ {m n index : Nat}, index ≤ a.length →
    index ≤ b.length → a.length < index + m → b.length < index + n →
    (encodeLoop a false m index ++ x < encodeLoop b false n index ++ y ↔
      a.drop index < b.drop index ∨ a.drop index = b.drop index ∧ x < y)
  | 0, _, _, ha, _, hm, _ => by omega
  | _ + 1, 0, _, _, hb, _, hn => by omega
  | m + 1, n + 1, index, ha, hb, hm, hn => by
    have hpos : 0 < encGroupSize := by decide
    have hg : ((a.drop index).take encGroupSize).length ≤ encGroupSize := by rw [length_take]; omega
    have hh : ((b.drop index).take encGroupSize).length ≤ encGroupSize := by rw [length_take]; omega
    rw [encodeLoop_of_le ha, encodeLoop_of_le hb, append_assoc, append_assoc]
    show encodeGroup _ ++ _ < encodeGroup _ ++ _ ↔ _
    rw [append_lt_append_iff ((length_encodeGroup hg).trans (length_encodeGroup hh).symm), encodeGroup_lt_iff hg hh,
      encodeGroup_inj hg hh, lt_iff_take_drop encGroupSize (a.drop index),
      eq_iff_take_drop encGroupSize (a.drop index)]
    by_cases heq : (a.drop index).take encGroupSize = (b.drop index).take encGroupSize
    · have hlen := congrArg length heq
      rw [length_take, length_take, length_drop, length_drop] at hlen
      have hrest : encodeLoop a false m (index + encGroupSize) ++ x < encodeLoop b false n (index + encGroupSize) ++ y ↔
          (a.drop index).drop encGroupSize < (b.drop index).drop encGroupSize ∨
            (a.drop index).drop encGroupSize = (b.drop index).drop encGroupSize ∧ x < y := by
        rw [drop_drop, drop_drop]
        by_cases hfull : index + encGroupSize ≤ a.length
        · exact encodeLoop_append_lt_iff x y hfull (by omega) (by omega) (by omega)
        -- the group was the last one of both
        rw [encodeLoop_of_gt (by omega), encodeLoop_of_gt (by omega), drop_of_length_le (by omega),
          drop_of_length_le (by omega)]
        simp
      tauto
    · tauto

theorem memcomparable_encodeBytes : Memcomparable encodeBytes := fun _ _ x y =>
  encodeLoop_append_lt_iff x y (Nat.zero_le _) (Nat.zero_le _) (by omega) (by omega)

theorem encodeU64Desc_lt_iff (s t : UInt64) : encodeU64Desc s < encodeU64Desc t ↔ t < s := by
  have hs := s.toNat_lt
  unfold encodeU64Desc encodeU64
  rw [toBe_lt_toBe_iff (UInt64.toNat_lt _) (UInt64.toNat_lt _), UInt64.toNat_not, UInt64.toNat_not,
    UInt64.lt_iff_toNat_lt]
  unfold UInt64.size
  omega

/-! ## Descending, and the length -/

theorem encodeLoop_desc (key : Bytes) : ∀ rounds index : Nat,
    encodeLoop key true rounds index = (encodeLoop key false rounds index).map (~~~ ·)
  | 0, _ => rfl
  | rounds + 1, index => by
    by_cases h : index ≤ key.length
    · rw [encodeLoop_of_le h, encodeLoop_of_le h, map_append, encodeLoop_desc key rounds]
      rfl
    rw [encodeLoop_of_gt (by omega), encodeLoop_of_gt (by omega)]
    rfl

theorem encodeBytesDesc_eq (bs : Bytes) : encodeBytesDesc bs = (encodeBytes bs).map (~~~ ·) := encodeLoop_desc bs _ 0

theorem length_encodeLoop (key : Bytes) : ∀ rounds index : Nat, index ≤ key.length → key.length < index + rounds →
    (encodeLoop key false rounds index).length = maxEncodedBytesSize (key.length - index)
  | 0, index, hle, hlt => by omega
  | rounds + 1, index, hle, hlt => by
    have hpos : 0 < encGroupSize := by decide
    have hg : ((key.drop index).take encGroupSize).length ≤ encGroupSize := by rw [length_take]; omega
    rw [encodeLoop_of_le hle, length_append]
    show (encodeGroup _).length + _ = _
    rw [length_encodeGroup hg]
    unfold maxEncodedBytesSize
    by_cases hfull : index + encGroupSize ≤ key.length
    · rw [length_encodeLoop key rounds _ hfull (by omega)]
      have hdiv : (key.length - index) / encGroupSize = (key.length - (index + encGroupSize)) / encGroupSize + 1 := by
        exact Nat.div_eq_sub_div hpos (by omega)
      unfold maxEncodedBytesSize
      rw [hdiv]
      unfold encGroupSize
      omega
    · have hdiv : (key.length - index) / encGroupSize = 0 := Nat.div_eq_of_lt (by omega)
      rw [encodeLoop_of_gt (by omega), hdiv]
      simp

/-- **The encoded length is `max_encoded_bytes_size`**, so the buffer it reserves never grows. -/
theorem length_encodeBytes (bs : Bytes) : (encodeBytes bs).length = maxEncodedBytesSize bs.length :=
  length_encodeLoop bs _ 0 (Nat.zero_le _) (by omega)

end Codec
end Tikv
