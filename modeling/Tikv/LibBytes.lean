import Mathlib.Algebra.Ring.Nat
import Mathlib.Data.List.Lex
import Mathlib.Data.Set.Basic
/-!
# LibBytes — byte strings and their order

Byte strings compare lexicographically, byte by byte, a proper prefix being smaller: the order of `[u8]`.  `UInt8` is
made a linear order here, so that lists of bytes are one too.  A half-open range of keys whose end is empty has no upper
end; `keyRange_inter_nonempty` says when two of them meet.
-/
namespace Lib

instance instLinearOrderUInt8 : LinearOrder UInt8 where
  le_refl := UInt8.le_refl
  le_trans _ _ _ := UInt8.le_trans
  le_antisymm _ _ := UInt8.le_antisymm
  le_total := UInt8.le_total
  lt_iff_le_not_ge a b := by
    rw [UInt8.lt_iff_toNat_lt, UInt8.le_iff_toNat_le, UInt8.le_iff_toNat_le]; omega
  toDecidableLE := inferInstance
  toDecidableEq := inferInstance
  toDecidableLT := inferInstance

abbrev Bytes := List UInt8

instance instLawfulBEqBytes : LawfulBEq Bytes := inferInstance

theorem nil_lt_of_ne_nil {b : Bytes} (h : b ≠ []) : [] < b := by
  cases b with
  | nil => exact absurd rfl h
  | cons x xs => exact List.Lex.nil

open List in
theorem chunk_of_drop {data g tail : Bytes} {m : UInt8} {pos : Nat} (h : data.drop pos = g ++ m :: tail) :
    pos + g.length < data.length ∧ (data.drop pos).take g.length = g ∧ data[pos + g.length]? = some m ∧
      data.drop (pos + (g.length + 1)) = tail := by
  have hlen := congrArg length h
  rw [length_drop, length_append, length_cons] at hlen
  refine ⟨by omega, by rw [h, take_left], by rw [← getElem?_drop, h]; simp, ?_⟩
  rw [← drop_drop, h, drop_length_add_append]
  rfl

/-- The keys from `s` on and below `e`; an empty `e` stands for no upper end. -/
def keyRange (s e : Bytes) : Set Bytes := {k | s ≤ k ∧ (e = [] ∨ k < e)}

theorem keyRange_nonempty {s e : Bytes} : (keyRange s e).Nonempty ↔ e = [] ∨ s < e := by
  constructor
  · rintro ⟨k, hs, he⟩
    exact he.imp_right hs.trans_lt
  · intro h
    exact ⟨s, le_rfl, h⟩

-- The larger of the two starts lies in both ranges as soon as each start is below the other's end.
theorem keyRange_inter_nonempty {s e s' e' : Bytes} (h : (keyRange s e).Nonempty) (h' : (keyRange s' e').Nonempty) :
    (keyRange s e ∩ keyRange s' e').Nonempty ↔ (e = [] ∨ s' < e) ∧ (e' = [] ∨ s < e') := by
  rw [keyRange_nonempty] at h h'
  constructor
  · rintro ⟨k, ⟨hs, he⟩, hs', he'⟩
    exact ⟨he.imp_right hs'.trans_lt, he'.imp_right hs.trans_lt⟩
  · rintro ⟨he, he'⟩
    rcases le_total s s' with hle | hle
    · exact ⟨s', ⟨hle, he⟩, le_rfl, h'⟩
    · exact ⟨s, ⟨le_rfl, h⟩, hle, he'⟩

end Lib
