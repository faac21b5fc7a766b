import Tikv.LibBytes
import Mathlib.Data.List.Induction
/-!
# LibNumber — big-endian bytes and 64-bit shifts

A number's bytes, the highest first, and back; and what a 64-bit shift-and-or adds when the shifted bits are free, which
is how a decoder of 7-bit groups puts a number together.
-/
namespace Lib

open Nat List

def toBe : Nat → Nat → Bytes
  | 0, _ => []
  | n + 1, v => toBe n (v / 256) ++ [UInt8.ofNat v]

def ofBe (bs : Bytes) : Nat := bs.foldl (fun acc b => acc * 256 + b.toNat) 0

@[simp] theorem length_toBe : ∀ n v : Nat, (toBe n v).length = n
  | 0, _ => rfl
  | n + 1, v => by rw [toBe, length_append, length_toBe n]; rfl

theorem ofBe_append_singleton (bs : Bytes) (b : UInt8) : ofBe (bs ++ [b]) = ofBe bs * 256 + b.toNat := by
  unfold ofBe
  rw [foldl_append]; rfl

theorem ofBe_lt (bs : Bytes) : ofBe bs < 256 ^ bs.length := by
  induction bs using reverseRecOn with
  | nil => exact Nat.one_pos
  | append_singleton bs b ih =>
    have hb := b.toNat_lt
    rw [ofBe_append_singleton, length_append, length_singleton]
    omega

theorem ofBe_toBe : ∀ n v : Nat, ofBe (toBe n v) = v % 256 ^ n
  | 0, v => by rw [pow_zero, mod_one]; rfl
  | n + 1, v => by
    rw [toBe, ofBe_append_singleton, ofBe_toBe n, pow_succ, mul_comm (256 ^ n), mod_mul]
    have hb : (UInt8.ofNat v).toNat = v % 256 := UInt8.toNat_ofNat'
    omega

theorem toBe_ofBe (bs : Bytes) : toBe bs.length (ofBe bs) = bs := by
  induction bs using reverseRecOn with
  | nil => rfl
  | append_singleton bs b ih =>
    have hb := b.toNat_lt
    have hdiv : (ofBe bs * 256 + b.toNat) / 256 = ofBe bs := by omega
    have hlow : UInt8.ofNat (ofBe bs * 256 + b.toNat) = b := by
      apply UInt8.toNat_inj.1
      rw [UInt8.toNat_ofNat']
      omega
    rw [ofBe_append_singleton, length_append, length_singleton, toBe, hdiv, ih, hlow]

theorem and_top_bit_eq_zero_iff (b : UInt8) : b &&& 0x80 = 0 ↔ b.toNat < 128 := by
  have h : ∀ n : Fin 256, (n.val &&& 128 = 0) ↔ n.val < 128 := by
    decide +kernel
  rw [← UInt8.toNat_inj]
  exact h ⟨b.toNat, b.toNat_lt⟩

theorem toNat_or_shiftLeft {val x : UInt64} {k : Nat} (hk : k < 64) (hval : val.toNat < 2 ^ k)
    (hx : x.toNat * 2 ^ k < 2 ^ 64) : (val ||| x <<< UInt64.ofNat k).toNat = val.toNat + x.toNat * 2 ^ k := by
  have hshift : (UInt64.ofNat k).toNat % 64 = k := by
    rw [UInt64.toNat_ofNat']; omega
  rw [UInt64.toNat_or, UInt64.toNat_shiftLeft, hshift, shiftLeft_eq, mod_eq_of_lt hx, Nat.or_comm,
    ← shiftLeft_eq, ← shiftLeft_add_eq_or_of_lt hval, add_comm]

end Lib
