import Tikv.LibNumber
/-!
# LibMemcmp — codes that compare as what they encode

A code is memcomparable when its words followed by anything compare first as the values they stand for and then as what
follows.  Such a code is strictly monotone and no word is a prefix of another one, so codes can be written one after the
other.  A code of fixed width need only be strictly monotone.
-/
namespace Lib

open List

section

variable {α : Type*} [LinearOrder α]

/-- The words of the code, whatever follows them, compare as the values do. -/
def Memcomparable (f : α → Bytes) : Prop :=
  ∀ a b x y, f a ++ x < f b ++ y ↔ a < b ∨ a = b ∧ x < y

variable {f : α → Bytes}

theorem Memcomparable.lt_iff (h : Memcomparable f) (a b : α) : f a < f b ↔ a < b := by
  have := h a b [] []
  simpa using this

/-- **No word is a prefix of another.**  What is left of the longer word would have to be both smaller and not smaller
than nothing. -/
theorem Memcomparable.eq_of_isPrefix (h : Memcomparable f) {a b : α} (hab : f a <+: f b) : a = b := by
  obtain ⟨rest, hrest⟩ := hab
  rcases lt_trichotomy a b with hlt | heq | hgt
  · -- the words `f a ++ rest` and `f b` are the same, yet the first is smaller
    have := (h a b rest []).2 (.inl hlt)
    rw [hrest, append_nil] at this
    exact absurd this (lt_irrefl _)
  · exact heq
  · have := (h b a [] rest).2 (.inl hgt)
    rw [hrest, append_nil] at this
    exact absurd this (lt_irrefl _)

end

/-! ## Words of one length -/

theorem append_lt_append_iff : ∀ {u v : Bytes}, u.length = v.length → ∀ x y : Bytes,
    (u ++ x < v ++ y ↔ u < v ∨ u = v ∧ x < y)
  | [], [], _, x, y => by simp
  | a :: u, b :: v, h, x, y => by
    have ih := append_lt_append_iff (Nat.succ.inj h) x y
    rw [cons_append, cons_append, cons_lt_cons_iff, cons_lt_cons_iff, cons.injEq]
    tauto

theorem ofBe_cons (b : UInt8) (bs : Bytes) : ofBe (b :: bs) = b.toNat * 256 ^ bs.length + ofBe bs := by
  induction bs using reverseRecOn with
  | nil => simp [ofBe]
  | append_singleton bs c ih =>
    rw [← cons_append, ofBe_append_singleton, ih, ofBe_append_singleton, length_append, length_singleton,
      Nat.pow_succ, add_mul, mul_assoc, add_assoc]

theorem lt_iff_ofBe_lt : ∀ {u v : Bytes}, u.length = v.length → (u < v ↔ ofBe u < ofBe v)
  | [], [], _ => by simp
  | a :: u, b :: v, h => by
    have hlen : u.length = v.length := Nat.succ.inj h
    have hu := ofBe_lt u
    have hv := ofBe_lt v
    rw [cons_lt_cons_iff, lt_iff_ofBe_lt hlen, ofBe_cons, ofBe_cons, hlen]
    rw [hlen] at hu
    rcases lt_trichotomy a b with hab | rfl | hab
    · have hnat : a.toNat + 1 ≤ b.toNat := UInt8.lt_iff_toNat_lt.1 hab
      have hmul := Nat.mul_le_mul_right (256 ^ v.length) hnat
      rw [add_mul] at hmul
      exact iff_of_true (.inl hab) (by omega)
    · simp
    · have hnat : b.toNat + 1 ≤ a.toNat := UInt8.lt_iff_toNat_lt.1 hab
      have hmul := Nat.mul_le_mul_right (256 ^ v.length) hnat
      rw [add_mul] at hmul
      refine iff_of_false ?_ (by omega)
      rintro (hlt | ⟨rfl, -⟩)
      · exact lt_asymm hlt hab
      · exact lt_irrefl _ hab

theorem toBe_lt_toBe_iff {n v w : Nat} (hv : v < 256 ^ n) (hw : w < 256 ^ n) : toBe n v < toBe n w ↔ v < w := by
  rw [lt_iff_ofBe_lt (by simp), ofBe_toBe, ofBe_toBe, Nat.mod_eq_of_lt hv, Nat.mod_eq_of_lt hw]

/-! ## Splitting -/

theorem lt_iff_take_drop : ∀ (n : Nat) (u v : Bytes),
    (u < v ↔ u.take n < v.take n ∨ u.take n = v.take n ∧ u.drop n < v.drop n)
  | 0, u, v => by simp
  | n + 1, [], v => by cases v <;> simp
  | n + 1, a :: u, [] => by simp
  | n + 1, a :: u, b :: v => by
    have ih := lt_iff_take_drop n u v
    rw [take_succ_cons, take_succ_cons, cons_lt_cons_iff, cons_lt_cons_iff, cons.injEq]
    tauto

end Lib
