import Mathlib.Algebra.BigOperators.Group.List.Basic
import Mathlib.Data.Nat.Digits.Defs
import Tikv.LibMemcmp
/-!
# LibRadix — digits of several radices, fixed-width fields, signed codes

A number is written with one radix per digit, the highest digit first (`ofRadices`).  Digits below their radices compare
as the number does, so two systems of radices that both bound the digits put the same numbers in the same order
(`ofRadices_lt_iff_of_digits`): that is how decimal words keep their order when they are written as bytes.  Fields of
fixed widths written one after the other are the bytes of one number (`fieldsToBe_eq`).  A signed code complements the
bytes of a negative number and flips the top bit (`signedCode_lt_iff`).
-/
namespace Lib

open List Nat

/-! ## Mixed radices -/

/-- The number whose digits are `ds`, the highest first, each in its own radix. -/
def ofRadices : List Nat → List Nat → Nat
  | _ :: rs, d :: ds => d * rs.prod + ofRadices rs ds
  | _, _ => 0

def Digits (rs ds : List Nat) : Prop := List.Forall₂ (fun r d => d < r) rs ds

variable {rs ss ds es : List Nat}

theorem Digits.append (h : Digits rs ds) (k : Digits ss es) : Digits (rs ++ ss) (ds ++ es) :=
  rel_append h k

theorem digits_replicate {b : Nat} : ∀ ds : List Nat, (∀ d ∈ ds, d < b) → Digits (List.replicate ds.length b) ds
  | [], _ => .nil
  | d :: ds, h => .cons (h d (by simp)) (digits_replicate ds fun e he => h e (mem_cons_of_mem d he))

theorem ofRadices_lt (h : Digits rs ds) : ofRadices rs ds < rs.prod := by
  induction h with
  | nil => simp [ofRadices]
  | @cons r d rs ds hd _ ih =>
    calc d * rs.prod + ofRadices rs ds < d * rs.prod + rs.prod := by omega
      _ = (d + 1) * rs.prod := by rw [add_mul, one_mul]
      _ ≤ r * rs.prod := mul_le_mul_right _ hd

theorem two_mul_ofRadices_le {r q d : Nat} (h : 2 * (d + 1) ≤ r) (hds : Digits rs ds) :
    2 * (ofRadices (q :: rs) (d :: ds) + 1) ≤ r * rs.prod := by
  have hlt := ofRadices_lt hds
  calc 2 * (d * rs.prod + ofRadices rs ds + 1) ≤ 2 * (d * rs.prod + rs.prod) := by omega
    _ = 2 * (d + 1) * rs.prod := by rw [mul_assoc, add_mul, one_mul]
    _ ≤ r * rs.prod := mul_le_mul_right _ h

theorem ofRadices_append : ∀ {rs ds : List Nat}, rs.length = ds.length → ∀ ss es : List Nat,
    ofRadices (rs ++ ss) (ds ++ es) = ofRadices rs ds * ss.prod + ofRadices ss es
  | [], [], _, ss, es => by simp [ofRadices]
  | r :: rs, d :: ds, h, ss, es => by
    have ih := ofRadices_append (succ.inj h) ss es
    rw [cons_append, cons_append, ofRadices, ih, ofRadices, prod_append, add_mul, mul_assoc, add_assoc]

theorem ofRadices_zeros : ∀ n : Nat, ofRadices rs (List.replicate n 0) = 0 := by
  induction rs with
  | nil => intro n; rfl
  | cons r rs ih =>
    intro n
    cases n with
    | zero => rfl
    | succ n => rw [replicate_succ, ofRadices, ih, zero_mul]

section

variable (hd : Digits rs ds)
include hd

theorem ofRadices_lt_iff (he : Digits rs es) : ofRadices rs ds < ofRadices rs es ↔ ds < es := by
  induction hd generalizing es with
  | nil =>
    cases he
    simp
  | @cons r d rs ds _ hds ih =>
    cases he with
    | @cons _ e _ es _ hes =>
      have hlt := ofRadices_lt hds
      have hlt' := ofRadices_lt hes
      rw [ofRadices, ofRadices, cons_lt_cons_iff, ← ih hes]
      rcases lt_trichotomy d e with hde | rfl | hde
      · have hmul := mul_le_mul_right rs.prod (succ_le_of_lt hde)
        rw [succ_mul] at hmul
        exact iff_of_true (by omega) (.inl hde)
      · simp
      · have hmul := mul_le_mul_right rs.prod (succ_le_of_lt hde)
        rw [succ_mul] at hmul
        exact iff_of_false (by omega) (by omega)

theorem ofRadices_lt_iff_of_digits (he : Digits rs es) (kd : Digits ss ds)
    (ke : Digits ss es) : ofRadices rs ds < ofRadices rs es ↔ ofRadices ss ds < ofRadices ss es := by
  rw [ofRadices_lt_iff hd he, ofRadices_lt_iff kd ke]

theorem ofRadices_pos_iff_of_digits (kd : Digits ss ds) :
    0 < ofRadices rs ds ↔ 0 < ofRadices ss ds := by
  have hzeros : ∀ {rs ds : List Nat}, Digits rs ds → Digits rs (replicate ds.length 0) := by
    intro rs ds h
    induction h with
    | nil => exact .nil
    | @cons r d rs ds hd _ ih => exact .cons (lt_of_le_of_lt (zero_le d) hd) ih
  have := ofRadices_lt_iff_of_digits (hzeros hd) hd (hzeros kd) kd
  rwa [ofRadices_zeros, ofRadices_zeros] at this

end

theorem ofRadices_replicate (b : Nat) : ofRadices (List.replicate ds.length b) ds = ofDigits b ds.reverse := by
  induction ds with
  | nil => rfl
  | cons d ds ih =>
    rw [length_cons, replicate_succ, ofRadices, ih, reverse_cons, ofDigits_append,
      ofDigits_singleton, length_reverse, prod_replicate]
    ring

/-! ## Fields of fixed widths -/

theorem toBe_add (m : Nat) : ∀ n v : Nat, toBe (m + n) v = toBe m (v / 256 ^ n) ++ toBe n v
  | 0, v => by simp [toBe]
  | n + 1, v => by
    rw [← add_assoc, toBe, toBe_add m n, toBe, append_assoc, Nat.div_div_eq_div_mul, pow_succ, mul_comm 256]

theorem toBe_zero : ∀ n : Nat, toBe n 0 = List.replicate n 0
  | 0 => rfl
  | n + 1 => by
    rw [toBe, toBe_zero n, replicate_succ']
    rfl

theorem toBe_add_of_lt {n v : Nat} (m : Nat) (h : v < 256 ^ n) : toBe (m + n) v = List.replicate m 0 ++ toBe n v := by
  rw [toBe_add, div_eq_of_lt h, toBe_zero]

theorem toBe_mod (n : Nat) : ∀ v : Nat, toBe n (v % 256 ^ n) = toBe n v := by
  intro v
  have h := toBe_ofBe (toBe n v)
  rwa [length_toBe, ofBe_toBe] at h

theorem toBe_append {n v : Nat} (m d : Nat) (h : v < 256 ^ n) : toBe m d ++ toBe n v = toBe (m + n) (d * 256 ^ n + v) := by
  have hpos : 0 < 256 ^ n := Nat.pow_pos (by decide)
  have hdiv : (d * 256 ^ n + v) / 256 ^ n = d := by
    rw [mul_comm, mul_add_div hpos, div_eq_of_lt h, add_zero]
  have hmod : (d * 256 ^ n + v) % 256 ^ n = v := by
    rw [mul_comm, mul_add_mod, mod_eq_of_lt h]
  rw [toBe_add, hdiv, ← toBe_mod n (d * 256 ^ n + v), hmod]

/-- Digits written one after the other, each in its own number of bytes. -/
def fieldsToBe : List Nat → List Nat → Bytes
  | n :: ns, d :: ds => toBe n d ++ fieldsToBe ns ds
  | _, _ => []

theorem fieldsToBe_append : ∀ {ns ds : List Nat}, ns.length = ds.length → ∀ ms es : List Nat,
    fieldsToBe (ns ++ ms) (ds ++ es) = fieldsToBe ns ds ++ fieldsToBe ms es
  | [], [], _, ms, es => by simp [fieldsToBe]
  | n :: ns, d :: ds, h, ms, es => by
    rw [cons_append, cons_append, fieldsToBe, fieldsToBe_append (succ.inj h), fieldsToBe, append_assoc]

def byteRadices (ns : List Nat) : List Nat := ns.map (256 ^ ·)

theorem prod_byteRadices (ns : List Nat) : (byteRadices ns).prod = 256 ^ ns.sum := by
  induction ns with
  | nil => rfl
  | cons n ns ih => rw [byteRadices, map_cons, prod_cons, ← byteRadices, ih, sum_cons, pow_add]

theorem fieldsToBe_eq : ∀ {ns ds : List Nat}, Digits (byteRadices ns) ds →
    fieldsToBe ns ds = toBe ns.sum (ofRadices (byteRadices ns) ds)
  | [], [], _ => rfl
  | n :: ns, d :: ds, .cons _ h => by
    have hlt := ofRadices_lt h
    have hprod : (map (256 ^ ·) ns).prod = 256 ^ ns.sum := prod_byteRadices ns
    change ofRadices (byteRadices ns) ds < (byteRadices ns).prod at hlt
    rw [prod_byteRadices] at hlt
    rw [fieldsToBe, fieldsToBe_eq h, toBe_append n d hlt]
    change _ = toBe _ (d * (map (256 ^ ·) ns).prod + _)
    rw [hprod]
    rfl

/-! ## Signed codes -/

def maskBytes (negative : Bool) (bs : Bytes) : Bytes := if negative then bs.map (~~~ ·) else bs

variable {negative : Bool} {u v : Bytes}

@[simp] theorem maskBytes_append : maskBytes negative (u ++ v) = maskBytes negative u ++ maskBytes negative v := by
  cases negative <;> simp [maskBytes]

@[simp] theorem length_maskBytes : (maskBytes negative u).length = u.length := by
  cases negative <;> simp [maskBytes]

@[simp] theorem maskBytes_nil : maskBytes negative [] = [] := by
  cases negative <;> rfl

def flipTop : Bytes → Bytes
  | [] => []
  | b :: bs => (b ^^^ 0x80) :: bs

@[simp] theorem length_flipTop : (flipTop u).length = u.length := by
  cases u <;> rfl

theorem flipTop_append (h : u ≠ []) : flipTop (u ++ v) = flipTop u ++ v := by
  cases u with
  | nil => exact absurd rfl h
  | cons b u => rfl

def signedCode (negative : Bool) (bs : Bytes) : Bytes := flipTop (maskBytes negative bs)

@[simp] theorem length_signedCode : (signedCode negative u).length = u.length := by
  simp [signedCode]

theorem signedCode_ne_nil (negative : Bool) (h : u ≠ []) : signedCode negative u ≠ [] :=
  fun hnil => h (by simpa using congrArg length hnil)

theorem ofBe_complement (bs : Bytes) : ofBe (bs.map (~~~ ·)) + ofBe bs + 1 = 256 ^ bs.length := by
  induction bs with
  | nil => rfl
  | cons b bs ih =>
    have hb : (~~~ b).toNat = 255 - b.toNat := by
      rw [UInt8.toNat_not]
      rfl
    have hlt := b.toNat_lt
    have hsplit : (255 - b.toNat) * 256 ^ bs.length + b.toNat * 256 ^ bs.length = 255 * 256 ^ bs.length := by
      rw [← add_mul]
      congr 1
      omega
    rw [map_cons, ofBe_cons, ofBe_cons, length_map, hb, length_cons]
    omega

theorem toNat_flip (b : UInt8) : (b ^^^ 0x80).toNat = if b.toNat < 128 then b.toNat + 128 else b.toNat - 128 := by
  have h : ∀ n : Fin 256, n.val ^^^ 128 = if n.val < 128 then n.val + 128 else n.val - 128 := by
    decide +kernel
  exact h ⟨b.toNat, b.toNat_lt⟩

/-- **The code of a number whose top bit is free**: above the middle for a number that is not negative, below it for a
negative one. -/
theorem ofBe_signedCode {bs : Bytes} (hne : bs ≠ []) (h : 2 * ofBe bs < 256 ^ bs.length) (negative : Bool) :
    if negative then 2 * ofBe (signedCode negative bs) + 2 * ofBe bs + 2 = 256 ^ bs.length
    else 2 * ofBe (signedCode negative bs) = 256 ^ bs.length + 2 * ofBe bs := by
  obtain ⟨b, bs, rfl⟩ := exists_cons_of_ne_nil hne
  have hcompl := ofBe_complement (b :: bs)
  rw [map_cons] at hcompl
  have hnot : (~~~ b).toNat = 255 - b.toNat := by
    rw [UInt8.toNat_not]
    rfl
  rw [ofBe_cons, length_cons] at h
  have hsmall : b.toNat < 128 := by
    by_contra hge
    have := mul_le_mul_right (256 ^ bs.length) (le_of_not_gt hge)
    omega
  cases negative with
  | false =>
    have hmul : (b.toNat + 128) * 256 ^ bs.length = b.toNat * 256 ^ bs.length + 128 * 256 ^ bs.length := add_mul ..
    simp only [Bool.false_eq_true, if_false, signedCode, maskBytes, flipTop, ofBe_cons, toNat_flip, if_pos hsmall,
      length_cons]
    omega
  | true =>
    have hbig : ¬ 255 - b.toNat < 128 := by omega
    have hmul : (255 - b.toNat) * 256 ^ bs.length =
        (255 - b.toNat - 128) * 256 ^ bs.length + 128 * 256 ^ bs.length := by
      rw [← add_mul]
      congr 1
      omega
    rw [ofBe_cons, hnot, length_map, length_cons] at hcompl
    simp only [if_true, signedCode, maskBytes, map_cons, flipTop, ofBe_cons, toNat_flip, if_neg hbig, hnot,
      length_cons, length_map]
    rw [ofBe_cons] at hcompl
    omega

/-- What the code of a number stands for: a negative number is below every other one, its own zero included. -/
def signedRank (negative : Bool) (n : Nat) : Int := if negative then -(n : Int) - 1 else n

theorem signedCode_lt_iff (hlen : u.length = v.length) (hu : 2 * ofBe u < 256 ^ u.length)
    (hv : 2 * ofBe v < 256 ^ v.length) (m n : Bool) (hne : u ≠ []) :
    signedCode m u < signedCode n v ↔ signedRank m (ofBe u) < signedRank n (ofBe v) := by
  have hne' : v ≠ [] := by
    rintro rfl
    exact hne (length_eq_zero_iff.1 hlen)
  have cu := ofBe_signedCode hne hu m
  have cv := ofBe_signedCode hne' hv n
  rw [lt_iff_ofBe_lt (by simpa using hlen)]
  rw [hlen] at hu cu
  cases m <;> cases n <;> simp only [Bool.false_eq_true, if_false, if_true, signedRank] at cu cv ⊢ <;> omega

end Lib
