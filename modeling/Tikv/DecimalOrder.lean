import Tikv.DecimalRead
/-!
# DecimalOrder — the stored form is an order-preserving code

The words of a decimal, filled up to nine before the point, and the digits of its fraction are the digits of one number in
two systems of radices: powers of ten for the value, powers of 256 for the bytes.  Both order the digits alike, and the
signed code keeps that order; the reader takes the fields apart again.
-/
namespace Tikv
namespace Mysql

open Lib Parts List Nat

theorem wordBase_pow_pos (n : Nat) : (0 : ℚ) < (wordBase : ℚ) ^ n :=
  pow_pos (by exact_mod_cast (show 0 < wordBase by decide)) n

namespace Decimal

/-! ## The fraction as digits -/

section

variable {d : Decimal} {frac : Nat}

section

variable (h : d.WellFormed)
include h

theorem wordCnt_frac_le (hfit : (d.fracPlan frac).truncated = false) (hk : d.KeptBy frac) :
    wordCnt d.fracCnt ≤ (frac + 8) / 9 := by
  have hcnt := wordCnt_eq h.fracCnt_le
  rcases hk with hle | -
  · omega
  have hsize := fieldSize_eq frac
  have hsrc := fieldSize_eq d.fracCnt
  have hnot := not_truncated hfit
  omega

theorem fracWord_lt (j : Nat) : d.fracWord j < wordBase := by
  by_cases hj : j < wordCnt d.fracCnt
  · rw [h.fracWord_eq hj]
    exact h.word_lt_of_lt (by omega)
  rw [h.fracWord_of_le (le_of_not_gt hj)]
  decide

theorem fracWord_dvd (hk : d.KeptBy frac) : 10 ^ (9 - frac % 9) ∣ d.fracWord (frac / 9) := by
  have hcnt := wordCnt_eq h.fracCnt_le
  rcases hk with hle | hzero
  · by_cases hj : frac / 9 < wordCnt d.fracCnt
    · have hlast := h.last_dvd (d.fracWord (frac / 9)) (by
        rw [h.fracWord_eq hj, h.fracWords_eq, show wordCnt d.fracCnt = frac / 9 + 1 by omega, slice_add]
        simp [slice])
      exact dvd_trans (pow_dvd_pow 10 (by omega)) hlast
    · rw [h.fracWord_of_le (le_of_not_gt hj)]
      exact dvd_zero _
  · rw [hzero]
    exact dvd_zero _

def trailing (d : Decimal) (frac : Nat) : Nat := d.fracWord (frac / 9) / 10 ^ (9 - frac % 9)

theorem trailing_lt (frac : Nat) : d.trailing frac < 10 ^ (frac % 9) := by
  refine Nat.div_lt_of_lt_mul ?_
  rw [← pow_add, show 9 - frac % 9 + frac % 9 = 9 by omega]
  exact fracWord_lt h _

theorem trailing_mul (hk : d.KeptBy frac) :
    d.trailing frac * 10 ^ (9 - frac % 9) = d.fracWord (frac / 9) := Nat.div_mul_cancel (fracWord_dvd h hk)

def fracRadices (frac : Nat) : List Nat := List.replicate (frac / 9) wordBase ++ [10 ^ (frac % 9)]

theorem map_fracWord_lt (n : Nat) : ∀ w ∈ (range n).map d.fracWord, w < wordBase := by
  intro w hw
  obtain ⟨j, -, rfl⟩ := mem_map.1 hw
  exact fracWord_lt h j

theorem digits_map_fracWord {b : Nat} (hb : wordBase ≤ b) (n : Nat) :
    Digits (replicate n b) ((range n).map d.fracWord) := by
  have := digits_replicate _ fun w hw => lt_of_lt_of_le (map_fracWord_lt h n w hw) hb
  rwa [length_map, length_range] at this

theorem digits_fracFields : Digits (fracRadices frac) (d.fracFields frac) :=
  (digits_map_fracWord h le_rfl _).append (.cons (trailing_lt h frac) .nil)

theorem digits_bytes_fracFields (frac : Nat) : Digits (byteRadices (fracSizes frac)) (d.fracFields frac) := by
  rw [fracSizes, byteRadices, map_append, ← byteRadices, byteRadices_words]
  exact (digits_map_fracWord h (le_of_lt wordBase_lt) _).append
    (.cons (lt_of_lt_of_le (trailing_lt h frac) (ten_pow_le (by omega))) .nil)

end

/-! ## The digits of the whole -/

def fields (d : Decimal) (frac : Nat) : List Nat :=
  List.replicate (9 - wordCnt d.intCnt) 0 ++ d.intWords ++ d.fracFields frac

section

variable (h : d.WellFormed)
include h

theorem length_intWords : d.intWords.length = wordCnt d.intCnt := by
  rw [h.intWords_eq, length_slice]

theorem wordCnt_int_le : wordCnt d.intCnt ≤ 9 := le_trans (le_add_right _ _) h.words_le

theorem ofRadices_fields (b : Nat) (rs : List Nat) :
    ofRadices (replicate 9 b ++ rs) (d.fields frac) =
      ofRadices (replicate (wordCnt d.intCnt) b) d.intWords * rs.prod + ofRadices rs (d.fracFields frac) := by
  have hle := wordCnt_int_le h
  have hsplit : replicate 9 b =
      replicate (9 - wordCnt d.intCnt) b ++ replicate (wordCnt d.intCnt) b := by
    rw [← replicate_add, Nat.sub_add_cancel hle]
  have hlen : (replicate 9 b).length = (replicate (9 - wordCnt d.intCnt) 0 ++ d.intWords).length := by
    rw [length_replicate, length_append, length_replicate, length_intWords h]
    omega
  rw [fields, ofRadices_append hlen, hsplit, ofRadices_append (by simp), ofRadices_zeros, zero_mul, zero_add]

theorem digits_int {b : Nat} (hb : wordBase ≤ b) :
    Digits (replicate 9 b) (replicate (9 - wordCnt d.intCnt) 0 ++ d.intWords) := by
  have hle := wordCnt_int_le h
  have hpos : 0 < wordBase := by decide
  have := digits_replicate (b := b) (replicate (9 - wordCnt d.intCnt) 0 ++ d.intWords) (forall_mem_append.2
    ⟨fun w hw => by rw [(mem_replicate.1 hw).2]; omega, fun w hw => (h.word_lt w (mem_append_left _ hw)).trans_le hb⟩)
  rwa [length_append, length_replicate, length_intWords h, Nat.sub_add_cancel hle] at this

end

def scaled (d : Decimal) (frac : Nat) : Nat := ofRadices (List.replicate 9 wordBase ++ fracRadices frac) (d.fields frac)

def packed (d : Decimal) (frac : Nat) : Nat :=
  ofRadices (List.replicate 9 (2 ^ 32) ++ byteRadices (fracSizes frac)) (d.fields frac)

section

variable (h : d.WellFormed)
include h

theorem digits_scaled : Digits (replicate 9 wordBase ++ fracRadices frac) (d.fields frac) :=
  (digits_int h le_rfl).append (digits_fracFields h)

theorem digits_packed :
    Digits (replicate 9 (2 ^ 32) ++ byteRadices (fracSizes frac)) (d.fields frac) :=
  (digits_int h (le_of_lt wordBase_lt)).append (digits_bytes_fracFields h frac)

theorem scaled_lt_iff {e : Decimal} (k : e.WellFormed) :
    d.scaled frac < e.scaled frac ↔ d.packed frac < e.packed frac :=
  ofRadices_lt_iff_of_digits (digits_scaled h) (digits_scaled k) (digits_packed h) (digits_packed k)

theorem scaled_pos_iff (frac : Nat) : 0 < d.scaled frac ↔ 0 < d.packed frac :=
  ofRadices_pos_iff_of_digits (digits_scaled h) (digits_packed h)

/-! ## The value -/

theorem fracWords_length : d.fracWords.length = wordCnt d.fracCnt := by
  rw [h.fracWords_eq, length_slice]

theorem ofRadices_words (hle : wordCnt d.fracCnt ≤ frac / 9 + 1) :
    ofDigits wordBase (d.intWords ++ d.fracWords).reverse * wordBase ^ (frac / 9 + 1 - wordCnt d.fracCnt) =
      (ofRadices (replicate (wordCnt d.intCnt) wordBase) d.intWords * wordBase ^ (frac / 9) +
        ofRadices (replicate (frac / 9) wordBase) ((range (frac / 9)).map d.fracWord)) * wordBase +
        d.fracWord (frac / 9) := by
  obtain ⟨n, hn⟩ := Nat.exists_eq_add_of_le hle
  have hwords : (range (frac / 9 + 1)).map d.fracWord = d.fracWords ++ replicate n 0 := by
    rw [h.fracWords_filled hle, hn, Nat.add_sub_cancel_left]
  have hlen := fracWords_length h
  have hall : ofRadices (replicate (wordCnt d.intCnt + (frac / 9 + 1)) wordBase)
      (d.intWords ++ (range (frac / 9 + 1)).map d.fracWord) =
      ofDigits wordBase (d.intWords ++ d.fracWords).reverse * wordBase ^ n := by
    rw [hwords, ← append_assoc, hn, ← add_assoc, replicate_add,
      ofRadices_append (by simp [length_intWords h, hlen]), ofRadices_zeros, add_zero, prod_replicate, ← ofRadices_replicate,
      length_append, length_intWords h, hlen]
  rw [show frac / 9 + 1 - wordCnt d.fracCnt = n by omega, ← hall, replicate_add,
    ofRadices_append (by simp [length_intWords h]), prod_replicate, range_succ, map_append, replicate_add,
    ofRadices_append (by simp)]
  simp only [map_cons, replicate_one, ofRadices, prod_singleton, prod_nil]
  ring

theorem value_eq_scaled (hfit : (d.fracPlan frac).truncated = false) (hk : d.KeptBy frac) :
    d.value = (if d.negative then -1 else 1) * ((d.scaled frac : ℚ) / 10 ^ frac) := by
  have hle := wordCnt_frac_le h hfit hk
  have hle' : wordCnt d.fracCnt ≤ frac / 9 + 1 := by omega
  have hwords := ofRadices_words h hle'
  have hscaled : d.scaled frac = (ofRadices (replicate (wordCnt d.intCnt) wordBase) d.intWords *
      wordBase ^ (frac / 9) + ofRadices (replicate (frac / 9) wordBase) ((range (frac / 9)).map d.fracWord)) *
      10 ^ (frac % 9) + d.trailing frac := by
    rw [scaled, ofRadices_fields h, fracRadices, fracFields, ofRadices_append (by simp), prod_append, prod_replicate]
    simp only [ofRadices, prod_singleton, prod_nil, trailing]
    ring
  have hpow : 10 ^ (frac % 9) * 10 ^ (9 - frac % 9) = wordBase := by
    rw [← pow_add, show frac % 9 + (9 - frac % 9) = 9 by omega]
    rfl
  -- both numbers, with the digits that the last word has room for
  have hnum : ofDigits wordBase (d.intWords ++ d.fracWords).reverse * wordBase ^ (frac / 9 + 1 - wordCnt d.fracCnt) =
      d.scaled frac * 10 ^ (9 - frac % 9) := by
    have hshift : ∀ n t p q : Nat, (n * p + t) * q = n * (p * q) + t * q := fun n t p q => by ring
    rw [hscaled, hshift, hpow, trailing_mul h hk, hwords]
  have hbase : wordBase ^ (frac / 9 + 1 - wordCnt d.fracCnt) * wordBase ^ wordCnt d.fracCnt =
      10 ^ frac * 10 ^ (9 - frac % 9) := by
    rw [← pow_add, ← pow_add, wordBase, ← pow_mul]
    congr 1
    omega
  have hcross : ofDigits wordBase (d.intWords ++ d.fracWords).reverse * 10 ^ frac =
      d.scaled frac * wordBase ^ wordCnt d.fracCnt := by
    refine eq_of_mul_eq_mul_right (Nat.pow_pos (by decide) : 0 < 10 ^ (9 - frac % 9)) ?_
    rw [mul_assoc, ← hbase, ← mul_assoc, hnum]
    ring
  have hpos := wordBase_pow_pos (wordCnt d.fracCnt)
  rw [value, fracWords_length h]
  congr 1
  rw [div_eq_div_iff hpos.ne' (by positivity)]
  exact_mod_cast hcross

/-! ## The bytes -/

theorem body_eq (intCnt : Nat) :
    toBe (fieldSize intCnt) d.packedInt ++ fieldsToBe (fracSizes frac) (d.fracFields frac) =
      toBe (fieldSize intCnt + fieldSize frac) (d.packed frac) := by
  have hdigits := digits_bytes_fracFields h frac
  have hlt := ofRadices_lt hdigits
  rw [prod_byteRadices, sum_fracSizes] at hlt
  rw [fieldsToBe_eq hdigits, sum_fracSizes, toBe_append _ _ hlt, packed, ofRadices_fields h, prod_byteRadices, sum_fracSizes,
    ← packedInt]

theorem two_mul_fraction_le (hpos : 0 < frac) :
    2 * (ofRadices (byteRadices (fracSizes frac)) (d.fracFields frac) + 1) ≤ 256 ^ fieldSize frac := by
  have hdigits := digits_bytes_fracFields h frac
  rw [← sum_fracSizes, ← prod_byteRadices]
  unfold fracSizes fracFields at *
  by_cases hq : frac / 9 = 0
  · rw [hq]
    have ht := trailing_lt h frac
    have hroom := two_mul_ten_pow_le (n := frac % 9) (by omega) (by omega)
    rw [trailing, hq] at ht
    simp only [replicate_zero, nil_append, range_zero, map_nil, byteRadices, map_cons,
      prod_singleton, ofRadices, prod_nil]
    omega
  · obtain ⟨q, hq'⟩ := exists_eq_succ_of_ne_zero hq
    rw [hq', succ_eq_add_one, add_comm q 1, replicate_add, range_add] at hdigits ⊢
    have hw : 2 * (d.fracWord 0 + 1) ≤ 256 ^ 4 := by
      have hlt := fracWord_lt h 0
      have hbase : 2 * wordBase ≤ 256 ^ 4 := by decide
      omega
    cases hdigits with
    | cons _ hrest => exact two_mul_ofRadices_le hw hrest

theorem packed_spec {intCnt : Nat} (hp : d.Planned intCnt frac) :
    fieldSize intCnt + fieldSize frac = 0 ∧ d.packed frac = 0 ∨
      2 * (d.packed frac + 1) ≤ 256 ^ (fieldSize intCnt + fieldSize frac) := by
  obtain ⟨-, -, hint⟩ := intBytes_spec h isZero_imp rfl hp.int
  have hpacked : d.packed frac =
      d.packedInt * 256 ^ fieldSize frac + ofRadices (byteRadices (fracSizes frac)) (d.fracFields frac) := by
    rw [packed, ofRadices_fields h, prod_byteRadices, sum_fracSizes, ← packedInt]
  have hlt := ofRadices_lt (digits_bytes_fracFields h frac)
  rw [prod_byteRadices, sum_fracSizes] at hlt
  rcases hint with ⟨h0, hzero⟩ | hroom
  · rw [hzero, zero_mul, zero_add] at hpacked
    have hnone : fieldSize intCnt = 0 := by rw [h0]; rfl
    rw [hnone, zero_add, hpacked]
    rcases Nat.eq_zero_or_pos frac with rfl | hpos
    · have hempty : fieldSize 0 = 0 := rfl
      rw [hempty] at hlt
      exact .inl ⟨rfl, by omega⟩
    · exact .inr (two_mul_fraction_le h hpos)
  · right
    rw [hpacked, pow_add]
    calc 2 * (d.packedInt * 256 ^ fieldSize frac + ofRadices (byteRadices (fracSizes frac)) (d.fracFields frac) + 1)
        ≤ 2 * (d.packedInt * 256 ^ fieldSize frac + 256 ^ fieldSize frac) := by omega
      _ = 2 * (d.packedInt + 1) * 256 ^ fieldSize frac := by ring
      _ ≤ 256 ^ fieldSize intCnt * 256 ^ fieldSize frac := mul_le_mul_right _ hroom

end

end

/-! ## Order -/

/-- A decimal whose stored form keeps it: well formed, no digit lost, and no negative zero. -/
structure Storable (d : Decimal) (frac : UInt8) : Prop where
  wellFormed : d.WellFormed
  kept : d.KeptBy frac.toNat
  nonneg : ¬ d.NegativeZero

section

variable {a b : Decimal} {frac : UInt8} {n : Nat} (ha : a.Storable frac) (hpa : a.Planned n frac.toNat)

include ha hpa

theorem Storable.value_neg_iff : a.value < 0 ↔ a.negative = true := by
  have hval := value_eq_scaled ha.wellFormed hpa.frac ha.kept
  have hnonneg : (0 : ℚ) ≤ (a.scaled frac.toNat : ℚ) / 10 ^ frac.toNat :=
    div_nonneg (cast_nonneg _) (by positivity)
  cases hneg : a.negative with
  | false =>
    rw [hneg, if_neg Bool.false_ne_true] at hval
    exact iff_of_false (by linarith) Bool.false_ne_true
  | true =>
    rw [hneg, if_pos rfl] at hval
    exact iff_of_true (lt_of_le_of_ne (by linarith) fun h0 => ha.nonneg ⟨hneg, h0⟩) rfl

theorem value_lt_iff (hb : b.Storable frac) (hpb : b.Planned n frac.toNat) :
    a.value < b.value ↔ signedRank a.negative (a.packed frac.toNat) < signedRank b.negative (b.packed frac.toNat) := by
  have hva := value_eq_scaled ha.wellFormed hpa.frac ha.kept
  have hvb := value_eq_scaled hb.wellFormed hpb.frac hb.kept
  have hsa := ha.value_neg_iff hpa
  have hsb := hb.value_neg_iff hpb
  have hmono {c e : Decimal} (hc : c.WellFormed) (he : e.WellFormed) : (c.scaled frac.toNat : ℚ) / 10 ^ frac.toNat <
      (e.scaled frac.toNat : ℚ) / 10 ^ frac.toNat ↔ c.packed frac.toNat < e.packed frac.toNat := by
    rw [div_lt_div_iff_of_pos_right (by positivity), cast_lt, scaled_lt_iff hc he]
  cases hna : a.negative <;> cases hnb : b.negative
  · rw [hva, hvb, hna, hnb]
    simp only [Bool.false_eq_true, if_false, one_mul, signedRank, cast_lt]
    exact hmono ha.wellFormed hb.wellFormed
  · have := hsb.2 hnb
    have := not_lt.1 (mt hsa.1 (by simp [hna]))
    refine iff_of_false (by linarith) ?_
    simp only [Bool.false_eq_true, if_false, if_true, signedRank]
    omega
  · have := hsa.2 hna
    have := not_lt.1 (mt hsb.1 (by simp [hnb]))
    refine iff_of_true (by linarith) ?_
    simp only [Bool.false_eq_true, if_false, if_true, signedRank]
    omega
  · rw [hva, hvb, hna, hnb]
    simp only [if_true, signedRank, neg_mul, one_mul, neg_lt_neg_iff]
    rw [hmono hb.wellFormed ha.wellFormed]
    omega

theorem Storable.negative_of_packed (h0 : a.packed frac.toNat = 0) : a.negative = false := by
  have hscaled : a.scaled frac.toNat = 0 := by
    have := scaled_pos_iff ha.wellFormed frac.toNat
    omega
  have hval := value_eq_scaled ha.wellFormed hpa.frac ha.kept
  rw [hscaled, cast_zero, zero_div, mul_zero] at hval
  rw [← Bool.not_eq_true]
  exact fun hneg => ha.nonneg ⟨hneg, hval⟩

end

theorem bytes_lt_iff {a b : Decimal} {prec frac : UInt8} {u v : Bytes} (ha : a.Storable frac) (hb : b.Storable frac)
    (hu : writeDecimal a prec frac = (u, .ok)) (hv : writeDecimal b prec frac = (v, .ok)) :
    u < v ↔ a.value < b.value := by
  have hpa := planned_of_writeDecimal hu
  have hpb := planned_of_writeDecimal hv
  rw [value_lt_iff ha hpa hb hpb, writeDecimal_eq_of_kept ha.wellFormed hu ha.kept ha.nonneg,
    writeDecimal_eq_of_kept hb.wellFormed hv hb.kept hb.nonneg,
    body_eq ha.wellFormed, body_eq hb.wellFormed, cons_lt_cons_iff, cons_lt_cons_iff]
  simp only [lt_irrefl, true_and, false_or]
  rcases packed_spec ha.wellFormed hpa with ⟨hempty, hpacked⟩ | hroom
  · -- no byte at all: both numbers are 0, and not negative
    rcases packed_spec hb.wellFormed hpb with ⟨-, hpacked'⟩ | hroom
    · rw [ha.negative_of_packed hpa hpacked, hb.negative_of_packed hpb hpacked', hpacked, hpacked']
      simp
    · rw [hempty] at hroom
      omega
  · rcases packed_spec hb.wellFormed hpb with ⟨hempty, -⟩ | hroom'
    · rw [hempty] at hroom
      omega
    generalize fieldSize (prec - frac).toNat + fieldSize frac.toNat = size at *
    have hnum (m : Nat) (hm : 2 * (m + 1) ≤ 256 ^ size) : ofBe (toBe size m) = m := by
      rw [ofBe_toBe, mod_eq_of_lt (by omega)]
    have hne : toBe size (a.packed frac.toNat) ≠ [] := by
      intro hnil
      have hsize := length_toBe size (a.packed frac.toNat)
      rw [hnil, length_nil] at hsize
      rw [← hsize] at hroom
      omega
    rw [signedCode_lt_iff (by rw [length_toBe, length_toBe]) (by rw [length_toBe, hnum _ hroom]; omega)
      (by rw [length_toBe, hnum _ hroom']; omega) _ _ hne, hnum _ hroom, hnum _ hroom']

/-! ## Reading back -/

end Decimal

def stripped (ws : List Nat) : List Nat := ws.dropWhile (· == 0)

theorem stripped_zeros (ws : List Nat) : ∀ n : Nat, stripped (replicate n 0 ++ ws) = stripped ws
  | 0 => rfl
  | n + 1 => by
    exact stripped_zeros ws n

theorem zeros_append_stripped (ws : List Nat) : ∃ n, ws = replicate n 0 ++ stripped ws := by
  refine ⟨(ws.takeWhile (· == 0)).length, ?_⟩
  have hzeros : ws.takeWhile (· == 0) = replicate (ws.takeWhile (· == 0)).length 0 := by
    refine eq_replicate_iff.2 ⟨rfl, fun w hw => ?_⟩
    simpa using mem_takeWhile_imp hw
  rw [← hzeros, stripped, takeWhile_append_dropWhile]

theorem stripped_stripped (ws : List Nat) : stripped (stripped ws) = stripped ws := by
  obtain ⟨n, hn⟩ := zeros_append_stripped ws
  nth_rewrite 2 [hn]
  rw [stripped_zeros]

theorem keepInt_words_of_ne {s : Parts} (h : s.words ≠ []) (digits w : Nat) :
    (s.keepInt digits w).words = s.words ++ [w] := by
  rw [keepInt, if_pos (.inl h)]

theorem foldl_keepInt_words_of_ne : ∀ (ws : List Nat) {s : Parts}, s.words ≠ [] →
    (ws.foldl (keepInt 9) s).words = s.words ++ ws
  | [], s, _ => by simp
  | w :: ws, s, h => by
    have hstep := keepInt_words_of_ne h 9 w
    rw [foldl_cons, foldl_keepInt_words_of_ne ws (by rw [hstep]; simp), hstep, append_assoc]
    rfl

theorem foldl_keepInt_words (digits w : Nat) : ∀ (ws : List Nat) {s : Parts}, s.words = [] →
    (ws.foldl (keepInt 9) (s.keepInt digits w)).words = stripped (w :: ws) := by
  intro ws s h
  by_cases h0 : w = 0
  · have hstep : (s.keepInt digits w).words = [] := by
      rw [keepInt, if_neg (by simp [h, h0])]
      exact h
    rw [h0] at hstep ⊢
    cases ws with
    | nil => exact hstep
    | cons v ws => exact foldl_keepInt_words 9 v ws hstep
  · have hstep : (s.keepInt digits w).words = [w] := by
      rw [keepInt, if_pos (.inr h0), h]
      rfl
    rw [foldl_keepInt_words_of_ne ws (by rw [hstep]; simp), hstep, stripped, dropWhile_cons, if_neg (by simpa using h0)]
    rfl

section

variable {digits lead : Nat} {ws : List Nat} (hdigits : digits ≤ 8) (hlead : lead < 10 ^ digits)

include hlead in
theorem intParts_words : (intParts digits lead ws).words = stripped (lead :: ws) := by
  unfold intParts
  by_cases hpos : 0 < digits
  · rw [if_pos hpos]
    exact foldl_keepInt_words digits lead ws rfl
  · obtain rfl : digits = 0 := by omega
    obtain rfl : lead = 0 := lt_one_iff.1 hlead
    cases ws with
    | nil => rfl
    | cons w ws => exact foldl_keepInt_words 9 w ws rfl

include hdigits hlead in
theorem intParts_intOk (hws : ∀ w ∈ ws, w < wordBase) : (intParts digits lead ws).IntOk 0 0 := by
  refine intOk_foldl ?_ hws
  rw [zero_add]
  by_cases hpos : 0 < digits
  · rw [if_pos hpos]
    exact intOk_leading _ hpos hdigits (zero_le 1) hlead
  rw [if_neg hpos]
  exact .inl ⟨rfl, by simp only; omega⟩

theorem intParts_intCnt_le (digits lead : Nat) (ws : List Nat) :
    (intParts digits lead ws).intCnt ≤ 9 * ws.length + digits := by
  refine le_trans (foldl_intCnt_le ws _) ?_
  split
  · exact keepInt_intCnt_le _ _ _
  · exact le_rfl

end

namespace Decimal

variable {d : Decimal} {frac : Nat}

theorem intFields {intCnt : Nat} (h : d.WellFormed) (hp : d.Planned intCnt frac) :
    ∃ lead ws, ws.length = intCnt / 9 ∧ lead < 10 ^ (intCnt % 9) ∧ (∀ w ∈ ws, w < wordBase) ∧
      stripped (lead :: ws) = stripped d.intWords ∧
      toBe (fieldSize intCnt) d.packedInt =
        toBe (dig2Bytes (intCnt % 9)) lead ++ fieldsToBe (replicate (intCnt / 9) 4) ws := by
  -- the words from `start` on, behind as many zeros as there is room for
  obtain ⟨start, n, hsum, hzero, hle, hfirst⟩ : ∃ start n, start + n = wordCnt d.intCnt ∧ (∀ j < start, d.word j = 0) ∧
      n ≤ intCnt / 9 + 1 ∧ (n = intCnt / 9 + 1 → d.word start < 10 ^ (intCnt % 9)) := by
    obtain ⟨hskipped, hfound⟩ := removeLeadingZeroes_spec h
    rcases hfound with heq | ⟨start, left, c, heq, hsum, hc, hc', hw⟩
    · rw [heq] at hskipped
      exact ⟨_, 0, add_zero _, hskipped, zero_le _, by omega⟩
    have hroom := room_of_intPlan isZero_imp hp.int
    rw [heq] at hskipped hroom
    refine ⟨start, left + 1, by omega, hskipped, by omega, fun hfull => ?_⟩
    exact lt_of_lt_of_le hw (Nat.pow_le_pow_right (by decide) (by omega))
  have hall : ∀ w ∈ replicate (intCnt / 9 + 1 - n) 0 ++ d.slice start n, w < wordBase :=
    forall_mem_append.2 ⟨fun w hw => by rw [(mem_replicate.1 hw).2]; decide, h.slice_lt (by omega)⟩
  have hnum : ofRadices (replicate (intCnt / 9 + 1) (2 ^ 32))
      (replicate (intCnt / 9 + 1 - n) 0 ++ d.slice start n) = d.packedInt := by
    have hsplit : replicate (intCnt / 9 + 1) (2 ^ 32) =
        replicate (intCnt / 9 + 1 - n) (2 ^ 32) ++ replicate n (2 ^ 32) := by
      rw [← replicate_add, Nat.sub_add_cancel hle]
    rw [hsplit, ofRadices_append (by simp), ofRadices_zeros, zero_mul, zero_add, packedInt_eq_of_zeros h hsum hzero]
  have hstrip : stripped (replicate (intCnt / 9 + 1 - n) 0 ++ d.slice start n) = stripped d.intWords := by
    rw [stripped_zeros, h.intWords_eq, ← hsum, slice_add, slice_zeros hzero, stripped_zeros, zero_add]
  have hhead : (replicate (intCnt / 9 + 1 - n) 0 ++ d.slice start n).headD 0 < 10 ^ (intCnt % 9) := by
    rcases lt_or_ge n (intCnt / 9 + 1) with hlt | hge
    · obtain ⟨k, hk⟩ : ∃ k, intCnt / 9 + 1 - n = k + 1 := ⟨intCnt / 9 - n, by omega⟩
      rw [hk]
      exact Nat.pow_pos (by decide)
    · have heq : n = intCnt / 9 + 1 := by omega
      rw [heq, Nat.sub_self]
      exact hfirst heq
  have hlen : (replicate (intCnt / 9 + 1 - n) 0 ++ d.slice start n).length = intCnt / 9 + 1 := by
    rw [length_append, length_replicate, length_slice, Nat.sub_add_cancel hle]
  generalize replicate (intCnt / 9 + 1 - n) 0 ++ d.slice start n = l at *
  obtain ⟨lead, ws, rfl⟩ := exists_cons_of_ne_nil (show l ≠ [] by rintro rfl; simp at hlen)
  have hwslen : ws.length = intCnt / 9 := succ.inj hlen
  have hws : ∀ w ∈ ws, w < wordBase := fun w hw => hall w (mem_cons_of_mem lead hw)
  rw [headD_cons] at hhead
  have hfields := (leading_fields (by omega) hhead hwslen hws).2
  rw [hnum] at hfields
  exact ⟨lead, ws, hwslen, hhead, hws, hstrip, hfields.symm⟩

theorem fracWords_read (h : d.WellFormed) (hk : d.KeptBy frac) :
    (range (frac / 9)).map d.fracWord ++ trailingWord (frac % 9) (d.trailing frac) =
      (range ((frac + 8) / 9)).map d.fracWord := by
  unfold trailingWord
  by_cases hpos : 0 < frac % 9
  · rw [if_pos hpos, trailing_mul h hk, show (frac + 8) / 9 = frac / 9 + 1 by omega, range_succ, map_append]
    rfl
  · rw [if_neg hpos, append_nil, show (frac + 8) / 9 = frac / 9 by omega]

variable {a : Decimal} {n : Nat}

theorem value_eq_of_words (hint : d.intWords = stripped a.intWords)
    (hfrac : d.fracWords = a.fracWords ++ replicate n 0) (hneg : d.negative = a.negative) : d.value = a.value := by
  obtain ⟨m, hm⟩ := zeros_append_stripped a.intWords
  have hfront : ofDigits wordBase (a.intWords ++ a.fracWords).reverse =
      ofDigits wordBase (stripped a.intWords ++ a.fracWords).reverse := by
    rw [← ofRadices_replicate, ← ofRadices_replicate, hm, stripped_zeros, stripped_stripped, append_assoc,
      length_append, replicate_add, ofRadices_append (by simp), ofRadices_zeros,
      zero_mul, zero_add]
  have hback : ofDigits wordBase (stripped a.intWords ++ (a.fracWords ++ replicate n 0)).reverse =
      ofDigits wordBase (stripped a.intWords ++ a.fracWords).reverse * wordBase ^ n := by
    rw [← ofRadices_replicate, ← ofRadices_replicate, ← append_assoc, length_append, length_replicate,
      replicate_add, ofRadices_append (by simp), ofRadices_zeros, add_zero, prod_replicate]
  have hpos := wordBase_pow_pos n
  rw [value, value, hneg, hint, hfrac, hfront, hback, length_append, length_replicate, pow_add, cast_mul,
    cast_pow, mul_div_mul_right _ _ hpos.ne']

theorem compareWords_self : ∀ ws : List Nat, compareWords ws ws = none
  | [] => rfl
  | w :: ws => by
    rw [compareWords, if_pos rfl]
    exact compareWords_self ws

theorem rdropWhile_zeros (ws : List Nat) : ∀ n : Nat, (ws ++ replicate n 0).rdropWhile (· == 0) = ws.rdropWhile (· == 0)
  | 0 => by simp
  | n + 1 => by
    rw [replicate_succ', ← append_assoc, rdropWhile_concat]
    exact rdropWhile_zeros ws n

theorem cmp_eq_of_words (hint : stripped d.intWords = stripped a.intWords)
    (hfrac : d.fracWords = a.fracWords ++ replicate n 0) (hneg : d.negative = a.negative) : d.cmp a = .eq := by
  have hcarry : calcSubCarry d a = none := by
    change (if (stripped d.intWords).length < (stripped a.intWords).length then some 1
      else if (stripped a.intWords).length < (stripped d.intWords).length then some 0
      else compareWords ((stripped d.intWords ++ d.fracWords).rdropWhile (· == 0))
        ((stripped a.intWords ++ a.fracWords).rdropWhile (· == 0))) = none
    rw [hint, hfrac, if_neg (lt_irrefl _), if_neg (lt_irrefl _), ← append_assoc, rdropWhile_zeros, compareWords_self]
  rw [Decimal.cmp, if_pos hneg, hcarry]

def readFrac (a : Decimal) (frac : UInt8) : List Nat := (List.range ((frac.toNat + 8) / 9)).map a.fracWord

variable {frac : UInt8}

section

variable (ha : a.Storable frac)
include ha

theorem readFrac_spec (hle : frac.toNat ≤ 81) :
    (a.readFrac frac).length = wordCnt frac.toNat ∧ (∀ w ∈ a.readFrac frac, w < wordBase) ∧
      ∀ w ∈ (a.readFrac frac).getLast?, 10 ^ (9 * wordCnt frac.toNat - frac.toNat) ∣ w := by
  rw [wordCnt_eq hle]
  refine ⟨by simp [readFrac], map_fracWord_lt ha.wellFormed _, fun w hw => ?_⟩
  · by_cases hmod : 0 < frac.toNat % 9
    · rw [readFrac, show (frac.toNat + 8) / 9 = frac.toNat / 9 + 1 by omega, range_succ] at hw
      have hw' : a.fracWord (frac.toNat / 9) = w := by simpa using hw
      rw [show 9 * ((frac.toNat + 8) / 9) - frac.toNat = 9 - frac.toNat % 9 by omega, ← hw']
      exact fracWord_dvd ha.wellFormed ha.kept
    · rw [show 9 * ((frac.toNat + 8) / 9) - frac.toNat = 0 by omega]
      exact one_dvd w

theorem toDecimal_read {s : Parts} (hfit : (a.fracPlan frac.toNat).truncated = false) (hok : s.IntOk 0 0)
    (hiw : s.words = stripped a.intWords)
    (hle : (s.intCnt + 8) / 9 + (frac.toNat + 8) / 9 ≤ 9)
    (hd : (s.withFrac (a.readFrac frac)).toDecimal a.negative frac.toNat = d) :
    d.WellFormed ∧ d.value = a.value ∧ d.cmp a = .eq := by
  subst hd
  have hfilled := ha.wellFormed.fracWords_filled (wordCnt_frac_le ha.wellFormed hfit ha.kept)
  rw [← readFrac] at hfilled
  by_cases hsome : (s.withFrac (a.readFrac frac)).intCnt = 0 ∧ frac.toNat = 0
  · -- no digit is left: the number is 0, and `Decimal::zero` comes out
    have h0 : s.intCnt = 0 := hsome.1
    have hnil : s.words = [] := by
      rcases hok with ⟨hnil, -⟩ | ⟨w, ws, c, -, hc, hc1, -⟩
      · exact hnil
      · omega
    have hfracNil : a.fracWords = [] := by
      have hlen := congrArg length hfilled
      rw [readFrac] at hlen
      refine length_eq_zero_iff.1 ?_
      simp at hlen
      omega
    have hstrip : stripped a.intWords = [] := by rw [← hiw, hnil]
    have hvalue : a.value = 0 := by
      refine value_eq_zero_of_words fun w hw => ?_
      obtain ⟨n, hn⟩ := zeros_append_stripped a.intWords
      rw [hstrip, append_nil] at hn
      rw [hfracNil, append_nil, hn] at hw
      exact (mem_replicate.1 hw).2
    have hnonneg : a.negative = false := by
      rw [← Bool.not_eq_true]
      exact fun hneg => ha.nonneg ⟨hneg, hvalue⟩
    rw [toDecimal, if_pos hsome]
    refine ⟨zero_fits 0, ?_, cmp_eq_of_words (n := 0) ?_ ?_ hnonneg.symm⟩
    · rw [hvalue]
      exact value_eq_zero_of_words (by decide)
    · rw [hstrip]
      rfl
    · rw [hfracNil]
      rfl
  · obtain ⟨hflen, hfw, hlast⟩ := readFrac_spec ha (by omega)
    have hfits : wordCnt s.intCnt + wordCnt frac.toNat ≤ 9 := by
      rw [wordCnt_eq (n := frac.toNat) (by omega), wordCnt_eq (n := s.intCnt) (by omega)]
      exact hle
    obtain ⟨hdi, hdf, -⟩ := toDecimal_words (s := s.withFrac (a.readFrac frac)) rfl hok hflen hfits hsome a.negative
    have hneg : ((s.withFrac (a.readFrac frac)).toDecimal a.negative frac.toNat).negative = a.negative := by
      rw [toDecimal, if_neg hsome]
    exact ⟨toDecimal_fits (s := s.withFrac (a.readFrac frac)) rfl hok hflen hfits hsome a.negative hfw hlast,
      value_eq_of_words (hdi.trans hiw) (hdf.trans hfilled) hneg,
      cmp_eq_of_words (by rw [hdi, hiw, stripped_stripped]) (hdf.trans hfilled) hneg⟩

variable {prec : UInt8} {u : Bytes} (hu : writeDecimal a prec frac = (u, .ok)) (hpos : 0 < prec) (hle : frac ≤ prec)
  (hwords : wordTo (prec.toNat - frac.toNat) + wordTo frac.toNat ≤ 9) (rest : Bytes)
include hu hpos hle hwords

/-- **What the reader makes of the written bytes**: the integer part without zeros in front, then the fraction. -/
theorem readDecimal_parts :
    ∃ s : Parts, readDecimal (u ++ rest) = .ok ((s.withFrac (a.readFrac frac)).toDecimal a.negative frac.toNat, rest) ∧
      s.IntOk 0 0 ∧ s.words = stripped a.intWords ∧ s.intCnt ≤ prec.toNat - frac.toNat := by
  have h := ha.wellFormed
  have hp := planned_of_writeDecimal hu
  have hbytes := writeDecimal_eq_of_kept h hu ha.kept ha.nonneg
  have hsub : (prec - frac).toNat = prec.toNat - frac.toNat := UInt8.toNat_sub_of_le _ _ hle
  have hprec : 0 < prec.toNat := UInt8.lt_iff_toNat_lt.1 hpos
  rw [hsub] at hp hbytes
  generalize hcnt : prec.toNat - frac.toNat = intCnt at *
  -- the fields that were written
  obtain ⟨lead, ws, hlen, hlead, hws, hstrip, hint⟩ := intFields h hp
  obtain ⟨r, hparts, hrest⟩ := readParts_code a.negative rest (by omega) hlead hws (map_fracWord_lt h (frac.toNat / 9))
    (by omega) (trailing_lt h frac.toNat)
  have hflen : ((range (frac.toNat / 9)).map a.fracWord).length = frac.toNat / 9 := by simp
  rw [hlen, hflen, div_add_mod, div_add_mod, fracWords_read h ha.kept] at hparts
  have hcode : toBe (dig2Bytes (intCnt % 9)) lead ++
      (fieldsToBe (replicate (intCnt / 9) 4) ws ++
        (fieldsToBe (replicate (frac.toNat / 9) 4) ((range (frac.toNat / 9)).map a.fracWord) ++
          toBe (dig2Bytes (frac.toNat % 9)) (a.trailing frac.toNat))) =
      toBe (fieldSize intCnt + fieldSize frac.toNat) (a.packed frac.toNat) := by
    rw [← body_eq h, hint, fracSizes, fracFields, fieldsToBe_append (by simp)]
    simp [fieldsToBe, trailing]
  rw [hcode] at hparts
  rw [body_eq h] at hbytes
  -- they are not empty, and the first byte tells the sign
  have hsize : 0 < fieldSize intCnt + fieldSize frac.toNat := by
    rw [fieldSize_eq, fieldSize_eq]
    omega
  have hroom := packed_spec h hp
  generalize fieldSize intCnt + fieldSize frac.toNat = size at *
  have hblen := length_toBe size (a.packed frac.toNat)
  have hnum := ofBe_toBe size (a.packed frac.toNat)
  rw [mod_eq_of_lt (by omega)] at hnum
  generalize toBe size (a.packed frac.toNat) = body at *
  have hne : body ≠ [] := ne_nil_of_length_pos (by omega)
  have hsign : decide ((signedCode a.negative body).headD 0 &&& 0x80 = 0) = a.negative :=
    sign_of_code hne (by rw [hblen]; omega)
  have hcons := signedCode_ne_nil a.negative hne
  simp only [codeReader, if_true] at hparts
  generalize signedCode a.negative body = code at *
  obtain ⟨first, tail, rfl⟩ := exists_cons_of_ne_nil hcons
  rw [headD_cons] at hsign
  rw [cons_append] at hparts
  refine ⟨intParts (intCnt % 9) lead ws, ?_, intParts_intOk (by omega) hlead hws, ?_, ?_⟩
  · rw [hbytes, cons_append, cons_append, cons_append, readDecimal, if_neg (UInt8.not_lt.2 hle)]
    simp only [hcnt, fixWordCntErr_eq_ok.2 hwords, hsign]
    rw [hparts]
    simp only [hrest]
    rfl
  · rw [intParts_words hlead, hstrip]
  · have hle := intParts_intCnt_le (intCnt % 9) lead ws
    rwa [hlen, div_add_mod] at hle

/-- **What was written is read back**, whatever follows: the same number, equal to it under `==`. -/
theorem readDecimal_written :
    ∃ d, readDecimal (u ++ rest) = .ok (d, rest) ∧ d.WellFormed ∧ d.value = a.value ∧ d.cmp a = .eq := by
  obtain ⟨s, hread, hok, hiw, hcnt⟩ := readDecimal_parts ha hu hpos hle hwords rest
  rw [wordTo_eq, wordTo_eq] at hwords
  exact ⟨_, hread, toDecimal_read ha (planned_of_writeDecimal hu).frac hok hiw (by omega) rfl⟩

end

/-! ## The stored form -/

/-- **The stored form of decimals is an order-preserving code.**  For decimals that lose no digit and are no negative zero
the written bytes compare as the values.  Where the reader takes the precision at all — a digit, no more digits after
the point than there are, and at most nine words — it gives back the same number, equal to it under `==`, and stops
where the writer did.  The length is the one that `dec_encoded_len` tells.  Whatever is accepted has its words and digits
as the counts say, but for one digit more in the first word. -/
theorem stored_form : (∀ (prec frac : UInt8) (a b : Decimal) (u v : Bytes), a.Storable frac → b.Storable frac →
      writeDecimal a prec frac = (u, .ok) → writeDecimal b prec frac = (v, .ok) →
      (u < v ↔ a.value < b.value) ∧ (u = v ↔ a.value = b.value)) ∧
    (∀ (prec frac : UInt8) (a : Decimal) (u rest : Bytes), a.Storable frac → 0 < prec → frac ≤ prec →
      wordTo (prec.toNat - frac.toNat) + wordTo frac.toNat ≤ 9 → writeDecimal a prec frac = (u, .ok) →
      ∃ d, readDecimal (u ++ rest) = .ok (d, rest) ∧ d.WellFormed ∧ d.value = a.value ∧ d.cmp a = .eq) ∧
    (∀ (prec frac : UInt8) (a : Decimal) (u rest : Bytes), a.WellFormed → frac ≤ prec →
      writeDecimal a prec frac = (u, .ok) → decEncodedLen (u ++ rest) = .ok u.length) ∧
    ∀ (bytes rest : Bytes) (d : Decimal), readDecimal bytes = .ok (d, rest) → d.Fits 1 := by
  refine ⟨?_, ?_, ?_, fun bytes rest d hd => fits_of_readDecimal hd⟩
  · intro prec frac a b u v ha hb hu hv
    have hlt := bytes_lt_iff ha hb hu hv
    have hgt := bytes_lt_iff hb ha hv hu
    refine ⟨hlt, ?_⟩
    rw [eq_iff_le_not_lt, eq_iff_le_not_lt, ← not_lt, ← not_lt, hlt, hgt]
  · intro prec frac a u rest ha hpos hle hwords hu
    exact readDecimal_written ha hu hpos hle hwords rest
  · intro prec frac a u rest ha hle hu
    have hlen := length_writeDecimal ha hu
    rw [UInt8.toNat_sub_of_le _ _ hle] at hlen
    rw [writeDecimal_eq ha hu, cons_append, cons_append, decEncodedLen, if_neg (UInt8.not_lt.2 hle), ← hlen,
      ← writeDecimal_eq ha hu]

def ofWord (intCnt fracCnt : Nat) (negative : Bool) (word : Nat) : Decimal :=
  { intCnt := intCnt, fracCnt := fracCnt, resultFracCnt := fracCnt, negative := negative,
    wordBuf := word :: List.replicate 8 0 }

theorem stored_form_sample :
    (ofWord 2 0 true 12).Storable 2 ∧ writeDecimal (ofWord 2 0 true 12) 5 2 = ([5, 2, 0x7f, 0xf3, 0xff], .ok) ∧
      ∃ d, readDecimal [5, 2, 0x7f, 0xf3, 0xff, 0x01] = .ok (d, [0x01]) ∧ d.WellFormed ∧ d.value = -12 ∧
        d.cmp (ofWord 2 0 true 12) = .eq := by
  have hstore : (ofWord 2 0 true 12).Storable 2 :=
    ⟨by decide, by decide, fun hz => absurd hz.2 (by decide +kernel)⟩
  have hwrite : writeDecimal (ofWord 2 0 true 12) 5 2 = ([5, 2, 0x7f, 0xf3, 0xff], .ok) := by decide
  have hvalue : (ofWord 2 0 true 12).value = -12 := by decide +kernel
  refine ⟨hstore, hwrite, ?_⟩
  rw [← hvalue]
  exact stored_form.2.1 5 2 _ _ [0x01] hstore (by decide) (by decide) (by decide) hwrite

/-- **Where the code stops short.**  `0.12` with one digit after the point is written with both digits, as neither takes a
byte of its own: it cannot be read, and it comes after `0.2`.  The two zeros have different bytes.  A precision of 0, one
below the digits after the point and one of more than nine words are written and cannot be read.  Ninety-nine is read
as a number of one digit. -/
theorem stored_form_limits : ((ofWord 0 2 false 120000000).WellFormed ∧ (ofWord 0 1 false 200000000).WellFormed ∧
      writeDecimal (ofWord 0 2 false 120000000) 2 1 = ([2, 1, 0x80, 12], .ok) ∧
      writeDecimal (ofWord 0 1 false 200000000) 2 1 = ([2, 1, 0x80, 2], .ok) ∧
      readDecimal [2, 1, 0x80, 12] = .error .trailingDigits ∧
      (ofWord 0 2 false 120000000).value < (ofWord 0 1 false 200000000).value) ∧
    ((ofWord 0 1 true 0).WellFormed ∧ (ofWord 0 1 false 0).WellFormed ∧
      writeDecimal (ofWord 0 1 true 0) 2 1 = ([2, 1, 0x7f, 0xff], .ok) ∧
      writeDecimal (ofWord 0 1 false 0) 2 1 = ([2, 1, 0x80, 0], .ok) ∧
      (ofWord 0 1 true 0).value = (ofWord 0 1 false 0).value) ∧
    (Decimal.zero.WellFormed ∧ (writeDecimal Decimal.zero 0 0) = ([0, 0], .ok) ∧
      readDecimal [0, 0] = .error (.tooShort 2 3) ∧
      (writeDecimal Decimal.zero 1 2).2 = .ok ∧
      readDecimal (writeDecimal Decimal.zero 1 2).1 = .error (.invalidPrecision 1 2) ∧
      (writeDecimal Decimal.zero 82 0).2 = .ok ∧
      readDecimal (writeDecimal Decimal.zero 82 0).1 = .error (.decodingFailed .overflow)) ∧
    readDecimal [1, 0, 0xe3] = .ok (ofWord 1 0 false 99, []) ∧ ¬ (ofWord 1 0 false 99).WellFormed := by
  refine ⟨⟨by decide, by decide, by decide, by decide, by decide, by decide +kernel⟩,
    ⟨by decide, by decide, by decide, by decide, by decide +kernel⟩,
    ⟨by decide, by decide, by decide, by decide +kernel, by decide +kernel, by decide +kernel, by decide +kernel⟩,
    by decide, by decide⟩

end Decimal

end Mysql
end Tikv
