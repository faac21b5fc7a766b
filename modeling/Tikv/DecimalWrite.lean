import Tikv.DecimalCodec
/-!
# DecimalWrite — the bytes `write_decimal` writes

A decimal that fits into `prec` and `frac` without losing a digit is written as the signed code of one number: the words
of the integer part, the fraction's words and the trailing digits, each in its bytes (`writeDecimal_eq_of_kept`).  The
integer part may have fewer digits than there is room for and the fraction too; the mask bytes written in their place
are what zeros would be.
-/
namespace Tikv
namespace Mysql

open Lib List

/-! ## Sizes -/

variable {n : Nat}

theorem dig2Bytes_eq (h : n ≤ 9) : dig2Bytes n = min 4 ((n + 1) / 2) := by
  have : ∀ n : Fin 10, dig2Bytes n = min 4 ((n.val + 1) / 2) := by decide
  exact this ⟨n, by omega⟩

theorem fieldSize_eq (n : Nat) : fieldSize n = n / 9 * 4 + (n % 9 + 1) / 2 := by
  rw [fieldSize, dig2Bytes_eq (by omega)]
  omega

theorem fieldSize_mono {m : Nat} (h : m ≤ n) : fieldSize m ≤ fieldSize n := by
  rw [fieldSize_eq, fieldSize_eq]
  omega

theorem two_mul_ten_pow_le (hpos : 1 ≤ n) (h : n ≤ 9) : 2 * 10 ^ n ≤ 256 ^ dig2Bytes n := by
  have : ∀ n : Fin 10, 1 ≤ n.val → 2 * 10 ^ n.val ≤ 256 ^ dig2Bytes n := by decide
  exact this ⟨n, by omega⟩ hpos

theorem wordCnt_eq (h : n ≤ 81) : wordCnt n = (n + 8) / 9 := by
  rw [wordCnt, if_neg (by omega)]

theorem le_of_wordCnt_le (h : wordCnt n ≤ 9) : n ≤ 81 := by
  by_contra hgt
  rw [wordCnt, if_pos (by omega)] at h
  omega

namespace Decimal

def slice (d : Decimal) (i n : Nat) : List Nat := (List.range' i n).map d.word

section

variable (d : Decimal)

@[simp] theorem length_slice (i n : Nat) : (d.slice i n).length = n := by
  simp [slice]

theorem slice_succ (i n : Nat) : d.slice i (n + 1) = d.word i :: d.slice (i + 1) n := by
  rw [slice]; rfl

theorem slice_add (i m n : Nat) : d.slice i (m + n) = d.slice i m ++ d.slice (i + m) n := by
  rw [slice, ← range'_append_1, map_append]; rfl

theorem take_drop_eq_slice {i : Nat} (h : i + n ≤ d.wordBuf.length) :
    (d.wordBuf.drop i).take n = d.slice i n := by
  refine ext_getElem (by simp; omega) fun j hj hj' => ?_
  have hlt : i + j < d.wordBuf.length := by
    simp at hj
    omega
  simp [slice, word, hlt]

end

theorem slice_zeros {d : Decimal} {i : Nat} (h : ∀ j < i, d.word j = 0) : d.slice 0 i = replicate i 0 := by
  refine eq_replicate_iff.2 ⟨by simp, fun w hw => ?_⟩
  obtain ⟨j, hj, rfl⟩ := mem_map.1 hw
  rw [mem_range'_1] at hj
  exact h j (by omega)

end Decimal

/-! ## One write -/

variable {w s size : Nat} {d : Decimal} {negative : Bool} {u : Bytes}

theorem toBe_xorMask (hw : w < 2 ^ 32) (hs : size ≤ 4) :
    toBe size (xorMask negative w) = maskBytes negative (toBe size w) := by
  cases negative with
  | false => rfl
  | true =>
    have hcompl := ofBe_complement (toBe size w)
    have hround := toBe_ofBe ((toBe size w).map (~~~ ·))
    rw [ofBe_toBe, length_toBe] at hcompl
    rw [length_map, length_toBe] at hround
    have hmod : (2 ^ 32 - 1 - w) % 256 ^ size = ofBe ((toBe size w).map (~~~ ·)) := by
      have : size = 0 ∨ size = 1 ∨ size = 2 ∨ size = 3 ∨ size = 4 := by omega
      rcases this with rfl | rfl | rfl | rfl | rfl <;> omega
    show toBe size (2 ^ 32 - 1 - w) = (toBe size w).map (~~~ ·)
    rw [← toBe_mod, hmod, hround]

theorem writeWord_signedCode (hw : w < 2 ^ 32) (hs : size ≤ 4) :
    writeWord negative (signedCode negative u) w size = signedCode negative (u ++ toBe size w) := by
  unfold writeWord
  rw [toBe_xorMask hw hs]
  by_cases hu : u = []
  · subst hu
    simp [signedCode, flipTop]
  have hne : maskBytes negative u ≠ [] := fun h => hu (by simpa using congrArg length h)
  have hcode : (signedCode negative u).isEmpty = false := isEmpty_eq_false_iff.2 (signedCode_ne_nil negative hu)
  rw [hcode, signedCode, signedCode, maskBytes_append, flipTop_append hne]
  simp

theorem writeMask_signedCode : ∀ (n : Nat) (u : Bytes),
    writeMask negative n (signedCode negative u) = signedCode negative (u ++ replicate n 0)
  | 0, u => by simp [writeMask]
  | n + 1, u => by
    rw [writeMask, writeWord_signedCode (by decide) (by decide), writeMask_signedCode n, append_assoc]
    rfl

theorem writeWords_signedCode : ∀ (n idx : Nat) (u : Bytes),
    (∀ w ∈ d.slice idx n, w < 2 ^ 32) → writeWords d negative n idx (signedCode negative u) =
      signedCode negative (u ++ fieldsToBe (replicate n 4) (d.slice idx n))
  | 0, idx, u, _ => by simp [writeWords, fieldsToBe]
  | n + 1, idx, u, h => by
    rw [Decimal.slice_succ] at h ⊢
    have hw : d.word idx < 2 ^ 32 := h _ (by simp)
    rw [writeWords, writeWord_signedCode hw (by decide),
      writeWords_signedCode n (idx + 1) _ (fun w hw => h w (mem_cons_of_mem _ hw)),
      replicate_succ, fieldsToBe, append_assoc]

/-! ## The integer part -/

theorem countLeadingZeroes_spec : ∀ (i : Nat) {w : Nat}, w < 10 ^ (i + 1) →
    countLeadingZeroes i w ≤ i ∧ w < 10 ^ (i + 1 - countLeadingZeroes i w)
  | 0, w, h => ⟨le_refl 0, h⟩
  | i + 1, w, h => by
    unfold countLeadingZeroes
    by_cases hlt : w < 10 ^ (i + 1)
    · obtain ⟨hle, hw⟩ := countLeadingZeroes_spec i hlt
      rw [if_pos hlt]
      have hexp : i + 1 + 1 - (countLeadingZeroes i w + 1) = i + 1 - countLeadingZeroes i w := by omega
      exact ⟨by omega, hexp ▸ hw⟩
    · rw [if_neg hlt]
      exact ⟨by omega, h⟩

theorem skipZeroWords_spec : ∀ (ws : List Nat) {cnt : Nat} (idx : Nat),
    (0 < cnt → ws.getD 0 0 < 10 ^ ((cnt + 8) % 9 + 1)) → (∀ j < (cnt + 8) / 9, ws.getD j 0 < wordBase) →
    ∃ n left, skipZeroWords ws cnt ((cnt + 8) % 9 + 1) idx = (idx + n, left) ∧ n + (left + 8) / 9 = (cnt + 8) / 9 ∧
      (∀ j < n, ws.getD j 0 = 0) ∧ (0 < left → ws.getD n 0 < 10 ^ ((left + 8) % 9 + 1))
  | [], cnt, idx, _, _ => ⟨0, cnt, rfl, by simp, by simp, by simp⟩
  | w :: ws, cnt, idx, hhead, hall => by
    unfold skipZeroWords
    by_cases hskip : 0 < cnt ∧ w = 0
    · rw [if_pos hskip]
      obtain ⟨hpos, rfl⟩ := hskip
      have hmod : (cnt - ((cnt + 8) % 9 + 1) + 8) % 9 + 1 = 9 := by omega
      have hrest : ∀ j < (cnt - ((cnt + 8) % 9 + 1) + 8) / 9, ws.getD j 0 < wordBase := by
        intro j hj
        simpa using hall (j + 1) (by omega)
      obtain ⟨n, left, heq, hsum, hzero, hleft⟩ := skipZeroWords_spec ws (idx + 1)
        (fun hcnt => by rw [hmod]; exact hrest 0 (by omega)) hrest
      rw [hmod] at heq
      refine ⟨n + 1, left, ?_, by omega, ?_, ?_⟩
      · rw [heq]
        congr 1
        omega
      · intro j hj
        cases j with
        | zero => rfl
        | succ j => simpa using hzero j (by omega)
      · simpa using hleft
    · rw [if_neg hskip]
      exact ⟨0, cnt, rfl, by omega, by simp, hhead⟩

namespace Decimal

section

variable (h : d.Fits s)
include h

theorem Fits.intCnt_le : d.intCnt ≤ 81 :=
  le_of_wordCnt_le (le_trans (Nat.le_add_right _ _) h.words_le)

theorem Fits.fracCnt_le : d.fracCnt ≤ 81 :=
  le_of_wordCnt_le (le_trans (Nat.le_add_left _ _) h.words_le)

theorem Fits.intWords_eq : d.intWords = d.slice 0 (wordCnt d.intCnt) := by
  have hle := h.words_le
  have := d.take_drop_eq_slice (i := 0) (n := wordCnt d.intCnt) (by rw [h.length]; omega)
  rwa [drop_zero] at this

theorem Fits.fracWords_eq : d.fracWords = d.slice (wordCnt d.intCnt) (wordCnt d.fracCnt) := by
  have hle := h.words_le
  exact d.take_drop_eq_slice (by rw [h.length]; omega)

theorem Fits.word_lt_of_lt {j : Nat} (hj : j < wordCnt d.intCnt + wordCnt d.fracCnt) :
    d.word j < wordBase := by
  refine h.word_lt _ ?_
  have hslice : d.intWords ++ d.fracWords = d.slice 0 (wordCnt d.intCnt + wordCnt d.fracCnt) := by
    rw [h.intWords_eq, h.fracWords_eq, slice_add, zero_add]
  rw [hslice]
  exact mem_map.2 ⟨j, mem_range'_1.2 ⟨by omega, by omega⟩, rfl⟩

theorem Fits.slice_lt {i : Nat}
    (hin : i + n ≤ wordCnt d.intCnt + wordCnt d.fracCnt) : ∀ w ∈ d.slice i n, w < wordBase := by
  intro w hw
  obtain ⟨j, hj, rfl⟩ := mem_map.1 hw
  rw [mem_range'_1] at hj
  exact h.word_lt_of_lt (by omega)

end

theorem removeLeadingZeroes_spec (h : d.WellFormed) : (∀ j < (d.removeLeadingZeroes d.intCnt).1, d.word j = 0) ∧
      ((d.removeLeadingZeroes d.intCnt = (wordCnt d.intCnt, 0)) ∨
        ∃ start left c, d.removeLeadingZeroes d.intCnt = (start, 9 * left + c) ∧ start + left + 1 = wordCnt d.intCnt ∧
          1 ≤ c ∧ c ≤ 9 ∧ d.word start < 10 ^ c) := by
  have hle := h.intCnt_le
  have hcnt := wordCnt_eq hle
  have hhead : 0 < d.intCnt → d.word 0 < 10 ^ ((d.intCnt + 8) % 9 + 1) := by
    intro hpos
    obtain ⟨n, hn⟩ := Nat.exists_eq_add_one_of_ne_zero (show wordCnt d.intCnt ≠ 0 by omega)
    refine h.head_lt _ ?_
    rw [h.intWords_eq, hn]
    rfl
  obtain ⟨n, left, heq, hsum, hzero, hleft⟩ :=
    skipZeroWords_spec d.wordBuf 0 hhead fun j hj => h.word_lt_of_lt (j := j) (by omega)
  rw [zero_add] at heq
  unfold removeLeadingZeroes
  rw [heq]
  by_cases hpos : 0 < left
  · simp only [if_pos hpos]
    refine ⟨hzero, .inr ⟨n, (left - 1) / 9, (left - 1) % 9 + 1 - countLeadingZeroes ((left - 1) % 9) (d.word n), ?_⟩⟩
    have hexp : (left + 8) % 9 = (left - 1) % 9 := by omega
    have hw := hleft hpos
    rw [hexp] at hw
    obtain ⟨hcle, hcw⟩ := countLeadingZeroes_spec _ hw
    change countLeadingZeroes ((left - 1) % 9) (d.word n) ≤ _ at hcle
    refine ⟨?_, by omega, by omega, by omega, hcw⟩
    congr 1
    omega
  · simp only [if_neg hpos]
    have h0 : left = 0 := by omega
    refine ⟨hzero, .inl ?_⟩
    congr 1
    omega

def packedInt (d : Decimal) : Nat := ofRadices (List.replicate (wordCnt d.intCnt) (2 ^ 32)) d.intWords

def intBytes (d : Decimal) (ip : IntPlan) : Bytes :=
  List.replicate ip.padding 0 ++
    (if 0 < ip.leadingDigits then toBe (dig2Bytes ip.leadingDigits) (d.word ip.start % 10 ^ ip.leadingDigits) else [])

def firstWord (ip : IntPlan) : Nat := if 0 < ip.leadingDigits then ip.start + 1 else ip.start

end Decimal

theorem byteRadices_words : byteRadices (replicate n 4) = replicate n (2 ^ 32) := by
  simp [byteRadices]

theorem wordBase_lt : wordBase < 2 ^ 32 := by decide

theorem lt_of_lt_wordBase (h : w < wordBase) : w < 2 ^ 32 := lt_trans h wordBase_lt

theorem ten_pow_le (h : n ≤ 9) : 10 ^ n ≤ 256 ^ dig2Bytes n := by
  rcases Nat.eq_zero_or_pos n with rfl | hpos
  · exact le_rfl
  have := two_mul_ten_pow_le hpos h
  omega

theorem leading_fields {c : Nat} {ws : List Nat} (hc : c ≤ 9) (hw : w < 10 ^ c) (hlen : ws.length = n)
    (hws : ∀ v ∈ ws, v < wordBase) : Digits (replicate n (2 ^ 32)) ws ∧
      fieldsToBe (dig2Bytes c :: replicate n 4) (w :: ws) =
        toBe (n * 4 + dig2Bytes c) (ofRadices (replicate (n + 1) (2 ^ 32)) (w :: ws)) := by
  subst hlen
  have hdigits := digits_replicate ws fun v hv => lt_of_lt_wordBase (hws v hv)
  have hall : Digits (byteRadices (dig2Bytes c :: replicate ws.length 4)) (w :: ws) := by
    refine .cons (lt_of_lt_of_le hw (ten_pow_le hc)) ?_
    change Digits (byteRadices (replicate ws.length 4)) ws
    rwa [byteRadices_words]
  refine ⟨hdigits, ?_⟩
  rw [fieldsToBe_eq hall, sum_cons, sum_replicate_nat, add_comm]
  change toBe _ (w * (byteRadices (replicate ws.length 4)).prod + ofRadices (byteRadices (replicate ws.length 4)) ws) = _
  rw [byteRadices_words, replicate_succ, ofRadices]

namespace Decimal

theorem packedInt_eq_of_zeros (h : d.WellFormed) {start : Nat} (hsum : start + n = wordCnt d.intCnt)
    (hzero : ∀ j < start, d.word j = 0) : d.packedInt = ofRadices (replicate n (2 ^ 32)) (d.slice start n) := by
  rw [packedInt, h.intWords_eq, ← hsum, slice_add, replicate_add, ofRadices_append (by simp), slice_zeros hzero,
    ofRadices_zeros, zero_mul, zero_add, zero_add]

variable (h : d.WellFormed) {intCnt : Nat} {isZero : Bool}
  (hzero : isZero = true → (d.removeLeadingZeroes d.intCnt).2 = 0)

include hzero in
theorem room_of_intPlan (hfit : (d.intPlan intCnt isZero).overflow = false) :
    (d.removeLeadingZeroes d.intCnt).2 ≤ intCnt := by
  cases isZero with
  | true => exact (hzero rfl).trans_le (Nat.zero_le _)
  | false =>
    by_contra hlt
    simp [intPlan, lt_of_not_ge hlt] at hfit

include h hzero in
/-- **The integer part takes all its bytes**: mask bytes, the leading digits and the full words are the bytes of one
number, which leaves the top bit free. -/
theorem intBytes_spec {ip : IntPlan} (hip : d.intPlan intCnt isZero = ip) (hfit : ip.overflow = false) :
    firstWord ip + ip.wordCnt = wordCnt d.intCnt ∧
      d.intBytes ip ++ fieldsToBe (replicate ip.wordCnt 4) (d.slice (firstWord ip) ip.wordCnt) =
        toBe (fieldSize intCnt) d.packedInt ∧
      (intCnt = 0 ∧ d.packedInt = 0 ∨ 2 * (d.packedInt + 1) ≤ 256 ^ fieldSize intCnt) := by
  subst hip
  obtain ⟨hskipped, hfound⟩ := removeLeadingZeroes_spec h
  rcases hfound with heq | ⟨start, left, c, heq, hsum, hc, hc', hw⟩
  · -- no digits: mask bytes only
    rw [heq] at hskipped
    have hpacked : d.packedInt = 0 := by
      rw [packedInt_eq_of_zeros h (n := 0) (add_zero _) hskipped]
      rfl
    have hplan : d.intPlan intCnt isZero =
        { padding := fieldSize intCnt, start := wordCnt d.intCnt, leadingDigits := 0, wordCnt := 0, overflow := false } := by
      unfold intPlan
      rw [heq]
      rfl
    rw [hplan, hpacked]
    refine ⟨rfl, by simp [intBytes, fieldsToBe, toBe_zero], ?_⟩
    by_cases h0 : intCnt = 0
    · exact .inl ⟨h0, rfl⟩
    right
    have hpos : 1 ≤ fieldSize intCnt := by
      rw [fieldSize_eq]
      omega
    calc 2 * (0 + 1) ≤ 256 ^ 1 := by decide
      _ ≤ 256 ^ fieldSize intCnt := Nat.pow_le_pow_right (by decide) hpos
  · rw [heq] at hskipped hzero
    have hnotZero : isZero = false := by
      cases isZero with
      | false => rfl
      | true => exact absurd (hzero rfl) (by simp; omega)
    subst hnotZero
    have hroom := room_of_intPlan (by simp) hfit
    rw [heq] at hroom
    have hplan : d.intPlan intCnt false =
        { padding := fieldSize intCnt - fieldSize (9 * left + c), start := start, leadingDigits := (9 * left + c) % 9,
          wordCnt := (9 * left + c) / 9, overflow := false } := by
      unfold intPlan
      rw [heq]
      simp [not_lt.2 hroom]
    have hslice : ∀ w ∈ d.slice (start + 1) left, w < wordBase := h.slice_lt (by omega)
    obtain ⟨hdigits, hfields⟩ := leading_fields hc' hw (d.length_slice (start + 1) left) hslice
    have hsize : fieldSize (9 * left + c) = left * 4 + dig2Bytes c := by
      rw [fieldSize_eq, dig2Bytes_eq hc']
      omega
    have hpacked := packedInt_eq_of_zeros h (n := left + 1) (by omega) hskipped
    rw [← slice_succ, ← hpacked, ← hsize] at hfields
    have hbound : 2 * (d.packedInt + 1) ≤ 256 ^ fieldSize (9 * left + c) := by
      have hten := two_mul_ten_pow_le hc hc'
      have hle := two_mul_ofRadices_le (q := 2 ^ 32) (show 2 * (d.word start + 1) ≤ 256 ^ dig2Bytes c by omega) hdigits
      rw [prod_replicate, mul_comm (256 ^ _)] at hle
      rw [hpacked, hsize, Nat.pow_add, mul_comm left, Nat.pow_mul]
      exact hle
    have hmono : fieldSize (9 * left + c) ≤ fieldSize intCnt := fieldSize_mono (by omega)
    have hpad : toBe (fieldSize intCnt) d.packedInt =
        replicate (fieldSize intCnt - fieldSize (9 * left + c)) 0 ++ toBe (fieldSize (9 * left + c)) d.packedInt := by
      rw [← toBe_add_of_lt _ (by omega), Nat.sub_add_cancel hmono]
    rw [hplan, hpad, ← hfields]
    refine ⟨?_, ?_, .inr (le_trans hbound (Nat.pow_le_pow_right (by decide) hmono))⟩
    · simp only [firstWord]
      split <;> omega
    · -- nine leading digits are a full word
      rcases lt_or_ge c 9 with hlt | hge
      · have hmod : (9 * left + c) % 9 = c := by omega
        have hdiv : (9 * left + c) / 9 = left := by omega
        simp [intBytes, firstWord, hmod, hdiv, if_pos (show 0 < c by omega), Nat.mod_eq_of_lt hw, slice_succ, fieldsToBe]
      · have h9 : c = 9 := by omega
        subst h9
        have hmod : (9 * left + 9) % 9 = 0 := by omega
        have hdiv : (9 * left + 9) / 9 = left + 1 := by omega
        simp only [intBytes, hmod, hdiv, lt_irrefl, if_false, append_nil]
        rfl

/-! ## The fraction -/

def fracWord (d : Decimal) (j : Nat) : Nat := d.fracWords.getD j 0

theorem Fits.fracWord_eq (h : d.Fits s) {j : Nat} (hj : j < wordCnt d.fracCnt) :
    d.fracWord j = d.word (wordCnt d.intCnt + j) := by
  rw [fracWord, h.fracWords_eq]
  simp [slice, hj]

theorem Fits.fracWord_of_le (h : d.Fits s) {j : Nat} (hj : wordCnt d.fracCnt ≤ j) :
    d.fracWord j = 0 := by
  rw [fracWord, h.fracWords_eq]
  simp [hj]

/-- **No digit is lost with `frac` digits after the point**: there are no more digits, or the word with those that are
beyond is 0. -/
def KeptBy (d : Decimal) (frac : Nat) : Prop := d.fracCnt ≤ frac ∨ d.fracWord (frac / 9) = 0

instance instDecidableKeptBy (d : Decimal) (frac : Nat) : Decidable (d.KeptBy frac) :=
  inferInstanceAs (Decidable (_ ∨ _))

def fracFields (d : Decimal) (frac : Nat) : List Nat :=
  (List.range (frac / 9)).map d.fracWord ++ [d.fracWord (frac / 9) / 10 ^ (9 - frac % 9)]

end Decimal

def fracSizes (frac : Nat) : List Nat := List.replicate (frac / 9) 4 ++ [dig2Bytes (frac % 9)]

theorem sum_fracSizes (frac : Nat) : (fracSizes frac).sum = fieldSize frac := by
  rw [fracSizes, sum_append, sum_replicate_nat, sum_singleton, fieldSize]

theorem fieldsToBe_zeros : ∀ ns : List Nat, fieldsToBe ns (replicate ns.length 0) = replicate ns.sum 0
  | [] => rfl
  | n :: ns => by
    rw [length_cons, replicate_succ, fieldsToBe, toBe_zero, fieldsToBe_zeros ns, sum_cons, replicate_add]

theorem extendTrailing_of_le {i lim digits : Nat} (h : lim ≤ digits) :
    extendTrailing i lim (lim - digits) digits = digits := by
  rw [Nat.sub_eq_zero_of_le h]
  rfl

theorem extendTrailing_eq_lim {i lim : Nat} : ∀ {n digits : Nat}, digits + n = lim →
    (∀ j, digits ≤ j → j < lim → dig2Bytes j = i) → extendTrailing i lim n digits = lim
  | 0, digits, h, _ => h
  | n + 1, digits, h, hi => by
    rw [extendTrailing, if_pos ⟨by omega, hi digits le_rfl (by omega)⟩]
    exact extendTrailing_eq_lim (by omega) fun j hj hlt => hi j (by omega) hlt

variable {frac : Nat}

namespace Decimal

section

variable (h : d.Fits s)
include h

theorem Fits.map_fracWord (hn : n ≤ wordCnt d.fracCnt) :
    (range n).map d.fracWord = d.slice (wordCnt d.intCnt) n := by
  rw [slice, range'_eq_map_range, map_map]
  refine map_congr_left fun j hj => ?_
  exact h.fracWord_eq (lt_of_lt_of_le (mem_range.1 hj) hn)

theorem Fits.fracWords_filled (hle : wordCnt d.fracCnt ≤ n) :
    (range n).map d.fracWord = d.fracWords ++ replicate (n - wordCnt d.fracCnt) 0 := by
  obtain ⟨k, hk⟩ := Nat.exists_eq_add_of_le hle
  rw [hk, range_add, map_append, h.map_fracWord le_rfl, h.fracWords_eq, map_map]
  congr 1
  refine eq_replicate_iff.2 ⟨by simp, fun w hw => ?_⟩
  obtain ⟨j, -, rfl⟩ := mem_map.1 hw
  exact h.fracWord_of_le (Nat.le_add_right _ _)

theorem Fits.fracBytes_of_le (hk : wordCnt d.fracCnt ≤ frac / 9) :
    fieldsToBe (fracSizes frac) (d.fracFields frac) =
      fieldsToBe (replicate (wordCnt d.fracCnt) 4) (d.slice (wordCnt d.intCnt) (wordCnt d.fracCnt)) ++
        replicate (fieldSize frac - 4 * wordCnt d.fracCnt) 0 := by
  have hwords := h.fracWords_filled hk
  obtain ⟨n, hn⟩ := Nat.exists_eq_add_of_le hk
  rw [h.fracWords_eq] at hwords
  have hlast : d.fracWord (frac / 9) / 10 ^ (9 - frac % 9) = 0 := by
    rw [h.fracWord_of_le hk, Nat.zero_div]
  have hzeros := fieldsToBe_zeros (replicate n 4 ++ [dig2Bytes (frac % 9)])
  have hsum : (replicate n 4 ++ [dig2Bytes (frac % 9)]).sum = fieldSize frac - 4 * wordCnt d.fracCnt := by
    rw [sum_append, sum_replicate_nat, sum_singleton, fieldSize]
    omega
  rw [hsum] at hzeros
  rw [fracFields, fracSizes, hwords, hlast, hn, replicate_add, append_assoc, append_assoc,
    fieldsToBe_append (by simp), ← hzeros]
  simp [replicate_succ']

theorem Fits.fracBytes_of_eq (hk : wordCnt d.fracCnt = frac / 9 + 1) :
    fieldsToBe (fracSizes frac) (d.fracFields frac) =
      fieldsToBe (replicate (frac / 9) 4) (d.slice (wordCnt d.intCnt) (frac / 9)) ++
        toBe (dig2Bytes (frac % 9)) (d.word (wordCnt d.intCnt + frac / 9) / 10 ^ (9 - frac % 9)) := by
  rw [fracFields, fracSizes, h.map_fracWord (by omega), h.fracWord_eq (by omega), fieldsToBe_append (by simp)]
  simp [fieldsToBe]

end

def trailingBytes (d : Decimal) (frac : Nat) (fp : FracPlan) (idx : Nat) : Bytes :=
  if 0 < fp.trailingDigits then
    toBe (dig2Bytes fp.trailingDigits) (d.word idx / 10 ^ (9 - extendTrailing (dig2Bytes fp.trailingDigits)
      (if fp.wordCnt < frac / 9 then 9 else frac % 9)
      ((if fp.wordCnt < frac / 9 then 9 else frac % 9) - fp.trailingDigits) fp.trailingDigits))
  else []

def fracBytes (d : Decimal) (frac : Nat) (fp : FracPlan) : Bytes :=
  fieldsToBe (List.replicate fp.wordCnt 4) (d.slice (wordCnt d.intCnt) fp.wordCnt) ++
    d.trailingBytes frac fp (wordCnt d.intCnt + fp.wordCnt)

/-- The mask bytes after it, so many that the fraction has its size. -/
def fracPadding (d : Decimal) (frac : Nat) (fp : FracPlan) : Nat :=
  if fieldSize d.fracCnt < fp.fracSize then
    min (fp.fracSize - fieldSize d.fracCnt) (fp.fracSize - (d.fracBytes frac fp).length)
  else 0

end Decimal

@[simp] theorem length_fieldsToBe : ∀ {ns ds : List Nat}, ns.length = ds.length → (fieldsToBe ns ds).length = ns.sum
  | [], [], _ => rfl
  | n :: ns, d :: ds, h => by
    rw [fieldsToBe, length_append, length_toBe, length_fieldsToBe (Nat.succ.inj h), sum_cons]

namespace Decimal

theorem writeTrailing_signedCode {frac idx : Nat} {fp : FracPlan} (hdigits : fp.trailingDigits ≤ 9)
    (hw : 0 < fp.trailingDigits → d.word idx < wordBase) :
    writeTrailing d negative frac fp idx (signedCode negative u) =
      signedCode negative (u ++ d.trailingBytes frac fp idx) := by
  unfold writeTrailing trailingBytes
  by_cases hpos : 0 < fp.trailingDigits
  · rw [if_pos hpos, if_pos hpos]
    refine writeWord_signedCode (lt_of_le_of_lt (Nat.div_le_self _ _) (lt_of_lt_wordBase (hw hpos))) ?_
    rw [dig2Bytes_eq hdigits]
    omega
  · rw [if_neg hpos, if_neg hpos, append_nil]

theorem KeptBy.word_eq_zero (hk : d.KeptBy frac) (h : d.WellFormed) (hlt : frac < d.fracCnt)
    (hj : frac / 9 < wordCnt d.fracCnt) : d.word (wordCnt d.intCnt + frac / 9) = 0 := by
  rw [← h.fracWord_eq hj]
  exact hk.resolve_left (not_le.2 hlt)

variable (h : d.WellFormed) (hfit : (d.fracPlan frac).truncated = false)
include hfit

theorem not_truncated : ¬ fieldSize frac < fieldSize d.fracCnt := by
  intro hlt
  rw [fracPlan, if_pos hlt] at hfit
  exact absurd hfit (by simp)

/-- The fraction has its size also when a digit is lost: the bytes are counted without a look at the words. -/
theorem length_fraction :
    (d.fracBytes frac (d.fracPlan frac)).length + d.fracPadding frac (d.fracPlan frac) = fieldSize frac := by
  have hnot := not_truncated hfit
  have hsize := fieldSize_eq frac
  have hsrc := fieldSize_eq d.fracCnt
  have htrail : ∀ fp idx, (d.trailingBytes frac fp idx).length = dig2Bytes fp.trailingDigits := by
    intro fp idx
    unfold trailingBytes
    split
    · exact length_toBe _ _
    rw [show fp.trailingDigits = 0 by omega]
    rfl
  have hlen : ∀ fp, fp.trailingDigits ≤ 8 → (d.fracBytes frac fp).length = fp.wordCnt * 4 + (fp.trailingDigits + 1) / 2 := by
    intro fp hle
    simp [fracBytes, htrail, dig2Bytes_eq (Nat.le_succ_of_le hle)]
    omega
  unfold fracPadding fracPlan
  rw [if_neg hnot]
  split
  on_goal 1 => split
  all_goals
    rw [hlen _ (by dsimp only; omega)]
    dsimp only
    split <;> omega

include h

def FracWritten (d : Decimal) (frac : Nat) (fp : FracPlan) : Prop :=
  d.fracBytes frac fp ++ replicate (d.fracPadding frac fp) 0 = fieldsToBe (fracSizes frac) (d.fracFields frac)

theorem fracWritten_of_more (hmore : fieldSize d.fracCnt < fieldSize frac ∧ 0 < d.fracCnt % 9) :
    FracWritten d frac (d.fracPlan frac) := by
  have hcnt := wordCnt_eq h.fracCnt_le
  have hsize := fieldSize_eq frac
  have hsrc := fieldSize_eq d.fracCnt
  have hnot := not_truncated hfit
  unfold FracWritten
  by_cases hq : frac / 9 = d.fracCnt / 9
  · -- the trailing digits become as many as there is room for
    have hplan : d.fracPlan frac = ⟨d.fracCnt / 9, frac % 9, fieldSize d.fracCnt, false⟩ := by
      rw [fracPlan, if_neg hnot, if_pos hmore, if_pos hq]
    have hpos : 0 < frac % 9 := by omega
    have hext : extendTrailing (dig2Bytes (frac % 9)) (frac % 9) (frac % 9 - frac % 9) (frac % 9) = frac % 9 :=
      extendTrailing_of_le le_rfl
    rw [hplan, h.fracBytes_of_eq (by omega)]
    simp only [fracBytes, fracPadding, trailingBytes, lt_irrefl, if_false, replicate_zero, append_nil,
      if_pos hpos, ← hq, hext]
  · -- they become a full word
    have hplan : d.fracPlan frac = ⟨d.fracCnt / 9 + 1, 0, fieldSize frac, false⟩ := by
      rw [fracPlan, if_neg hnot, if_pos hmore, if_neg hq]
    have hwords : wordCnt d.fracCnt = d.fracCnt / 9 + 1 := by omega
    rw [hplan, h.fracBytes_of_le (by omega), hwords]
    have hmin : min (fieldSize frac - fieldSize d.fracCnt) (fieldSize frac - (d.fracCnt / 9 + 1) * 4) =
        fieldSize frac - 4 * (d.fracCnt / 9 + 1) := by omega
    simp [fracBytes, fracPadding, trailingBytes, if_pos hmore.1, hmin]

theorem fracWritten_of_words (hk : d.KeptBy frac) (htrail : d.fracCnt % 9 = 0) :
    FracWritten d frac ⟨d.fracCnt / 9, d.fracCnt % 9, fieldSize frac, false⟩ := by
  have hcnt := wordCnt_eq h.fracCnt_le
  have hsize := fieldSize_eq frac
  have hsrc := fieldSize_eq d.fracCnt
  have hnot := not_truncated hfit
  have hwords : wordCnt d.fracCnt = d.fracCnt / 9 := by omega
  unfold FracWritten
  by_cases hfull : d.fracCnt / 9 ≤ frac / 9
  · rw [h.fracBytes_of_le (by omega), hwords]
    have hpad : (if fieldSize d.fracCnt < fieldSize frac then
        min (fieldSize frac - fieldSize d.fracCnt) (fieldSize frac - d.fracCnt / 9 * 4) else 0) =
        fieldSize frac - 4 * (d.fracCnt / 9) := by
      split <;> omega
    simp [fracBytes, fracPadding, trailingBytes, htrail, hpad]
  · -- the last word has more digits than there are, and is 0
    have hq : d.fracCnt / 9 = frac / 9 + 1 := by omega
    have hdig : dig2Bytes (frac % 9) = 4 := by
      rw [dig2Bytes_eq (by omega)]
      omega
    have hzero := hk.word_eq_zero h (by omega) (by omega)
    rw [h.fracBytes_of_eq (by omega), hdig, hzero, Nat.zero_div]
    have hsizes : ¬ fieldSize d.fracCnt < fieldSize frac := by omega
    simp only [fracBytes, fracPadding, trailingBytes, htrail, lt_irrefl, if_false, hsizes, append_nil, hq,
      replicate_zero, slice_add, replicate_add, fieldsToBe_append (show (replicate (frac / 9) 4).length =
        (d.slice (wordCnt d.intCnt) (frac / 9)).length by simp)]
    rw [slice_succ, hzero]
    rfl

theorem fracWritten_of_trailing (hk : d.KeptBy frac) (hpos : 0 < d.fracCnt % 9)
    (hsame : ¬ fieldSize d.fracCnt < fieldSize frac) :
    FracWritten d frac ⟨d.fracCnt / 9, d.fracCnt % 9, fieldSize frac, false⟩ := by
  have hcnt := wordCnt_eq h.fracCnt_le
  have hsize := fieldSize_eq frac
  have hsrc := fieldSize_eq d.fracCnt
  have hnot := not_truncated hfit
  have hwords : wordCnt d.fracCnt = d.fracCnt / 9 + 1 := by omega
  unfold FracWritten
  by_cases hq : frac / 9 = d.fracCnt / 9
  · rw [h.fracBytes_of_eq (by omega)]
    have hdig : dig2Bytes (d.fracCnt % 9) = dig2Bytes (frac % 9) := by
      rw [dig2Bytes_eq (by omega), dig2Bytes_eq (by omega)]
      omega
    simp only [fracBytes, fracPadding, trailingBytes, hsame, if_false, if_pos hpos, replicate_zero,
      append_nil, ← hq, lt_irrefl]
    rcases le_total (d.fracCnt % 9) (frac % 9) with hle | hge
    · rw [extendTrailing_eq_lim (by omega), hdig]
      intro j hj hlt
      rw [dig2Bytes_eq (by omega), dig2Bytes_eq (by omega)]
      omega
    · rw [extendTrailing_of_le hge, hdig]
      rcases lt_or_ge (frac % 9) (d.fracCnt % 9) with hlt | hge'
      · rw [hk.word_eq_zero h (by omega) (by omega), Nat.zero_div, Nat.zero_div]
      · rw [show d.fracCnt % 9 = frac % 9 by omega]
  · -- seven or eight digits in four bytes: with zeros, a full word
    have hq' : frac / 9 = d.fracCnt / 9 + 1 := by omega
    have hdig : dig2Bytes (d.fracCnt % 9) = 4 := by
      rw [dig2Bytes_eq (by omega)]
      omega
    rw [h.fracBytes_of_le (by omega), hwords]
    have hpad : fieldSize frac - 4 * (d.fracCnt / 9 + 1) = 0 := by omega
    simp only [fracBytes, fracPadding, trailingBytes, hsame, if_pos hpos, hq', Nat.lt_succ_self, if_true, hpad]
    rw [extendTrailing_eq_lim (by omega), hdig, Nat.pow_zero, slice_add,
      replicate_add, fieldsToBe_append (by simp), slice_succ]
    · simp [fieldsToBe]
    · intro j hj hlt
      rw [dig2Bytes_eq (by omega)]
      omega

/-- **The fraction takes all its bytes**, whatever the source's case: trailing digits taken in, a trailing part made a
full word, mask bytes after it. -/
theorem fracBytes_spec (hk : d.KeptBy frac) : FracWritten d frac (d.fracPlan frac) := by
  by_cases hmore : fieldSize d.fracCnt < fieldSize frac ∧ 0 < d.fracCnt % 9
  · exact fracWritten_of_more h hfit hmore
  have hplan : d.fracPlan frac = ⟨d.fracCnt / 9, d.fracCnt % 9, fieldSize frac, false⟩ := by
    rw [fracPlan, if_neg (not_truncated hfit), if_neg hmore]
  rw [hplan]
  rcases Nat.eq_zero_or_pos (d.fracCnt % 9) with htrail | hpos
  · exact fracWritten_of_words h hfit hk htrail
  · exact fracWritten_of_trailing h hfit hk hpos fun hlt => hmore ⟨hlt, hpos⟩

/-! ## The whole -/

theorem fracPlan_le : (d.fracPlan frac).trailingDigits ≤ 9 ∧ (d.fracPlan frac).wordCnt ≤ wordCnt d.fracCnt ∧
      (0 < (d.fracPlan frac).trailingDigits → (d.fracPlan frac).wordCnt < wordCnt d.fracCnt) := by
  have hcnt := wordCnt_eq h.fracCnt_le
  unfold fracPlan at hfit ⊢
  split at hfit
  · exact absurd hfit (by simp)
  rename_i hnot
  rw [if_neg hnot]
  split
  on_goal 1 => split
  all_goals exact ⟨by dsimp only; omega, by dsimp only; omega⟩

theorem writeBody_eq {intCnt : Nat} {isZero : Bool} (hzero : isZero = true → (d.removeLeadingZeroes d.intCnt).2 = 0)
    (hint : (d.intPlan intCnt isZero).overflow = false) :
    writeBody d negative intCnt frac (d.intPlan intCnt isZero) (d.fracPlan frac) =
      signedCode negative (toBe (fieldSize intCnt) d.packedInt ++
        (d.fracBytes frac (d.fracPlan frac) ++ replicate (d.fracPadding frac (d.fracPlan frac)) 0)) := by
  obtain ⟨hidx, hbytes, -⟩ := intBytes_spec h hzero rfl hint
  obtain ⟨hdigits, hwords, htrail⟩ := fracPlan_le h hfit
  have hlead : (d.intPlan intCnt isZero).leadingDigits < 9 := by
    simp only [intPlan]
    split <;> split <;> exact Nat.mod_lt _ (Nat.succ_pos 8)
  generalize d.intPlan intCnt isZero = ip at *
  generalize d.fracPlan frac = fp at *
  -- the mask bytes and the leading digits
  have hstart : (if 0 < ip.leadingDigits then writeWord negative (writeMask negative ip.padding [])
      (d.word ip.start % 10 ^ ip.leadingDigits) (dig2Bytes ip.leadingDigits) else writeMask negative ip.padding []) =
      signedCode negative (d.intBytes ip) := by
    have hmask : writeMask negative ip.padding (signedCode negative []) = _ := writeMask_signedCode ip.padding []
    have hnil : signedCode negative [] = [] := by
      simp [signedCode, flipTop]
    rw [hnil, nil_append] at hmask
    rw [hmask]
    unfold intBytes
    by_cases hpos : 0 < ip.leadingDigits
    · rw [if_pos hpos, if_pos hpos]
      refine writeWord_signedCode ?_ ?_
      · calc d.word ip.start % 10 ^ ip.leadingDigits < 10 ^ ip.leadingDigits :=
              Nat.mod_lt _ (Nat.pow_pos (by decide))
          _ ≤ 10 ^ 9 := Nat.pow_le_pow_right (by decide) (by omega)
          _ < 2 ^ 32 := by decide
      · rw [dig2Bytes_eq (by omega)]
        omega
    · rw [if_neg hpos, if_neg hpos, append_nil]
  have hslice : ∀ w ∈ d.slice (firstWord ip) (ip.wordCnt + fp.wordCnt), w < 2 ^ 32 := fun w hw =>
    lt_of_lt_wordBase (h.slice_lt (by omega) w hw)
  have hword : 0 < fp.trailingDigits → d.word (firstWord ip + (ip.wordCnt + fp.wordCnt)) < wordBase :=
    fun hpos => h.word_lt_of_lt (by omega)
  have hout : d.intBytes ip ++ fieldsToBe (replicate (ip.wordCnt + fp.wordCnt) 4)
        (d.slice (firstWord ip) (ip.wordCnt + fp.wordCnt)) ++
        d.trailingBytes frac fp (firstWord ip + (ip.wordCnt + fp.wordCnt)) =
      toBe (fieldSize intCnt) d.packedInt ++ d.fracBytes frac fp := by
    rw [slice_add, replicate_add, fieldsToBe_append (by simp), ← add_assoc, hidx, ← hbytes, fracBytes]
    simp
  simp only [writeBody, hstart]
  rw [← firstWord, writeWords_signedCode _ _ _ hslice, writeTrailing_signedCode hdigits hword, hout,
    fracPadding]
  by_cases hpad : fieldSize d.fracCnt < fp.fracSize
  · rw [if_pos hpad, if_pos hpad, writeMask_signedCode, append_assoc, length_signedCode, length_append,
      length_toBe, Nat.add_sub_add_left]
  · rw [if_neg hpad, if_neg hpad, replicate_zero, append_nil]

omit h hfit

/-- The sign of a zero: the rest of the code never leaves one. -/
def NegativeZero (d : Decimal) : Prop := d.negative = true ∧ d.value = 0

theorem value_eq_zero_of_words (h : ∀ w ∈ d.intWords ++ d.fracWords, w = 0) : d.value = 0 := by
  have hzero : ∀ ws : List Nat, (∀ w ∈ ws, w = 0) → Nat.ofDigits wordBase ws = 0 := by
    intro ws hws
    induction ws with
    | nil => rfl
    | cons w ws ih =>
      rw [Nat.ofDigits_cons, hws w (by simp), ih fun v hv => hws v (mem_cons_of_mem w hv)]
      simp
  rw [value, hzero _ fun w hw => h w (mem_reverse.1 hw)]
  simp

structure Planned (d : Decimal) (intCnt frac : Nat) : Prop where
  int : (d.intPlan intCnt (decide ((d.removeLeadingZeroes d.intCnt).2 + fieldSize d.fracCnt = 0))).overflow = false
  frac : (d.fracPlan frac).truncated = false

theorem isZero_imp (h0 : decide ((d.removeLeadingZeroes d.intCnt).2 + fieldSize d.fracCnt = 0) = true) :
    (d.removeLeadingZeroes d.intCnt).2 = 0 := by
  have := of_decide_eq_true h0
  omega

variable {prec frac : UInt8} {bytes : Bytes}

theorem planned_of_writeDecimal (hw : writeDecimal d prec frac = (bytes, .ok)) :
    d.Planned (prec - frac).toNat frac.toNat := by
  unfold writeDecimal at hw
  simp only [Prod.mk.injEq] at hw
  obtain ⟨-, hres⟩ := hw
  have htrunc : (d.fracPlan frac.toNat).truncated = false := by
    cases ht : (d.fracPlan frac.toNat).truncated with
    | false => rfl
    | true => simp [ht] at hres
  refine ⟨?_, htrunc⟩
  rw [htrunc] at hres
  simpa using hres

section

variable (h : d.WellFormed)
include h

section

variable (hw : writeDecimal d prec frac = (bytes, .ok))
include hw

theorem writeDecimal_eq :
    bytes = prec :: frac ::
      signedCode (d.negative && !decide ((d.removeLeadingZeroes d.intCnt).2 + fieldSize d.fracCnt = 0))
        (toBe (fieldSize (prec - frac).toNat) d.packedInt ++ (d.fracBytes frac.toNat (d.fracPlan frac.toNat) ++
          replicate (d.fracPadding frac.toNat (d.fracPlan frac.toNat)) 0)) := by
  have hplan := planned_of_writeDecimal hw
  unfold writeDecimal at hw
  simp only [Prod.mk.injEq] at hw
  rw [← hw.1, writeBody_eq h hplan.frac isZero_imp hplan.int]

theorem length_writeDecimal :
    bytes.length = fieldSize (prec - frac).toNat + fieldSize frac.toNat + 2 := by
  have hlen := length_fraction (planned_of_writeDecimal hw).frac
  rw [writeDecimal_eq h hw, length_cons, length_cons, length_signedCode, length_append, length_toBe,
    length_append, length_replicate, hlen]

end

theorem mask_eq (hz : ¬ d.NegativeZero) :
    (d.negative && !decide ((d.removeLeadingZeroes d.intCnt).2 + fieldSize d.fracCnt = 0)) = d.negative := by
  by_cases h0 : (d.removeLeadingZeroes d.intCnt).2 + fieldSize d.fracCnt = 0
  · have hnonneg : d.negative = false := by
      rw [← Bool.not_eq_true]
      intro hneg
      refine hz ⟨hneg, value_eq_zero_of_words fun w hw => ?_⟩
      obtain ⟨hskipped, hfound⟩ := removeLeadingZeroes_spec h
      have hsize := fieldSize_eq d.fracCnt
      have hcnt := wordCnt_eq h.fracCnt_le
      have hno : d.fracWords = [] := by
        rw [h.fracWords_eq, show wordCnt d.fracCnt = 0 by omega]
        rfl
      rw [hno, append_nil, h.intWords_eq] at hw
      obtain ⟨j, hj, rfl⟩ := mem_map.1 hw
      rw [mem_range'_1] at hj
      rcases hfound with heq | ⟨start, left, c, heq, -, hc, -, -⟩
      · rw [heq] at hskipped
        exact hskipped j (by omega)
      rw [heq] at h0
      omega
    rw [hnonneg, Bool.false_and]
  · rw [decide_eq_false h0, Bool.not_false, Bool.and_true]

theorem writeDecimal_eq_of_kept (hw : writeDecimal d prec frac = (bytes, .ok))
    (hk : d.KeptBy frac.toNat) (hz : ¬ d.NegativeZero) :
    bytes = prec :: frac :: signedCode d.negative (toBe (fieldSize (prec - frac).toNat) d.packedInt ++
      fieldsToBe (fracSizes frac.toNat) (d.fracFields frac.toNat)) := by
  have hfrac : _ = fieldsToBe _ _ := fracBytes_spec h (planned_of_writeDecimal hw).frac hk
  rw [writeDecimal_eq h hw, mask_eq h hz, hfrac]

end

end Decimal

end Mysql
end Tikv
