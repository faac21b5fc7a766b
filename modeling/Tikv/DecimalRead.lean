import Tikv.DecimalWrite
/-!
# DecimalRead — what `read_decimal` makes of bytes

Two views of the reader.  Whatever it accepts is a decimal whose words and digits are as its counts say, but for one digit
more in the first word, which the check of the leading digits lets through (`fits_of_readDecimal`).  And fields written
by the writer are read back as they were written, the sign taken from the first byte (`readParts_code`).
-/
namespace Tikv
namespace Mysql

open Lib List Parts Nat

/-! ## The words that are kept -/

/-- The integer part so far, with `left` full words still to come: no word yet, or a first word within its digits. -/
def Parts.IntOk (slack left : Nat) (s : Parts) : Prop :=
  s.words = [] ∧ s.intCnt = 9 * left ∨
    ∃ w ws c, s.words = w :: ws ∧ s.intCnt = 9 * (left + ws.length) + c ∧ 1 ≤ c ∧ c ≤ 9 ∧ w < 10 ^ (c + slack) ∧
      ∀ v ∈ w :: ws, v < wordBase

variable {slack : Nat} {s : Parts} {w : Nat}

theorem Parts.intOk_keepInt (left : Nat) (h : s.IntOk slack (left + 1)) (hw : w < wordBase) :
    (s.keepInt 9 w).IntOk slack left := by
  unfold keepInt
  rcases h with ⟨hnil, hcnt⟩ | ⟨v, ws, c, hwords, hcnt, hc, hc', hv, hall⟩
  · by_cases h0 : w = 0
    · rw [if_neg (by simp [hnil, h0])]
      exact .inl ⟨hnil, by simp only; omega⟩
    rw [if_pos (.inr h0)]
    refine .inr ⟨w, [], 9, by simp [hnil], by simp only [length_nil]; omega, by decide, by decide, ?_, ?_⟩
    · exact lt_of_lt_of_le hw (Nat.pow_le_pow_right (by decide) (by omega))
    · exact forall_mem_singleton.2 hw
  · rw [if_pos (.inl (by simp [hwords]))]
    refine .inr ⟨v, ws ++ [w], c, by simp [hwords], ?_, hc, hc', hv, ?_⟩
    · simp only [length_append, length_singleton]
      omega
    · exact forall_mem_append.2 ⟨hall, forall_mem_singleton.2 hw⟩

theorem Parts.intOk_foldl : ∀ {ws : List Nat} {left : Nat} {s : Parts}, s.IntOk slack (left + ws.length) →
    (∀ w ∈ ws, w < wordBase) → (ws.foldl (keepInt 9) s).IntOk slack left
  | [], _, _, h, _ => h
  | w :: ws, left, s, h, hws => by
    have hstep := intOk_keepInt (left + ws.length) h (hws w (by simp))
    rw [foldl_cons]
    exact intOk_foldl hstep fun v hv => hws v (mem_cons_of_mem w hv)

variable {digits : Nat}

theorem Parts.intOk_leading (left : Nat) (hpos : 0 < digits) (hle : digits ≤ 8) (hslack : slack ≤ 1)
    (hw : w < 10 ^ (digits + slack)) :
    (keepInt digits { words := [], intCnt := 9 * left + digits } w).IntOk slack left := by
  unfold keepInt
  by_cases h0 : w = 0
  · rw [if_neg (by simp [h0])]
    exact .inl ⟨rfl, by simp only; omega⟩
  rw [if_pos (.inr h0)]
  refine .inr ⟨w, [], digits, rfl, by simp, hpos, by omega, hw, forall_mem_singleton.2 ?_⟩
  exact lt_of_lt_of_le hw (Nat.pow_le_pow_right (by decide) (by omega))

theorem Parts.keepInt_intCnt_le (digits : Nat) (s : Parts) (w : Nat) : (s.keepInt digits w).intCnt ≤ s.intCnt := by
  unfold keepInt
  split
  · exact le_rfl
  · exact sub_le _ _

theorem Parts.foldl_intCnt_le : ∀ (ws : List Nat) (s : Parts), (ws.foldl (keepInt 9) s).intCnt ≤ s.intCnt
  | [], _ => le_rfl
  | w :: ws, s => le_trans (foldl_intCnt_le ws (s.keepInt 9 w)) (keepInt_intCnt_le 9 s w)

theorem Parts.IntOk.wordCnt_eq (h : s.IntOk slack 0) (hle : s.intCnt ≤ 81) :
    wordCnt s.intCnt = s.words.length := by
  rw [Mysql.wordCnt_eq hle]
  rcases h with ⟨hnil, hcnt⟩ | ⟨w, ws, c, hwords, hcnt, hc, hc', -, -⟩
  · rw [hnil, hcnt]
    rfl
  rw [hwords, length_cons]
  omega

def Parts.withFrac (s : Parts) (ws : List Nat) : Parts := { words := s.words ++ ws, intCnt := s.intCnt }

theorem Parts.foldl_keepFrac : ∀ (ws : List Nat) (s : Parts), ws.foldl keepFrac s = s.withFrac ws
  | [], s => by simp [withFrac]
  | w :: ws, s => by
    rw [foldl_cons, foldl_keepFrac ws]
    simp [keepFrac, withFrac]

/-! ## The decimal with these words -/

theorem Decimal.zero_fits (slack : Nat) : Decimal.zero.Fits slack where
  length := rfl
  some_word := by decide
  words_le := by decide
  word_lt := by decide
  head_lt := by
    intro w hw
    have h0 : w = 0 := by simpa [Decimal.intWords, Decimal.zero, wordCnt] using hw.symm
    rw [h0]
    exact Nat.pow_pos (by decide)
  last_dvd := by
    intro w hw
    simp [Decimal.fracWords, Decimal.zero, wordCnt] at hw

section

variable {slack fracCnt : Nat} {s : Parts} {iw fw : List Nat} (hwords : s.words = iw ++ fw)
  (hint : Parts.IntOk slack 0 { words := iw, intCnt := s.intCnt }) (hlen : fw.length = wordCnt fracCnt)
  (hle : wordCnt s.intCnt + wordCnt fracCnt ≤ 9) (hsome : ¬ (s.intCnt = 0 ∧ fracCnt = 0)) {t : Parts} {r r' : Reader}
  {negative : Bool}

include hwords hint hlen hle hsome

theorem Parts.toDecimal_words (negative : Bool) :
    (s.toDecimal negative fracCnt).intWords = iw ∧ (s.toDecimal negative fracCnt).fracWords = fw ∧
      (s.toDecimal negative fracCnt).wordBuf.length = 9 := by
  have hcnt := hint.wordCnt_eq (le_of_wordCnt_le (le_trans (le_add_right _ _) hle))
  simp only at hcnt
  have hfw : (fw ++ replicate (9 - s.words.length) 0).take (wordCnt fracCnt) = fw := by
    rw [← hlen, take_left]
  have hlength : (iw ++ fw).length ≤ 9 := by
    rw [length_append]
    omega
  simp only [toDecimal, if_neg hsome, Decimal.intWords, Decimal.fracWords]
  refine ⟨?_, ?_, ?_⟩
  · rw [hcnt, hwords, append_assoc, take_left]
  · rw [hcnt, hwords, append_assoc, drop_left, ← hwords, hfw]
  · rw [length_append, length_replicate, hwords]
    omega

theorem Parts.toDecimal_fits (negative : Bool) (hfw : ∀ w ∈ fw, w < wordBase)
    (hlast : ∀ w ∈ fw.getLast?, 10 ^ (9 * wordCnt fracCnt - fracCnt) ∣ w) :
    (s.toDecimal negative fracCnt).Fits slack := by
  obtain ⟨hiw, hfracWords, hbuf⟩ := toDecimal_words hwords hint hlen hle hsome negative
  have hsmall := le_of_wordCnt_le (le_trans (le_add_right _ _) hle)
  have hintCnt : (s.toDecimal negative fracCnt).intCnt = s.intCnt := by
    rw [toDecimal, if_neg hsome]
  have hfracCnt : (s.toDecimal negative fracCnt).fracCnt = fracCnt := by
    rw [toDecimal, if_neg hsome]
  refine ⟨hbuf, ?_, ?_, ?_, ?_, ?_⟩
  · have hf := Mysql.wordCnt_eq (le_of_wordCnt_le (le_trans (le_add_left _ _) hle))
    have hi := Mysql.wordCnt_eq hsmall
    rw [hintCnt, hfracCnt]
    omega
  · rw [hintCnt, hfracCnt]
    exact hle
  · rw [hiw, hfracWords]
    refine forall_mem_append.2 ⟨?_, hfw⟩
    obtain ⟨rfl, -⟩ | ⟨v, ws, c, rfl, -, -, -, -, hall⟩ := hint
    · exact forall_mem_nil _
    · exact hall
  · rw [hiw, hintCnt]
    obtain ⟨rfl, -⟩ | ⟨v, ws, c, rfl, hcnt, hc, hc', hv, -⟩ := hint
    · exact nofun
    · rintro _ ⟨⟩
      rwa [show (s.intCnt + 8) % 9 + 1 = c by simp only at hcnt; omega]
  · rw [hfracWords, hfracCnt]
    exact hlast

end

/-! ## What is accepted -/

theorem readWords_inv {σ : Type} {e : DecimalError} {keep : σ → Nat → σ} :
    ∀ {n : Nat} {s t : σ} {r r' : Reader}, readWords negative e keep n s r = .ok (t, r') →
      ∃ ws : List Nat, ws.length = n ∧ (∀ w ∈ ws, w < wordBase) ∧ t = ws.foldl keep s
  | 0, s, t, r, r', h => by
    cases h
    exact ⟨[], rfl, by simp, rfl⟩
  | n + 1, s, t, r, r', h => by
    rw [readWords] at h
    split at h
    · cases h
    split at h
    · cases h
    · obtain ⟨ws, hlen, hws, ht⟩ := readWords_inv h
      exact ⟨_ :: ws, by simp [hlen], forall_mem_cons.2 ⟨by omega, hws⟩, ht⟩

theorem readLeading_inv (h : readLeading negative digits s r = .ok (t, r')) :
    digits = 0 ∧ t = s ∨ 0 < digits ∧ ∃ w < 10 ^ (digits + 1), t = s.keepInt digits w := by
  unfold readLeading at h
  split at h
  · split at h
    · cases h
    split at h
    · cases h
    · cases h
      exact .inr ⟨‹_›, _, by omega, rfl⟩
  · cases h
    exact .inl ⟨by omega, rfl⟩

theorem readTrailing_inv (h : readTrailing negative digits s r = .ok (t, r')) :
    digits = 0 ∧ t = s ∨ 0 < digits ∧ ∃ x, x * 10 ^ (9 - digits) < wordBase ∧ t = s.keepFrac (x * 10 ^ (9 - digits)) := by
  unfold readTrailing at h
  split at h
  · split at h
    · cases h
    dsimp only at h
    split at h
    · rename_i hsmall
      cases h
      exact .inr ⟨‹_›, _, hsmall.2, rfl⟩
    · cases h
  · cases h
    exact .inl ⟨by omega, rfl⟩

theorem readParts_inv {intCnt fracCnt : Nat} (h : readParts negative intCnt fracCnt r = .ok (t, r')) :
    ∃ iw fw, t.words = iw ++ fw ∧ Parts.IntOk 1 0 { words := iw, intCnt := t.intCnt } ∧ t.intCnt ≤ intCnt ∧
      fw.length = (fracCnt + 8) / 9 ∧ (∀ w ∈ fw, w < wordBase) ∧
      ∀ w ∈ fw.getLast?, 10 ^ (9 * ((fracCnt + 8) / 9) - fracCnt) ∣ w := by
  unfold readParts at h
  split at h
  · cases h
  rename_i s₁ r₁ h₁
  split at h
  · cases h
  rename_i h₂
  split at h
  · cases h
  rename_i h₃
  obtain ⟨ws, hlen, hws, rfl⟩ := readWords_inv h₂
  obtain ⟨fs, hflen, hfs, rfl⟩ := readWords_inv h₃
  have hstart : s₁.IntOk 1 (intCnt / 9) ∧ s₁.intCnt ≤ intCnt := by
    rcases readLeading_inv h₁ with ⟨h0, rfl⟩ | ⟨hpos, w, hw, rfl⟩
    · exact ⟨.inl ⟨rfl, by simp only; omega⟩, le_rfl⟩
    have hok := intOk_leading (intCnt / 9) hpos (by omega) (le_refl 1) hw
    rw [div_add_mod] at hok
    exact ⟨hok, keepInt_intCnt_le _ _ _⟩
  have hint : (ws.foldl (keepInt 9) s₁).IntOk 1 0 :=
    intOk_foldl (by rw [zero_add, hlen]; exact hstart.1) hws
  have hcnt := le_trans (foldl_intCnt_le ws s₁) hstart.2
  generalize ws.foldl (keepInt 9) s₁ = s₂ at *
  rw [foldl_keepFrac] at h
  rcases readTrailing_inv h with ⟨h0, rfl⟩ | ⟨hpos, x, hx, rfl⟩
  · refine ⟨s₂.words, fs, rfl, hint, hcnt, by omega, hfs, fun w _ => ?_⟩
    rw [show 9 * ((fracCnt + 8) / 9) - fracCnt = 0 by omega]
    exact one_dvd w
  · refine ⟨s₂.words, fs ++ [x * 10 ^ (9 - fracCnt % 9)], by simp [keepFrac, withFrac], hint, hcnt, ?_,
      forall_mem_append.2 ⟨hfs, forall_mem_singleton.2 hx⟩, ?_⟩
    · rw [length_append, length_singleton]
      omega
    · rw [show 9 * ((fracCnt + 8) / 9) - fracCnt = 9 - fracCnt % 9 by omega, getLast?_concat]
      rintro _ ⟨⟩
      exact dvd_mul_left _ _

theorem wordTo_eq : wordTo digits = (digits + 8) / 9 := by
  unfold wordTo
  split <;> omega

theorem fixWordCntErr_eq_ok {m n : Nat} : fixWordCntErr m n = .ok ↔ m + n ≤ 9 := by
  unfold fixWordCntErr
  by_cases h : 9 < m + n
  · by_cases h' : 9 < m <;> simp [h']
  simp
  omega

theorem readDecimal_inv {bytes rest : Bytes} {d : Decimal} (h : readDecimal bytes = .ok (d, rest)) :
    ∃ (prec frac first : UInt8) (tail : Bytes), ∃ s r, (prec.toNat - frac.toNat + 8) / 9 + (frac.toNat + 8) / 9 ≤ 9 ∧
      readParts (decide (first &&& 0x80 = 0)) (prec.toNat - frac.toNat) frac.toNat
        { isFirst := true, rest := first :: tail } = .ok (s, r) ∧
      d = s.toDecimal (decide (first &&& 0x80 = 0)) frac.toNat := by
  match bytes, h with
  | prec :: frac :: first :: tail, h =>
    rw [readDecimal] at h
    dsimp only at h
    split at h
    · cases h
    split at h
    · rename_i hres
      rw [fixWordCntErr_eq_ok, wordTo_eq, wordTo_eq] at hres
      split at h
      · cases h
      · cases h
        exact ⟨prec, frac, first, tail, _, _, hres, ‹_›, rfl⟩
    · cases h

/-- **Whatever `read_decimal` accepts**: words below `10 ^ 9`, at least one and at most nine of them, no digits outside the
fraction's count, and at most one digit outside the integer part's. -/
theorem fits_of_readDecimal {bytes rest : Bytes} {d : Decimal} (h : readDecimal bytes = .ok (d, rest)) : d.Fits 1 := by
  obtain ⟨prec, frac, first, tail, s, r, hsum, hp, rfl⟩ := readDecimal_inv h
  obtain ⟨iw, fw, hs, hint, hcnt, hlen, hfw, hlast⟩ := readParts_inv hp
  by_cases hsome : s.intCnt = 0 ∧ frac.toNat = 0
  · rw [toDecimal, if_pos hsome]
    exact Decimal.zero_fits 1
  have hfrac := wordCnt_eq (n := frac.toNat) (by omega)
  have hintw := wordCnt_eq (n := s.intCnt) (by omega)
  refine toDecimal_fits hs hint (by rw [hlen, hfrac]) (by omega) hsome _ hfw ?_
  rw [hfrac]
  exact hlast

/-! ## What was written is read back -/

def codeReader (negative first : Bool) (u rest : Bytes) : Reader :=
  { isFirst := first, rest := (if first then signedCode negative u else maskBytes negative u) ++ rest }

theorem flipTop_flipTop (u : Bytes) : flipTop (flipTop u) = u := by
  cases u with
  | nil => rfl
  | cons b u => rw [flipTop, flipTop, UInt8.xor_assoc, UInt8.xor_self, UInt8.xor_zero]

theorem top_bit_iff {u : Bytes} (h : u ≠ []) : 128 ≤ (u.headD 0).toNat ↔ 256 ^ u.length ≤ 2 * ofBe u := by
  obtain ⟨b, u, rfl⟩ := exists_cons_of_ne_nil h
  have hlt := ofBe_lt u
  rw [headD_cons, ofBe_cons, length_cons]
  constructor
  · intro hb
    have := mul_le_mul_right (256 ^ u.length) hb
    omega
  · by_contra hb
    have := mul_le_mul_right (256 ^ u.length) (show b.toNat + 1 ≤ 128 by omega)
    rw [add_mul] at this
    omega

variable (negative first : Bool) (s : Parts) (tail rest : Bytes)

theorem readWord_code {size v : Nat} (hpos : 1 ≤ size) (hle : size ≤ 4) (hv : 2 * v < 256 ^ size) :
    ∃ raw, readWord size (codeReader negative first (toBe size v ++ tail) rest) =
      .ok (raw, codeReader negative false tail rest) ∧ xorMask negative raw = v := by
  have hlen : (maskBytes negative (toBe size v)).length = size := by simp
  have hne : maskBytes negative (toBe size v) ≠ [] := ne_nil_of_length_pos (by omega)
  have hread : readWord size (codeReader negative first (toBe size v ++ tail) rest) =
      .ok (if 128 ≤ ((maskBytes negative (toBe size v)).headD 0).toNat then
          ofBe (maskBytes negative (toBe size v)) + (2 ^ 32 - 256 ^ size) else ofBe (maskBytes negative (toBe size v)),
        codeReader negative false tail rest) := by
    unfold readWord codeReader signedCode
    rw [maskBytes_append, flipTop_append hne]
    generalize maskBytes negative (toBe size v) = u at *
    subst hlen
    cases first <;> simp [flipTop_flipTop]
  have hpow : 256 ^ size ≤ 2 ^ 32 := by
    calc 256 ^ size ≤ 256 ^ 4 := Nat.pow_le_pow_right (by decide) hle
      _ = 2 ^ 32 := by decide
  refine ⟨_, hread, ?_⟩
  -- the sign extension turns the complement of the field into the complement of the word
  cases negative with
  | false =>
    have hnum : ofBe (maskBytes false (toBe size v)) = v := by
      rw [show maskBytes false (toBe size v) = toBe size v from rfl, ofBe_toBe, mod_eq_of_lt (by omega)]
    rw [if_neg (by rw [top_bit_iff hne, hlen]; omega), hnum]
    rfl
  | true =>
    have hcompl := ofBe_complement (toBe size v)
    rw [ofBe_toBe, mod_eq_of_lt (by omega), length_toBe] at hcompl
    have hnum : ofBe (maskBytes true (toBe size v)) + v + 1 = 256 ^ size := hcompl
    have heven : 256 ^ size = 256 ^ (size - 1) * 256 := by
      rw [← Nat.pow_succ, succ_eq_add_one, Nat.sub_add_cancel hpos]
    rw [if_pos (by rw [top_bit_iff hne, hlen]; omega)]
    simp only [xorMask, if_true]
    omega

theorem readWords_code {σ : Type} (e : DecimalError) (keep : σ → Nat → σ) :
    ∀ (ws : List Nat) (s : σ) (first : Bool), (∀ w ∈ ws, w < wordBase) → ∃ first', readWords negative e keep ws.length s
      (codeReader negative first (fieldsToBe (List.replicate ws.length 4) ws ++ tail) rest) =
        .ok (ws.foldl keep s, codeReader negative first' tail rest)
  | [], s, first, _ => ⟨first, rfl⟩
  | w :: ws, s, first, h => by
    have hw : w < wordBase := h w (by simp)
    have hv : 2 * w < 256 ^ 4 := by
      have : 2 * wordBase < 256 ^ 4 := by decide
      omega
    obtain ⟨raw, hraw, hxor⟩ := readWord_code negative first (fieldsToBe (replicate ws.length 4) ws ++ tail) rest (by decide)
      (by decide) hv
    obtain ⟨first', hrest⟩ := readWords_code e keep ws (keep s w) false
      fun v hv => h v (mem_cons_of_mem w hv)
    refine ⟨first', ?_⟩
    rw [length_cons, replicate_succ, fieldsToBe, append_assoc, readWords, hraw]
    simp only [hxor, if_neg (not_le.2 hw)]
    exact hrest

theorem two_mul_lt_of_lt_pow {v : Nat} (hpos : 1 ≤ digits) (hle : digits ≤ 9) (hv : v < 10 ^ digits) :
    2 * v < 256 ^ dig2Bytes digits := by
  have := two_mul_ten_pow_le hpos hle
  omega

theorem dig2Bytes_bounds (hpos : 1 ≤ digits) (hle : digits ≤ 9) : 1 ≤ dig2Bytes digits ∧ dig2Bytes digits ≤ 4 := by
  rw [dig2Bytes_eq hle]
  omega

theorem readLeading_code {lead : Nat} (hle : digits ≤ 8) (hlead : lead < 10 ^ digits) :
    ∃ first', readLeading negative digits s (codeReader negative first (toBe (dig2Bytes digits) lead ++ tail) rest) =
      .ok (if 0 < digits then s.keepInt digits lead else s, codeReader negative first' tail rest) := by
  unfold readLeading
  by_cases hpos : 0 < digits
  · obtain ⟨h1, h4⟩ := dig2Bytes_bounds hpos (by omega)
    obtain ⟨raw, hraw, hxor⟩ := readWord_code negative first tail rest h1 h4 (two_mul_lt_of_lt_pow hpos (by omega) hlead)
    have hsmall : lead < 10 ^ (digits + 1) := lt_of_lt_of_le hlead (Nat.pow_le_pow_right (by decide) (by omega))
    rw [if_pos hpos, if_pos hpos, hraw]
    simp [hxor, if_neg (not_le.2 hsmall)]
  · have h0 : digits = 0 := by omega
    subst h0
    exact ⟨first, rfl⟩

theorem readTrailing_code {t : Nat} (hle : digits ≤ 8) (ht : t < 10 ^ digits) :
    ∃ r, readTrailing negative digits s (codeReader negative first (toBe (dig2Bytes digits) t) rest) =
      .ok (if 0 < digits then s.keepFrac (t * 10 ^ (9 - digits)) else s, r) ∧ r.rest = rest := by
  unfold readTrailing
  by_cases hpos : 0 < digits
  · obtain ⟨h1, h4⟩ := dig2Bytes_bounds hpos (by omega)
    obtain ⟨raw, hraw, hxor⟩ := readWord_code negative first [] rest h1 h4 (two_mul_lt_of_lt_pow hpos (by omega) ht)
    have hsmall : t * 10 ^ (9 - digits) < wordBase := by
      calc t * 10 ^ (9 - digits) < 10 ^ digits * 10 ^ (9 - digits) :=
            mul_lt_mul_of_pos_right ht (Nat.pow_pos (by decide))
        _ = 10 ^ 9 := by rw [← pow_add, Nat.add_sub_cancel' (by omega)]
    rw [append_nil] at hraw
    refine ⟨codeReader negative false [] rest, ?_, by simp [codeReader]⟩
    rw [if_pos hpos, if_pos hpos, hraw]
    simp only [hxor, if_pos (show t * 10 ^ (9 - digits) < 2 ^ 32 ∧ t * 10 ^ (9 - digits) < wordBase from
      ⟨lt_of_lt_wordBase hsmall, hsmall⟩)]
  · have h0 : digits = 0 := by omega
    subst h0
    cases first <;> simp [codeReader, dig2Bytes, toBe, signedCode, flipTop]

def intParts (digits lead : Nat) (ws : List Nat) : Parts :=
  ws.foldl (Parts.keepInt 9)
    (if 0 < digits then Parts.keepInt digits { words := [], intCnt := 9 * ws.length + digits } lead
    else { words := [], intCnt := 9 * ws.length + digits })

def trailingWord (digits t : Nat) : List Nat := if 0 < digits then [t * 10 ^ (9 - digits)] else []

theorem readParts_code {lead digits' t : Nat} {ws fs : List Nat} (hdigits : digits ≤ 8) (hlead : lead < 10 ^ digits)
    (hws : ∀ w ∈ ws, w < wordBase) (hfs : ∀ w ∈ fs, w < wordBase) (hdigits' : digits' ≤ 8) (ht : t < 10 ^ digits') :
    ∃ r, readParts negative (9 * ws.length + digits) (9 * fs.length + digits')
        (codeReader negative true (toBe (dig2Bytes digits) lead ++ (fieldsToBe (List.replicate ws.length 4) ws ++
          (fieldsToBe (List.replicate fs.length 4) fs ++ toBe (dig2Bytes digits') t))) rest) =
      .ok ((intParts digits lead ws).withFrac (fs ++ trailingWord digits' t), r) ∧ r.rest = rest := by
  have hmod : (9 * ws.length + digits) % 9 = digits := by omega
  have hdiv : (9 * ws.length + digits) / 9 = ws.length := by omega
  have hmod' : (9 * fs.length + digits') % 9 = digits' := by omega
  have hdiv' : (9 * fs.length + digits') / 9 = fs.length := by omega
  obtain ⟨first₁, h₁⟩ := readLeading_code negative true { words := [], intCnt := 9 * ws.length + digits }
    (fieldsToBe (replicate ws.length 4) ws ++ (fieldsToBe (replicate fs.length 4) fs ++ toBe (dig2Bytes digits') t)) rest
    hdigits hlead
  obtain ⟨first₂, h₂⟩ := readWords_code negative (fieldsToBe (replicate fs.length 4) fs ++ toBe (dig2Bytes digits') t)
    rest .intPart (keepInt 9) ws
    (if 0 < digits then keepInt digits { words := [], intCnt := 9 * ws.length + digits } lead
    else { words := [], intCnt := 9 * ws.length + digits }) first₁ hws
  obtain ⟨first₃, h₃⟩ := readWords_code negative (toBe (dig2Bytes digits') t) rest .fracPart keepFrac fs
    (intParts digits lead ws) first₂ hfs
  obtain ⟨r, h₄, hr⟩ := readTrailing_code negative first₃ (fs.foldl keepFrac (intParts digits lead ws)) rest hdigits' ht
  refine ⟨r, ?_, hr⟩
  unfold readParts
  rw [hmod, hdiv, hmod', hdiv', h₁]
  simp only [h₂]
  rw [← intParts]
  simp only [h₃, h₄]
  rw [foldl_keepFrac, trailingWord]
  by_cases hpos : 0 < digits' <;> simp [hpos, keepFrac, withFrac]

/-! ### The sign -/

variable {negative}

theorem sign_of_code {u : Bytes} (hne : u ≠ []) (hu : 2 * ofBe u < 256 ^ u.length) :
    decide ((signedCode negative u).headD 0 &&& 0x80 = 0) = negative := by
  have hcode := ofBe_signedCode hne hu negative
  have htop := top_bit_iff (signedCode_ne_nil negative hne)
  rw [length_signedCode] at htop
  cases negative with
  | false =>
    rw [if_neg (by decide)] at hcode
    rw [decide_eq_false_iff_not, and_top_bit_eq_zero_iff]
    omega
  | true =>
    rw [if_pos rfl] at hcode
    rw [decide_eq_true_iff, and_top_bit_eq_zero_iff]
    omega

end Mysql
end Tikv
