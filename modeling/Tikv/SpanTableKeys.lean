import Tikv.SpanDiscover
import Tikv.LibMemcmp
import Mathlib.Data.Nat.Digits.Lemmas
/-!
# SpanTableKeys — the keys that a table's span holds (`span_ctl/resolver.rs`, `registry.rs`)

The span of table `a` ends where the keys of table `a + 1` begin, and both ids are written in decimal.  Two ids with as
many digits compare as numbers; since `_` is above the digits, a shorter id is above the longer ones that it begins
(`idKey_lt_iff_of_lt`).  So the span is empty when `a + 1` has one digit more, and else it holds the tables whose ids
begin with `a + 1` (`spans_partition_iff`).
-/
namespace Tikv
namespace Span

open Lib List Nat

def ReplicationSpan.containsKey (span : ReplicationSpan) (key : Bytes) : Bool :=
  decide (span.startKey ≤ key) && decide (key < span.endKey)

/-- The spans are in no particular order. -/
def SpanRegistry.findByKey (reg : SpanRegistry) (key : Bytes) : Option ReplicationSpan :=
  (reg.spans.entries.map Sigma.snd).find? (·.containsKey key)

/-! ## Decimal ids -/

def idKey (n : Nat) : Bytes := decimal n ++ [0x5f]

def digitCount (n : Nat) : Nat := (decimal n).length

variable {m n : Nat}

theorem length_idKey : (idKey n).length = digitCount n + 1 := by
  simp [idKey, digitCount]

theorem digitCount_eq (n : Nat) : digitCount n = log 10 n + 1 := by
  unfold digitCount decimal
  split
  · rename_i hn
    simp [hn]
  · rename_i hn
    simp [length_digits 10 n (by decide) hn]

theorem decimal_of_lt (h : n < 10) : decimal n = [UInt8.ofNat (48 + n)] := by
  interval_cases n <;> decide

theorem decimal_of_le (h : 10 ≤ n) : decimal n = decimal (n / 10) ++ [UInt8.ofNat (48 + n % 10)] := by
  unfold decimal
  rw [if_neg (by omega), if_neg (by omega), digits_def' (by decide) (by omega), reverse_cons, map_append]
  rfl

theorem digit_lt_iff {c d : Nat} (hc : c < 10) (hd : d < 10) : UInt8.ofNat (48 + c) < UInt8.ofNat (48 + d) ↔ c < d := by
  rw [UInt8.lt_iff_toNat_lt, UInt8.toNat_ofNat', UInt8.toNat_ofNat']
  omega

theorem digitCount_of_le (h : 10 ≤ n) : digitCount n = digitCount (n / 10) + 1 := by
  rw [digitCount, decimal_of_le h, length_append]
  rfl

theorem decimal_lt_iff : ∀ {len m n : Nat}, digitCount m = len + 1 → digitCount n = len + 1 →
    (decimal m < decimal n ↔ m < n) := by
  intro len
  induction len with
  | zero =>
    intro m n hm hn
    rw [digitCount_eq, add_eq_right, log_eq_zero_iff] at hm hn
    have hm : m < 10 := by omega
    have hn : n < 10 := by omega
    rw [decimal_of_lt hm, decimal_of_lt hn, cons_lt_cons_iff, digit_lt_iff hm hn]
    simp
  | succ len ih =>
    intro m n hm hn
    have hten : ∀ {k}, digitCount k = len + 1 + 1 → 10 ≤ k := by
      intro k hk
      by_contra hlt
      rw [digitCount, decimal_of_lt (by omega)] at hk
      simp at hk
    have hm10 := hten hm
    have hn10 := hten hn
    rw [digitCount_of_le hm10, add_right_cancel_iff] at hm
    rw [digitCount_of_le hn10, add_right_cancel_iff] at hn
    have heq : decimal (m / 10) = decimal (n / 10) ↔ m / 10 = n / 10 := by
      refine ⟨fun h => ?_, congrArg decimal⟩
      have hmn := ih hm hn
      have hnm := ih hn hm
      simp only [h, lt_irrefl, false_iff] at hmn hnm
      omega
    rw [decimal_of_le hm10, decimal_of_le hn10, append_lt_append_iff (hm.trans hn.symm), ih hm hn, heq, cons_lt_cons_iff,
      digit_lt_iff (by omega) (by omega)]
    simp
    omega

theorem decimal_split : ∀ (k : Nat) {n : Nat}, k < digitCount n →
    ∃ r, decimal n = decimal (n / 10 ^ k) ++ r ∧ r.length = k ∧ ∀ c ∈ r, c < 0x5f
  | 0, n, _ => ⟨[], by simp, rfl, by simp⟩
  | k + 1, n, h => by
    have hn : 10 ≤ n := by
      by_contra hlt
      rw [digitCount, decimal_of_lt (by omega)] at h
      simp at h
    rw [digitCount_of_le hn] at h
    obtain ⟨r, heq, hlen, hr⟩ := decimal_split k (n := n / 10) (by omega)
    refine ⟨r ++ [UInt8.ofNat (48 + n % 10)], ?_, by simp [hlen], forall_mem_append.2 ⟨hr, forall_mem_singleton.2 ?_⟩⟩
    · rw [decimal_of_le hn, heq, Nat.div_div_eq_div_mul, ← pow_succ', append_assoc]
    · have : (0x5f : UInt8).toNat = 95 := rfl
      rw [UInt8.lt_iff_toNat_lt, UInt8.toNat_ofNat']
      omega

theorem idKey_lt_iff_of_eq (h : digitCount m = digitCount n) : idKey m < idKey n ↔ m < n := by
  have hpos := digitCount_eq n
  rw [idKey, idKey, append_lt_append_iff h, decimal_lt_iff (h.trans hpos) hpos]
  simp

theorem idKey_lt_iff_of_lt (h : digitCount m < digitCount n) :
    idKey m < idKey n ↔ m < n / 10 ^ (digitCount n - digitCount m) := by
  have hpos := digitCount_eq m
  obtain ⟨r, heq, hlen, hr⟩ := decimal_split (digitCount n - digitCount m) (n := n) (by omega)
  have hcount : digitCount (n / 10 ^ (digitCount n - digitCount m)) = digitCount m := by
    have := congrArg length heq
    rw [length_append] at this
    unfold digitCount at *
    omega
  rw [idKey, idKey, heq, append_assoc, append_lt_append_iff hcount.symm, decimal_lt_iff hpos (hcount.trans hpos)]
  refine or_iff_left fun ⟨_, hlt⟩ => ?_
  cases r with
  | nil =>
    simp at hlen
    omega
  | cons c r =>
    have hc := hr c mem_cons_self
    rw [cons_append, cons_lt_cons_iff] at hlt
    rcases hlt with hlt | ⟨rfl, -⟩
    · exact lt_asymm hc hlt
    · exact lt_irrefl _ hc

/-! ## Spans -/

/-- The next id is an `i64` with as many digits. -/
def Roomy (a : Nat) : Prop := a + 1 < 2 ^ 63 ∧ digitCount (a + 1) = digitCount a

/-- The longer id `b`, or the one after it, begins with the digits of `a + 1`. -/
def Begins (a b : Nat) : Prop :=
  digitCount a < digitCount b ∧
    (b / 10 ^ (digitCount b - digitCount a) = a + 1 ∨ (b + 1) / 10 ^ (digitCount b - digitCount a) = a + 1)

def Covers (a : Nat) : Prop := ∀ key, formatKeyPrefix a <+: key → (makeSpanForTable a).containsKey key = true

def Apart (a b : Nat) : Prop :=
  ∀ key, ¬ ((makeSpanForTable a).containsKey key = true ∧ (makeSpanForTable b).containsKey key = true)

variable {a b : Nat}

theorem formatKeyPrefix_natCast : formatKeyPrefix n = [0x74, 0x5f] ++ idKey n := by
  simp [formatKeyPrefix, idKey]

theorem formatKeyPrefix_lt_iff : formatKeyPrefix m < formatKeyPrefix n ↔ idKey m < idKey n := by
  rw [formatKeyPrefix_natCast, formatKeyPrefix_natCast]
  simp

theorem formatKeyEnd_of_lt (h : a + 1 < 2 ^ 63) : formatKeyEnd a = formatKeyPrefix (a + 1 : Nat) := by
  have : ((a : Int) + 1).bmod (2 ^ 64) = (a + 1 : Nat) := by
    rw [Int.bmod_eq_of_le] <;> omega
  rw [formatKeyEnd, this]

theorem start_lt_end_iff (ha : a < 2 ^ 63) : formatKeyPrefix a < formatKeyEnd a ↔ Roomy a := by
  by_cases hmax : a + 1 < 2 ^ 63
  · rw [formatKeyEnd_of_lt hmax, formatKeyPrefix_lt_iff]
    have hle : digitCount a ≤ digitCount (a + 1) := by
      rw [digitCount_eq, digitCount_eq]
      exact succ_le_succ (log_mono_right (le_succ a))
    rcases hle.eq_or_lt with heq | hlt
    · exact iff_of_true ((idKey_lt_iff_of_eq heq).2 (lt_succ_self a)) ⟨hmax, heq.symm⟩
    · -- one digit more: the span is empty
      rw [idKey_lt_iff_of_lt hlt]
      refine iff_of_false (fun h => ?_) fun h => hlt.ne' h.2
      have hdiv : (a + 1) / 10 ^ (digitCount (a + 1) - digitCount a) ≤ (a + 1) / 10 ^ 1 :=
        div_le_div_left (Nat.pow_le_pow_right (by decide) (by omega)) (by decide)
      omega
  · obtain rfl : a = 2 ^ 63 - 1 := by omega
    exact iff_of_false (by decide +kernel) fun h => hmax h.1

theorem formatKeyEnd_ne_nil (a : Int) : formatKeyEnd a ≠ [] := by
  simp [formatKeyEnd, formatKeyPrefix]

theorem containsKey_iff (a : Int) (key : Bytes) :
    (makeSpanForTable a).containsKey key = true ↔ key ∈ keyRange (formatKeyPrefix a) (formatKeyEnd a) := by
  rw [ReplicationSpan.containsKey, Bool.and_eq_true, decide_eq_true_iff, decide_eq_true_iff]
  exact and_congr_right fun _ => (or_iff_right (formatKeyEnd_ne_nil a)).symm

theorem covers_iff (ha : a < 2 ^ 63) : Covers a ↔ Roomy a := by
  rw [← start_lt_end_iff ha]
  constructor
  · intro h
    have := (containsKey_iff a _).1 (h _ (prefix_refl _))
    exact this.2.resolve_left (formatKeyEnd_ne_nil a)
  · rintro hlt key ⟨s, rfl⟩
    obtain ⟨hmax, hcount⟩ := (start_lt_end_iff ha).1 hlt
    rw [containsKey_iff]
    have hlen : (formatKeyPrefix a).length = (formatKeyEnd a).length := by
      rw [formatKeyEnd_of_lt hmax, formatKeyPrefix_natCast, formatKeyPrefix_natCast]
      simp [length_idKey, hcount]
    have hstart := append_lt_append_iff (rfl : (formatKeyPrefix a).length = _) s []
    have hend := append_lt_append_iff hlen s []
    rw [append_nil] at hstart hend
    exact ⟨not_lt.1 (by simp [hstart]), .inr (hend.2 (.inl hlt))⟩

section

variable (ha : digitCount (a + 1) = digitCount a)
include ha

section

variable (hb : digitCount (b + 1) = digitCount b)
include hb

theorem meet_iff_of_lt (h : digitCount a < digitCount b) :
    (idKey b < idKey (a + 1) ∧ idKey a < idKey (b + 1)) ↔ Begins a b := by
  have hne : idKey b ≠ idKey (a + 1) := fun heq => by
    have := congrArg length heq
    rw [length_idKey, length_idKey] at this
    omega
  have hlt : idKey b < idKey (a + 1) ↔ ¬ idKey (a + 1) < idKey b :=
    ⟨lt_asymm, fun hno => lt_of_le_of_ne (not_lt.1 hno) hne⟩
  rw [hlt, idKey_lt_iff_of_lt (ha ▸ h), idKey_lt_iff_of_lt (hb ▸ h), ha, hb, Begins, Nat.succ_div]
  split <;> omega

theorem meet_iff (hne : a ≠ b) :
    (idKey b < idKey (a + 1) ∧ idKey a < idKey (b + 1)) ↔ Begins a b ∨ Begins b a := by
  rcases lt_trichotomy (digitCount a) (digitCount b) with h | h | h
  · rw [meet_iff_of_lt ha hb h, or_iff_left fun hb => absurd hb.1 h.not_gt]
  · rw [idKey_lt_iff_of_eq (h.symm.trans ha.symm), idKey_lt_iff_of_eq (h.trans hb.symm)]
    unfold Begins
    omega
  · rw [and_comm, meet_iff_of_lt hb ha h, or_iff_right fun ha => absurd ha.1 h.not_gt]

end

end

theorem apart_iff (ha : Roomy a) (hb : Roomy b) (hne : a ≠ b) : Apart a b ↔ ¬ Begins a b ∧ ¬ Begins b a := by
  have hrange : ∀ {c}, Roomy c → (keyRange (formatKeyPrefix c) (formatKeyEnd c)).Nonempty := fun hc =>
    keyRange_nonempty.2 (.inr ((start_lt_end_iff (lt_of_succ_lt hc.1)).2 hc))
  have hmeet := keyRange_inter_nonempty (hrange ha) (hrange hb)
  simp only [formatKeyEnd_ne_nil, false_or] at hmeet
  rw [formatKeyEnd_of_lt ha.1, formatKeyEnd_of_lt hb.1, formatKeyPrefix_lt_iff, formatKeyPrefix_lt_iff,
    meet_iff ha.2 hb.2 hne, ← formatKeyEnd_of_lt ha.1, ← formatKeyEnd_of_lt hb.1] at hmeet
  rw [← not_or, ← hmeet]
  unfold Apart
  simp only [containsKey_iff]
  exact not_exists.symm

/-- **Two tables' spans hold their own keys and no common one** exactly when neither next id has one digit more and
neither id begins with the other's next; then a key of a table is found in its own span only. -/
theorem spans_partition_iff (a b : Fin (2 ^ 63)) :
    (Covers a ∧ Covers b ∧ (a ≠ b → Apart a b) ↔ Roomy a ∧ Roomy b ∧ ¬ Begins a b ∧ ¬ Begins b a) ∧
    ∀ reg : SpanRegistry, (∀ e ∈ reg.spans.entries, ∃ id : Fin (2 ^ 63), e.2 = makeSpanForTable id ∧
        Roomy id ∧ ¬ Begins a id ∧ ¬ Begins id a) → Roomy a →
      ∀ key span, formatKeyPrefix a <+: key → reg.findByKey key = some span → span.tableId = a := by
  have hself : ∀ c : Nat, ¬ Begins c c := fun c h => lt_irrefl _ h.1
  constructor
  · rw [covers_iff a.isLt, covers_iff b.isLt]
    refine and_congr_right fun ha => and_congr_right fun hb => ?_
    by_cases hab : a = b
    · subst hab
      simp [hself]
    · rw [← apart_iff ha hb (Fin.val_ne_of_ne hab)]
      simp [hab]
  · intro reg hreg ha key span hkey hfind
    obtain ⟨e, he, rfl⟩ := mem_map.1 (mem_of_find?_eq_some hfind)
    obtain ⟨id, heq, hid, hbegins⟩ := hreg e he
    have hcontains := find?_some hfind
    rw [heq] at hcontains ⊢
    by_contra hne
    have hne : (a : Nat) ≠ id := fun h => hne (congrArg _ h.symm)
    exact (apart_iff ha hid hne).2 hbegins key ⟨(covers_iff a.isLt).2 ha key hkey, hcontains⟩

/-- **The span of table 9 is empty, and that of table 1 holds the keys of table 20.** -/
theorem spans_overlap : ¬ Covers 9 ∧ ¬ Apart 1 20 := by
  refine ⟨fun h => absurd (h _ (prefix_refl _)) (by decide), fun h => h (formatKeyPrefix 20) ?_⟩
  decide

end Span
end Tikv
