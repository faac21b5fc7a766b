import Tikv.LibBytes
/-!
# SpanHex — keys as hexadecimal text (`resolver.rs`, `task.rs`, `span_bridge.rs`)

PD's answers have keys as hexadecimal text.  The three copies of `hex_decode` cut the text into slices of two bytes and hand
each of them to `u8::from_str_radix`.  Slicing panics inside a character, and `from_str_radix` takes a plus sign before the
digits, so they decode what they should exactly where neither comes up (`hexDecode_exact_iff`).
-/
namespace Tikv
namespace Span

open Lib List

inductive HexOutcome (ε : Type)
  | ok (bytes : Bytes)
  | err (e : ε)
  | panic
deriving DecidableEq, Repr

namespace HexOutcome

variable {ε : Type}

def cons (b : UInt8) : HexOutcome ε → HexOutcome ε
  | ok bytes => ok (b :: bytes)
  | err e => err e
  | panic => panic

def forget : HexOutcome ε → HexOutcome Unit
  | ok bytes => ok bytes
  | err _ => err ()
  | panic => panic

end HexOutcome

def hexDigit (c : Char) : Option Nat :=
  if '0' ≤ c ∧ c ≤ '9' then some (c.toNat - 48)
  else if 'a' ≤ c ∧ c ≤ 'f' then some (c.toNat - 87)
  else if 'A' ≤ c ∧ c ≤ 'F' then some (c.toNat - 55)
  else none

/-- `u8::from_str_radix(.., 16)` of two characters of a byte each; a plus sign in front is skipped. -/
def fromStrRadix (c d : Char) : Option UInt8 :=
  match if c = '+' then some 0 else hexDigit c, hexDigit d with
  | some hi, some lo => some (UInt8.ofNat (hi * 16 + lo))
  | _, _ => none

def byteLen (s : List Char) : Nat := (s.map Char.utf8Size).sum

section

variable {ε : Type}

/-- The slices `[i..i + 2]` one after the other, up to the first that fails.  A slice is two characters of a byte, or one of
two bytes, which is no digit; any other one does not end between characters. -/
def decodeSlices (digitErr : Nat → ε) : Nat → List Char → HexOutcome ε
  | _, [] => .ok []
  | i, [c] => if c.utf8Size = 2 then .err (digitErr i) else .panic
  | i, c :: d :: rest =>
    if c.utf8Size = 1 then
      if d.utf8Size = 1 then
        match fromStrRadix c d with
        | some b => (decodeSlices digitErr (i + 2) rest).cons b
        | none => .err (digitErr i)
      else .panic
    else if c.utf8Size = 2 then .err (digitErr i)
    else .panic

def hexDecodeBy (oddErr digitErr : Nat → ε) (s : String) : HexOutcome ε :=
  if byteLen s.toList % 2 ≠ 0 then .err (oddErr (byteLen s.toList)) else decodeSlices digitErr 0 s.toList

end

def parseIntError : String := "ParseIntError \x7b kind: InvalidDigit \x7d"

def Resolver.hexDecode (s : String) : HexOutcome String :=
  if s.toList.isEmpty then .ok []
  else hexDecodeBy (fun n => s!"hex string has odd length: {n}") (fun i => s!"hex decode at {i}: {parseIntError}") s

def Task.hexDecode : String → HexOutcome Unit := hexDecodeBy (fun _ => ()) (fun _ => ())

def SpanBridge.hexDecode (s : String) : HexOutcome String :=
  if s.toList.isEmpty then .ok []
  else hexDecodeBy (fun n => s!"odd hex length: {n}") (fun _ => s!"hex: {parseIntError}") s

def hexEncode (data : Bytes) : String :=
  String.ofList (data.flatMap fun b => [Nat.digitChar (b.toNat / 16), Nat.digitChar (b.toNat % 16)])

/-! ## What is hexadecimal -/

def hexValue : List Char → Option Bytes
  | [] => some []
  | [_] => none
  | c :: d :: rest =>
    match hexDigit c, hexDigit d, hexValue rest with
    | some hi, some lo, some bytes => some (UInt8.ofNat (hi * 16 + lo) :: bytes)
    | _, _, _ => none

/-- **The outcome is exact**: the bytes of a hexadecimal text, an error for any other, and no panic. -/
def ExactOn (s : String) {ε : Type} (outcome : HexOutcome ε) : Prop :=
  (∀ bytes, outcome = .ok bytes ↔ hexValue s.toList = some bytes) ∧ outcome ≠ .panic

def sliced : List Char → Bool
  | [] => true
  | [_] => false
  | c :: d :: rest => (fromStrRadix c d).isSome && sliced rest

def cutsChar : List Char → Bool
  | [] => false
  | [c] => decide (c.utf8Size ≠ 2)
  | c :: d :: _ => if c.utf8Size = 1 then decide (d.utf8Size ≠ 1) else decide (c.utf8Size ≠ 2)

/-- No slice inside a character comes after slices that are taken. -/
def CutFree (s : List Char) : Prop := ∀ taken rest, s = taken ++ rest → sliced taken = true → cutsChar rest = false

/-- **Where `hex_decode` is not misled**: the length is odd; or the slices are not all taken with a plus sign among them, and
no slice is cut inside a character. -/
def Unmisled (s : List Char) : Prop := byteLen s % 2 ≠ 0 ∨ ((sliced s = true → '+' ∉ s) ∧ CutFree s)

/-! ## Slices -/

theorem utf8Size_of_hexDigit {c : Char} {n : Nat} (h : hexDigit c = some n) : c.utf8Size = 1 := by
  refine Char.utf8Size_eq_one_iff.2 (UInt32.le_trans (b := 102) ?_ (by decide))
  unfold hexDigit at h
  split at h
  · rename_i hc
    exact UInt32.le_trans hc.2 (by decide)
  split at h
  · rename_i hc
    exact hc.2
  split at h
  · rename_i hc
    exact UInt32.le_trans hc.2 (by decide)
  · cases h

section

variable {c d : Char}

theorem fromStrRadix_eq_some {b : UInt8} (h : fromStrRadix c d = some b) : c.utf8Size = 1 ∧ d.utf8Size = 1 ∧
    d ≠ '+' ∧ (c ≠ '+' → ∃ hi lo, hexDigit c = some hi ∧ hexDigit d = some lo ∧ b = UInt8.ofNat (hi * 16 + lo)) := by
  unfold fromStrRadix at h
  split at h
  · rename_i hi lo hc hd
    cases h
    refine ⟨?_, utf8Size_of_hexDigit hd, (fun h => by rw [h] at hd; cases hd), fun hne => ⟨hi, lo, ?_, hd, rfl⟩⟩
    · split at hc
      · rename_i heq
        rw [heq]; rfl
      · exact utf8Size_of_hexDigit hc
    · rwa [if_neg hne] at hc
  · cases h

theorem fromStrRadix_of_hexDigit {hi lo : Nat} (hc : hexDigit c = some hi) (hd : hexDigit d = some lo) :
    fromStrRadix c d = some (UInt8.ofNat (hi * 16 + lo)) ∧ c ≠ '+' := by
  have hne : c ≠ '+' := by
    rintro rfl
    cases hc
  unfold fromStrRadix
  rw [if_neg hne, hc, hd]
  exact ⟨rfl, hne⟩

end

theorem cutFree_cons {c d : Char} {rest : List Char} (hcut : cutsChar (c :: d :: rest) = false)
    (hrest : (fromStrRadix c d).isSome = true → CutFree rest) : CutFree (c :: d :: rest) := by
  intro taken rest' heq htaken
  match taken, htaken with
  | [], _ =>
    rw [nil_append] at heq
    rwa [← heq]
  | [_], h => cases h
  | c' :: d' :: taken, h =>
    cases heq
    unfold sliced at h
    rw [Bool.and_eq_true] at h
    exact hrest h.1 taken rest' rfl h.2

inductive SlicesEnd (s : List Char) {ε : Type} : HexOutcome ε → Prop
  | ok {bytes : Bytes} (hs : sliced s = true) (hcut : CutFree s) (hvalue : '+' ∉ s → hexValue s = some bytes) :
      SlicesEnd s (.ok bytes)
  | err (e : ε) (hs : sliced s = false) (hcut : CutFree s) : SlicesEnd s (.err e)
  | panic (hs : sliced s = false) (hcut : ¬ CutFree s) : SlicesEnd s .panic

theorem decodeSlices_end {ε : Type} (digitErr : Nat → ε) : ∀ (i : Nat) (s : List Char),
    SlicesEnd s (decodeSlices digitErr i s)
  | _, [] => .ok rfl (by intro taken rest h _; cases (append_eq_nil_iff.1 h.symm).2; rfl) fun _ => rfl
  | i, [c] => by
    unfold decodeSlices
    split
    · rename_i hc
      refine .err _ rfl fun taken rest heq htaken => ?_
      rcases append_eq_singleton_iff.1 heq.symm with ⟨rfl, rfl⟩ | ⟨rfl, rfl⟩
      · exact decide_eq_false (not_not.2 hc)
      · cases htaken
    · rename_i hc
      refine .panic rfl fun h => hc ?_
      exact not_not.1 (of_decide_eq_false (h [] [c] rfl rfl))
  | i, c :: d :: rest => by
    cases hcut : cutsChar (c :: d :: rest) with
    | true =>
      have hpanic : decodeSlices digitErr i (c :: d :: rest) = .panic := by
        unfold cutsChar at hcut
        unfold decodeSlices
        split_ifs <;> simp_all
      have hs : sliced (c :: d :: rest) = false := by
        cases hf : fromStrRadix c d with
        | none => simp [sliced, hf]
        | some b =>
          obtain ⟨hc, hd, -⟩ := fromStrRadix_eq_some hf
          simp [cutsChar, hc, hd] at hcut
      rw [hpanic]
      exact .panic hs fun h => by rw [h [] _ rfl rfl] at hcut; cases hcut
    | false =>
      cases hf : fromStrRadix c d with
      | none =>
        have herr : decodeSlices digitErr i (c :: d :: rest) = .err (digitErr i) := by
          unfold cutsChar at hcut
          unfold decodeSlices
          split_ifs <;> simp_all
        rw [herr]
        exact .err _ (by simp [sliced, hf]) (cutFree_cons hcut fun h => by rw [hf] at h; cases h)
      | some b =>
        obtain ⟨hc, hd, hplus, hdigits⟩ := fromStrRadix_eq_some hf
        have hnext : decodeSlices digitErr i (c :: d :: rest) = (decodeSlices digitErr (i + 2) rest).cons b := by
          rw [decodeSlices, if_pos hc, if_pos hd, hf]
        have hs : sliced (c :: d :: rest) = sliced rest := by simp [sliced, hf]
        have hend := decodeSlices_end digitErr (i + 2) rest
        rw [hnext]
        generalize decodeSlices digitErr (i + 2) rest = outcome at hend
        cases hend with
        | ok hrest hfree hvalue =>
          refine .ok (hs.trans hrest) (cutFree_cons hcut fun _ => hfree) fun hno => ?_
          simp only [mem_cons, not_or] at hno
          obtain ⟨hi, lo, hc, hd, rfl⟩ := hdigits (Ne.symm hno.1)
          rw [hexValue, hc, hd, hvalue hno.2.2]
        | err e hrest hfree => exact .err e (hs.trans hrest) (cutFree_cons hcut fun _ => hfree)
        | panic hrest hfree =>
          refine .panic (hs.trans hrest) fun h => hfree fun taken rest' heq htaken => ?_
          exact h (c :: d :: taken) rest' (by rw [heq]; rfl) (by simp [sliced, hf, htaken])

theorem sliced_of_hexValue : ∀ {s : List Char} {bytes : Bytes}, hexValue s = some bytes →
    sliced s = true ∧ '+' ∉ s ∧ byteLen s % 2 = 0
  | [], _, _ => ⟨rfl, not_mem_nil, rfl⟩
  | [_], _, h => by cases h
  | c :: d :: rest, _, h => by
    unfold hexValue at h
    split at h
    · rename_i hi lo bytes hc hd hrest
      obtain ⟨hs, hplus, heven⟩ := sliced_of_hexValue hrest
      obtain ⟨hf, hne⟩ := fromStrRadix_of_hexDigit hc hd
      obtain ⟨hc1, hd1, hdne, -⟩ := fromStrRadix_eq_some hf
      refine ⟨by simp [sliced, hf, hs], by simp [hplus, Ne.symm hne, Ne.symm hdne], ?_⟩
      unfold byteLen at *
      rw [map_cons, map_cons, sum_cons, sum_cons]
      omega
    · cases h

section

variable {ε : Type} (oddErr digitErr : Nat → ε)

theorem exactOn_hexDecodeBy_iff (s : String) : ExactOn s (hexDecodeBy oddErr digitErr s) ↔ Unmisled s.toList := by
  unfold hexDecodeBy Unmisled
  by_cases hodd : byteLen s.toList % 2 ≠ 0
  · rw [if_pos hodd]
    refine iff_of_true ⟨fun bytes => ⟨nofun, fun h => absurd (sliced_of_hexValue h).2.2 hodd⟩, nofun⟩ (.inl hodd)
  rw [if_neg hodd, or_iff_right hodd]
  have hend := decodeSlices_end digitErr 0 s.toList
  generalize decodeSlices digitErr 0 s.toList = outcome at hend
  constructor
  · intro h
    cases hend with
    | ok hs hcut _ => exact ⟨fun _ => (sliced_of_hexValue ((h.1 _).1 rfl)).2.1, hcut⟩
    | err e hs hcut => exact ⟨(fun h => by rw [hs] at h; cases h), hcut⟩
    | panic _ _ => exact absurd rfl h.2
  · rintro ⟨hplus, hfree⟩
    cases hend with
    | ok hs _ hvalue =>
      refine ⟨fun bytes => ?_, nofun⟩
      rw [hvalue (hplus hs)]
      exact ⟨fun h => by cases h; rfl, fun h => by cases h; rfl⟩
    | err e hs _ =>
      refine ⟨fun bytes => ⟨nofun, fun h => ?_⟩, nofun⟩
      rw [(sliced_of_hexValue h).1] at hs
      cases hs
    | panic _ hcut => exact absurd hfree hcut

theorem forget_decodeSlices : ∀ (i j : Nat) (s : List Char),
    (decodeSlices digitErr i s).forget = decodeSlices (fun _ => ()) j s
  | _, _, [] => rfl
  | _, _, [c] => by
    unfold decodeSlices
    split <;> rfl
  | i, j, c :: d :: rest => by
    have ih := forget_decodeSlices (i + 2) (j + 2) rest
    unfold decodeSlices
    rw [← ih]
    repeat' split
    all_goals first | rfl | (cases decodeSlices digitErr (i + 2) rest <;> rfl)

theorem forget_hexDecodeBy (s : String) : (hexDecodeBy oddErr digitErr s).forget = Task.hexDecode s := by
  unfold Task.hexDecode hexDecodeBy
  split
  · rfl
  · exact forget_decodeSlices digitErr 0 0 s.toList

end

theorem hexDigit_digitChar : ∀ n < 16, hexDigit (Nat.digitChar n) = some n := by decide

theorem hexValue_hexEncode : ∀ data : Bytes, hexValue (hexEncode data).toList = some data := by
  intro data
  unfold hexEncode
  rw [String.toList_ofList]
  induction data with
  | nil => rfl
  | cons b data ih =>
    have hb := b.toNat_lt
    show hexValue (_ :: _ :: flatMap _ data) = _
    rw [hexValue, hexDigit_digitChar _ (by omega), hexDigit_digitChar _ (by omega), ih]
    refine congrArg (some <| · :: data) (UInt8.toNat_inj.1 ?_)
    rw [UInt8.toNat_ofNat']
    omega

theorem hexDecodeBy_of_isEmpty {ε : Type} (oddErr digitErr : Nat → ε) (s : String) :
    (if s.toList.isEmpty then .ok [] else hexDecodeBy oddErr digitErr s) = hexDecodeBy oddErr digitErr s := by
  split
  · rename_i h
    rw [hexDecodeBy, isEmpty_iff.1 h]; rfl
  · rfl

/-- **The three copies decode hexadecimal text, and nothing else, exactly where they are not misled**; they agree everywhere,
and read back what `hex_encode` writes. -/
theorem hexDecode_exact_iff (s : String) (data : Bytes) :
    ((Resolver.hexDecode s).forget = Task.hexDecode s ∧ (SpanBridge.hexDecode s).forget = Task.hexDecode s ∧
      (ExactOn s (Resolver.hexDecode s) ∧ ExactOn s (Task.hexDecode s) ∧ ExactOn s (SpanBridge.hexDecode s) ↔
        Unmisled s.toList)) ∧
    Resolver.hexDecode (hexEncode data) = .ok data ∧ Task.hexDecode (hexEncode data) = .ok data ∧
      SpanBridge.hexDecode (hexEncode data) = .ok data := by
  unfold Resolver.hexDecode SpanBridge.hexDecode
  simp only [hexDecodeBy_of_isEmpty]
  refine ⟨⟨forget_hexDecodeBy _ _ s, forget_hexDecodeBy _ _ s, ?_⟩, ?_⟩
  · unfold Task.hexDecode
    simp [exactOn_hexDecodeBy_iff]
  · have hvalue := hexValue_hexEncode data
    obtain ⟨hs, hplus, heven⟩ := sliced_of_hexValue hvalue
    have hok : ∀ {ε : Type} (oddErr digitErr : Nat → ε), hexDecodeBy oddErr digitErr (hexEncode data) = .ok data := by
      intro ε oddErr digitErr
      have hend := decodeSlices_end digitErr 0 (hexEncode data).toList
      rw [hexDecodeBy, if_neg (not_not.2 heven)]
      generalize decodeSlices digitErr 0 (hexEncode data).toList = outcome at hend
      cases hend with
      | ok _ _ hsome =>
        rw [hvalue] at hsome
        cases hsome hplus
        rfl
      | err e hno | panic hno => rw [hs] at hno; cases hno
    exact ⟨hok _ _, hok _ _, hok _ _⟩

/-- **A plus sign is taken for a digit, and a character of two bytes after a digit is a panic.** -/
theorem hexDecode_misled : Task.hexDecode "+5" = .ok [5] ∧ hexValue "+5".toList = none ∧ Task.hexDecode "aéb" = .panic := by
  decide

end Span
end Tikv
