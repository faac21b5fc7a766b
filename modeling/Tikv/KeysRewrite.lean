import Tikv.LibMemcmp
/-!
# KeysRewrite — keys and ranges under another prefix (`keys::rewrite`)

A key is moved to another prefix by replacing the old one.  The end of a range may also be the successor of the old prefix,
and an empty end key stands for no end.  A key is in a range exactly when the moved key is in the moved range, but for an
excluded end that the empty key takes the place of (`rewritePrefix_range_iff`).
-/
namespace Tikv
namespace Keys

open Lib List

inductive WrongPrefix
  | wrongPrefix

inductive Bound
  | included (key : Bytes)
  | excluded (key : Bytes)
  | unbounded

def nextKeyNoAlloc (key : Bytes) : Option (Bytes × UInt8) :=
  match key.reverse.dropWhile (· == 0xff) with
  | [] => none
  | b :: s => some (s.reverse, b + 1)

def nextKey (key : Bytes) : Bytes :=
  match nextKeyNoAlloc key with
  | some (s, e) => s ++ [e]
  | none => []

def rewritePrefix (oldPrefix newPrefix src : Bytes) : Except WrongPrefix Bytes :=
  if !oldPrefix.isPrefixOf src then .error .wrongPrefix else .ok (newPrefix ++ src.drop oldPrefix.length)

def rewritePrefixOfEndKey (oldPrefix newPrefix src : Bytes) : Except WrongPrefix Bytes :=
  match rewritePrefix oldPrefix newPrefix src with
  | .ok dest => .ok dest
  | .error _ =>
    if nextKeyNoAlloc oldPrefix ≠ src.getLast?.map (src.dropLast, ·) then .error .wrongPrefix
    else .ok (nextKey newPrefix)

def rewritePrefixOfStartBound (oldPrefix newPrefix : Bytes) : Bound → Except WrongPrefix Bound
  | .unbounded => .ok (if oldPrefix.isEmpty then .included newPrefix else .unbounded)
  | .included s => (rewritePrefix oldPrefix newPrefix s).map .included
  | .excluded s => (rewritePrefix oldPrefix newPrefix s).map .excluded

def endKeyToBound (endKey : Bytes) : Bound := if endKey.isEmpty then .unbounded else .excluded endKey

def rewritePrefixOfEndBound (oldPrefix newPrefix : Bytes) : Bound → Except WrongPrefix Bound
  | .unbounded => .ok (if oldPrefix.isEmpty then endKeyToBound (nextKey newPrefix) else .unbounded)
  | .included e => (rewritePrefix oldPrefix newPrefix e).map .included
  | .excluded e => (rewritePrefixOfEndKey oldPrefix newPrefix e).map endKeyToBound

/-! ## Ranges -/

def Bound.Starts (key : Bytes) : Bound → Prop
  | .included s => s ≤ key
  | .excluded s => s < key
  | .unbounded => True

def Bound.Ends (key : Bytes) : Bound → Prop
  | .included e => key ≤ e
  | .excluded e => key < e
  | .unbounded => True

/-- The excluded end is the old prefix and the new one is empty, or it is empty and taken for the successor of the old
prefix. -/
def EmptyEnd (oldPrefix newPrefix : Bytes) (e : Bound) : Prop :=
  e = .excluded oldPrefix ∧ newPrefix = [] ∨ e = .excluded [] ∧ oldPrefix ≠ []

variable {old new : Bytes}

theorem append_left_lt_iff (p : Bytes) {x y : Bytes} : p ++ x < p ++ y ↔ x < y := by
  simpa using append_lt_append_iff (rfl : p.length = p.length) x y

theorem append_left_le_iff (p : Bytes) {x y : Bytes} : p ++ x ≤ p ++ y ↔ x ≤ y := by
  rw [← not_lt, append_left_lt_iff, not_lt]

theorem rewritePrefix_append (old new x : Bytes) : rewritePrefix old new (old ++ x) = .ok (new ++ x) := by
  simp [rewritePrefix]

theorem rewritePrefix_cases (old new src : Bytes) :
    (∃ x, src = old ++ x ∧ rewritePrefix old new src = .ok (new ++ x)) ∨
      ¬ old <+: src ∧ rewritePrefix old new src = .error .wrongPrefix := by
  by_cases hp : old <+: src
  · obtain ⟨x, rfl⟩ := hp
    exact .inl ⟨x, rfl, rewritePrefix_append old new x⟩
  · exact .inr ⟨hp, by simp [rewritePrefix, mt isPrefixOf_iff_prefix.1 hp]⟩

theorem map_rewritePrefix_eq_ok {f : Bytes → Bound} {src : Bytes} {b : Bound}
    (h : (rewritePrefix old new src).map f = .ok b) : ∃ x, src = old ++ x ∧ b = f (new ++ x) := by
  rcases rewritePrefix_cases old new src with ⟨x, hx, hsrc⟩ | ⟨-, hsrc⟩ <;> rw [hsrc] at h <;> cases h
  exact ⟨x, hx, rfl⟩

theorem nextKey_cons (b : UInt8) (key : Bytes) :
    nextKey (b :: key) = if nextKey key = [] then if b = 0xff then [] else [b + 1] else b :: nextKey key := by
  unfold nextKey nextKeyNoAlloc
  rw [reverse_cons, dropWhile_append]
  cases key.reverse.dropWhile (· == 0xff) with
  | nil => by_cases hb : b = 0xff <;> simp [hb]
  | cons a s => simp

theorem append_lt_nextKey (r : Bytes) : ∀ key : Bytes, nextKey key = [] ∨ key ++ r < nextKey key
  | [] => .inl rfl
  | b :: key => by
    have ih := append_lt_nextKey r key
    rw [nextKey_cons]
    grind [cons_lt_cons_iff]

theorem append_lt_of_nextKeyNoAlloc {key s : Bytes} {e : UInt8} (h : nextKeyNoAlloc key = some (s, e)) (r : Bytes) :
    key ++ r < s ++ [e] := by
  have hnext : nextKey key = s ++ [e] := by rw [nextKey, h]
  exact hnext ▸ (append_lt_nextKey r key).resolve_left (by simp [hnext])

/-- **The keys up to the successor of a key** are those that start with it. -/
theorem keyRange_nextKey (key : Bytes) : keyRange key (nextKey key) = {k | key <+: k} := by
  induction key with
  | nil =>
    ext k
    exact iff_of_true ⟨not_lt.1 (not_lt_nil k), .inl rfl⟩ nil_prefix
  | cons b key ih =>
    ext k
    cases k with
    | nil => exact iff_of_false (fun h => not_lt.2 h.1 (nil_lt_cons b key)) (by simp)
    | cons c k =>
      have hk : key ≤ k ∧ (nextKey key = [] ∨ k < nextKey key) ↔ key <+: k := Set.ext_iff.1 ih k
      show b :: key ≤ c :: k ∧ (_ = [] ∨ c :: k < _) ↔ b :: key <+: c :: k
      rw [nextKey_cons, cons_prefix_cons, ← hk, ← not_lt, cons_lt_cons_iff]
      -- the first byte decides unless it is the key's; `[b + 1]` is above every key that goes on with `b`
      split <;> grind [cons_lt_cons_iff, not_lt_nil]

theorem ends_endKeyToBound_nextKey (r : Bytes) : (endKeyToBound (nextKey new)).Ends (new ++ r) := by
  unfold nextKey
  cases h : nextKeyNoAlloc new with
  | none => trivial
  | some p =>
    have := append_lt_of_nextKeyNoAlloc h r
    simpa [endKeyToBound, Bound.Ends]

theorem starts_rewritten {start start' : Bound} (h : rewritePrefixOfStartBound old new start = .ok start') :
    (∃ r, start.Starts (old ++ r)) ∧ ∀ r, start.Starts (old ++ r) ↔ start'.Starts (new ++ r) := by
  cases start with
  | unbounded =>
    refine ⟨⟨[], trivial⟩, fun r => iff_of_true trivial ?_⟩
    cases h
    split
    · exact not_lt.1 le_append_left
    · trivial
  | included s =>
    obtain ⟨x, rfl, rfl⟩ := map_rewritePrefix_eq_ok h
    exact ⟨⟨x, le_rfl⟩, fun r => (append_left_le_iff old).trans (append_left_le_iff new).symm⟩
  | excluded s =>
    obtain ⟨x, rfl, rfl⟩ := map_rewritePrefix_eq_ok h
    refine ⟨⟨x ++ [0], (append_left_lt_iff old).2 ?_⟩,
      fun r => (append_left_lt_iff old).trans (append_left_lt_iff new).symm⟩
    simpa using append_left_lt (nil_lt_of_ne_nil (cons_ne_nil 0 []))

/-- **The end moves with the keys, or it lets all of the new prefix pass and none of the old.** -/
theorem ends_rewritten {e e' : Bound} (h : rewritePrefixOfEndBound old new e = .ok e') :
    ¬ EmptyEnd old new e ∧ (∀ r, e.Ends (old ++ r) ↔ e'.Ends (new ++ r)) ∨
      EmptyEnd old new e ∧ ∀ r, ¬ e.Ends (old ++ r) ∧ e'.Ends (new ++ r) := by
  cases e with
  | unbounded =>
    refine .inl ⟨by simp [EmptyEnd], fun r => iff_of_true trivial ?_⟩
    cases h
    split
    · exact ends_endKeyToBound_nextKey r
    · trivial
  | included e =>
    obtain ⟨x, rfl, rfl⟩ := map_rewritePrefix_eq_ok h
    exact .inl ⟨by simp [EmptyEnd], fun r => (append_left_le_iff old).trans (append_left_le_iff new).symm⟩
  | excluded e =>
    rw [rewritePrefixOfEndBound, rewritePrefixOfEndKey] at h
    rcases rewritePrefix_cases old new e with ⟨x, rfl, hsrc⟩ | ⟨hp, hsrc⟩ <;> rw [hsrc] at h <;> dsimp only at h
    · cases h
      by_cases hnil : new ++ x = []
      · obtain ⟨rfl, rfl⟩ := append_eq_nil_iff.1 hnil
        exact .inr ⟨.inl ⟨by simp, rfl⟩, fun r => ⟨mt (append_left_lt_iff old).1 (not_lt_nil r), trivial⟩⟩
      · refine .inl ⟨?_, fun r => by simp [endKeyToBound, hnil, Bound.Ends, append_left_lt_iff]⟩
        simp [EmptyEnd] at hnil ⊢
        tauto
    · split at h <;> cases h
      rename_i hnext
      rcases eq_nil_or_concat' e with rfl | ⟨s, b, rfl⟩
      · exact .inr ⟨.inr ⟨rfl, fun hold => hp (hold ▸ nil_prefix)⟩,
          fun r => ⟨not_lt_nil _, ends_endKeyToBound_nextKey r⟩⟩
      · refine .inl ⟨?_, fun r => iff_of_true (append_lt_of_nextKeyNoAlloc (by simpa using hnext) r)
          (ends_endKeyToBound_nextKey r)⟩
        rintro (⟨hold, -⟩ | ⟨hnil, -⟩)
        · exact hp (Bound.excluded.inj hold ▸ prefix_rfl)
        · simp at hnil

/-- **Keys and ranges move together**, but for an end that becomes the empty key or is one. -/
theorem rewritePrefix_range_iff (old new : Bytes) {start start' e e' : Bound}
    (hstart : rewritePrefixOfStartBound old new start = .ok start')
    (hend : rewritePrefixOfEndBound old new e = .ok e') :
    ((∀ r, start.Starts (old ++ r) ∧ e.Ends (old ++ r) ↔ start'.Starts (new ++ r) ∧ e'.Ends (new ++ r)) ↔
      ¬ EmptyEnd old new e) ∧
    ∀ src, old <+: src → (rewritePrefix old new src).bind (rewritePrefix new old) = .ok src := by
  obtain ⟨⟨r, hr⟩, hs⟩ := starts_rewritten hstart
  refine ⟨?_, ?_⟩
  · rcases ends_rewritten hend with ⟨hne, he⟩ | ⟨hempty, he⟩
    · exact iff_of_true (fun r => and_congr (hs r) (he r)) hne
    · exact iff_of_false (fun h => (he r).1 ((h r).2 ⟨(hs r).1 hr, (he r).2⟩).2) (not_not.2 hempty)
  · rintro _ ⟨x, rfl⟩
    rw [rewritePrefix_append]
    exact rewritePrefix_append new old x

theorem rewritePrefix_range_successor : rewritePrefixOfEndBound [97] [98] (.excluded [98]) = .ok (.excluded [99]) ∧
    ∀ r, Bound.Starts ([97] ++ r) .unbounded ∧ Bound.Ends ([97] ++ r) (.excluded [98]) ↔
      Bound.Starts ([98] ++ r) .unbounded ∧ Bound.Ends ([98] ++ r) (.excluded [99]) :=
  ⟨rfl, (@rewritePrefix_range_iff [97] [98] .unbounded _ (.excluded [98]) _ rfl rfl).1.2 (by simp [EmptyEnd])⟩

/-- An end at the old prefix itself, below all keys of the prefix, becomes no end when the new prefix is empty. -/
theorem not_rewritePrefix_range : ¬ ∀ (old new : Bytes) (start start' e e' : Bound),
    rewritePrefixOfStartBound old new start = .ok start' → rewritePrefixOfEndBound old new e = .ok e' →
    ∀ r, start.Starts (old ++ r) ∧ e.Ends (old ++ r) ↔ start'.Starts (new ++ r) ∧ e'.Ends (new ++ r) :=
  fun h => lt_irrefl _ ((h [97] [] .unbounded _ (.excluded [97]) _ rfl rfl []).2 ⟨trivial, trivial⟩).2

end Keys
end Tikv
