import Mathlib.Algebra.Ring.Nat
import Mathlib.Data.List.AList
import Mathlib.Logic.Function.Iterate
/-!
# LibMap — finite maps and folds over their keys

A finite map is Mathlib's association list with distinct keys.  `modify` and `mapVal` are the two in-place updates a
hash map offers, at one key and at all of them; each operation has one lemma saying what every key reads afterwards.
`foldl_view` is the rule for a loop each of whose steps changes what one key reads: the loop changes what a key reads as
often as the key occurs.
-/
namespace Lib

open List

abbrev Map (κ ν : Type) := AList (fun _ : κ => ν)

namespace Map

variable {κ ν : Type} [DecidableEq κ] {k k' : κ} {v w : ν} {m : Map κ ν} {f : ν → ν}

instance [DecidableEq ν] : DecidableEq (Map κ ν) := fun a b =>
  decidable_of_iff (a.entries = b.entries) ⟨AList.ext, congrArg _⟩

theorem lookup_insert : (AList.insert k v m).lookup k' = if k' = k then some v else m.lookup k' := by
  split
  · rename_i h
    rw [h, AList.lookup_insert]
  rename_i h
  exact AList.lookup_insert_ne h

theorem lookup_erase : (AList.erase k m).lookup k' = if k' = k then none else m.lookup k' := by
  split
  · rename_i h
    rw [h, AList.lookup_erase]
  rename_i h
  exact AList.lookup_erase_ne h

theorem lookup_insert_cases (h : (AList.insert k v m).lookup k' = some w) : k' = k ∧ v = w ∨ m.lookup k' = some w := by
  rw [lookup_insert] at h
  split at h
  · exact .inl ⟨‹_›, Option.some.inj h⟩
  · exact .inr h

theorem lookup_of_erase (h : (AList.erase k m).lookup k' = some w) : m.lookup k' = some w := by
  rw [lookup_erase] at h
  split at h
  · cases h
  · exact h

theorem mem_entries : ⟨k, v⟩ ∈ m.entries ↔ m.lookup k = some v :=
  AList.mem_lookup_iff.symm

def modify (k : κ) (f : ν → ν) (m : Map κ ν) : Map κ ν :=
  match m.lookup k with
  | some v => AList.insert k (f v) m
  | none => m

theorem lookup_modify : (modify k f m).lookup k' = if k' = k then (m.lookup k').map f else m.lookup k' := by
  unfold modify
  cases hk : m.lookup k with
  | none =>
    dsimp only
    split
    · rename_i h
      rw [h, hk]; rfl
    · rfl
  | some v =>
    rw [lookup_insert]
    split
    · rename_i h
      rw [h, hk]; rfl
    · rfl

def mapVal (f : ν → ν) (m : Map κ ν) : Map κ ν where
  entries := m.entries.map fun e => ⟨e.1, f e.2⟩
  nodupKeys := by
    have h : (m.entries.map fun e : (_ : κ) × ν => (⟨e.1, f e.2⟩ : (_ : κ) × ν)).keys = m.entries.keys := by
      simp [List.keys, Function.comp_def]
    unfold List.NodupKeys
    rw [h]
    exact m.nodupKeys

theorem lookup_mapVal : (mapVal f m).lookup k = (m.lookup k).map f := by
  cases hk : m.lookup k with
  | none =>
    rw [Option.map_none, AList.lookup_eq_none]
    intro hmem
    apply AList.lookup_eq_none.1 hk
    rw [AList.mem_keys, AList.keys, mem_keys] at hmem ⊢
    obtain ⟨v, hv⟩ := hmem
    obtain ⟨e, he, heq⟩ := mem_map.1 hv
    cases heq
    exact ⟨e.2, he⟩
  | some v =>
    rw [Option.map_some, ← mem_entries]
    exact mem_map.2 ⟨⟨k, v⟩, mem_entries.2 hk, rfl⟩

/-! ### Sums over the entries -/

def weigh (f : κ → ν → Nat) (m : Map κ ν) : Nat := (m.entries.map fun e => f e.1 e.2).sum

variable {f : κ → ν → Nat}

theorem weigh_insert : weigh f (AList.insert k v m) = f k v + weigh f (AList.erase k m) := by
  rfl

theorem weigh_eq_erase (f : κ → ν → Nat) (k : κ) (m : Map κ ν) :
    weigh f m = (m.lookup k).elim 0 (f k) + weigh f (AList.erase k m) := by
  cases hk : m.lookup k with
  | none =>
    have hkeys : k ∉ m.entries.keys := by
      rw [AList.lookup_eq_none] at hk
      exact hk
    unfold weigh
    show _ = 0 + (((m.entries.kerase k).map fun e => f e.1 e.2)).sum
    rw [kerase_of_notMem_keys hkeys, zero_add]
  | some v =>
    have hmem : k ∈ m.entries.keys := mem_keys_of_mem (mem_entries.2 hk)
    obtain ⟨w, l₁, l₂, -, hl, herase⟩ := exists_of_kerase hmem
    have hw : m.lookup k = some w := mem_entries.1 (by rw [hl]; simp)
    rw [hk] at hw
    cases hw
    unfold weigh
    show _ = f k v + (((m.entries.kerase k).map fun e => f e.1 e.2)).sum
    rw [herase, hl]
    simp only [map_append, map_cons, sum_append, sum_cons]
    omega

theorem weigh_congr {μ : Type} {g : κ → μ → Nat} {m' : Map κ μ} (h : ν → μ)
    (hlookup : ∀ k, (m.lookup k).map h = m'.lookup k) (hfg : ∀ k v, f k v = g k (h v)) : weigh f m = weigh g m' := by
  let image : List ((_ : κ) × μ) := m.entries.map fun e => ⟨e.1, h e.2⟩
  have hkeys : image.keys = m.entries.keys := by
    simp [image, keys]
  have hnodup : image.NodupKeys := by
    unfold List.NodupKeys
    rw [hkeys]
    exact m.nodupKeys
  have hperm : image.Perm m'.entries := by
    refine lookup_ext hnodup m'.nodupKeys fun k v => ?_
    rw [mem_dlookup_iff hnodup, mem_dlookup_iff m'.nodupKeys, mem_entries, ← hlookup k]
    simp only [image, mem_map, Option.map_eq_some_iff]
    constructor
    · rintro ⟨⟨k', w⟩, hmem, heq⟩
      cases heq
      exact ⟨w, mem_entries.1 hmem, rfl⟩
    · rintro ⟨w, hw, rfl⟩
      exact ⟨⟨k, w⟩, mem_entries.2 hw, rfl⟩
  have hsum : weigh f m = (image.map fun e => g e.1 e.2).sum := by
    rw [map_map]
    exact congrArg sum (map_congr_left fun e _ => hfg e.1 e.2)
  rw [hsum]
  exact (hperm.map _).sum_nat

def setAt (k : κ) (v : Option ν) (m : Map κ ν) : Map κ ν := v.elim (AList.erase k m) (fun v => AList.insert k v m)

theorem lookup_setAt (v : Option ν) : (setAt k v m).lookup k' = if k' = k then v else m.lookup k' := by
  cases v with
  | none => exact lookup_erase
  | some v => exact lookup_insert

theorem weigh_setAt (v : Option ν) : weigh f (setAt k v m) = v.elim 0 (f k) + weigh f (AList.erase k m) := by
  cases v with
  | none => exact (zero_add _).symm
  | some v => exact weigh_insert

end Map

/-! ## Folds that change one key at a time -/

variable {σ τ β : Type} [DecidableEq τ] (f : σ → τ → σ) (view : σ → τ → β) (g : τ → β → β)
  (hf : ∀ s t t', view (f s t) t' = if t' = t then g t' (view s t') else view s t')
include hf

theorem foldl_view : ∀ (l : List τ) (s : σ) (t : τ), view (l.foldl f s) t = (g t)^[l.count t] (view s t)
  | [], _, _ => rfl
  | a :: l, s, t => by
    rw [foldl_cons, foldl_view l, hf]
    by_cases h : t = a
    · subst h
      rw [if_pos rfl, count_cons_self, Function.iterate_succ_apply]
    · rw [if_neg h, count_cons_of_ne (Ne.symm h)]

theorem foldl_view_nodup {l : List τ} (hl : l.Nodup) (s : σ) (t : τ) :
    view (l.foldl f s) t = if t ∈ l then g t (view s t) else view s t := by
  rw [foldl_view f view g hf, hl.count]
  split <;> rfl

end Lib
