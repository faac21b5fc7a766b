/-!
# LibPatch — stores and the changes made to them

A store binds keys to values.  A patch says, key by key, what a change does: nothing, remove, or bind.  Patches compose
(the later one wins on every key both change) and composition is what applying one after the other does
(`apply_seq`, `foldl_apply`).  Patches that change no common key may be applied in any order (`seqAll_perm`).
-/
namespace Lib

abbrev Store (κ ν : Type) := κ → Option ν

/-- A change to a store: `none` leaves the key alone, `some none` removes it, `some (some v)` binds it to `v`. -/
abbrev Patch (κ ν : Type) := κ → Option (Option ν)

namespace Patch

variable {κ ν : Type}

def skip : Patch κ ν := fun _ => none

def put [DecidableEq κ] (k : κ) (v : ν) : Patch κ ν := fun k' => if k' = k then some (some v) else none

def del [DecidableEq κ] (k : κ) : Patch κ ν := fun k' => if k' = k then some none else none

def erase (P : κ → Bool) : Patch κ ν := fun k => bif P k then some none else none

def seq (p q : Patch κ ν) : Patch κ ν := fun k => (q k).or (p k)

def seqAll (l : List (Patch κ ν)) : Patch κ ν := l.foldr seq skip

def apply (p : Patch κ ν) (m : Store κ ν) : Store κ ν := fun k => (p k).getD (m k)

def Apart (p q : Patch κ ν) : Prop := ∀ k, p k = none ∨ q k = none

variable {p q : Patch κ ν}

theorem Apart.symm (h : Apart p q) : Apart q p := fun k => (h k).symm

theorem apply_seq (m : Store κ ν) : apply (seq p q) m = apply q (apply p m) := by
  funext k
  unfold apply seq
  cases q k <;> rfl

@[simp] theorem seqAll_nil : seqAll ([] : List (Patch κ ν)) = skip := rfl

@[simp] theorem seqAll_cons (l : List (Patch κ ν)) : seqAll (p :: l) = seq p (seqAll l) := rfl

theorem seq_assoc (p q r : Patch κ ν) : seq (seq p q) r = seq p (seq q r) := by
  funext k
  unfold seq
  cases r k <;> rfl

theorem skip_seq : seq skip p = p := by
  funext k
  unfold seq
  cases p k <;> rfl

theorem seqAll_append : ∀ (l₁ l₂ : List (Patch κ ν)), seqAll (l₁ ++ l₂) = seq (seqAll l₁) (seqAll l₂)
  | [], l₂ => skip_seq.symm
  | p :: l₁, l₂ => by rw [List.cons_append, seqAll_cons, seqAll_cons, seqAll_append l₁ l₂, seq_assoc]

theorem foldl_apply : ∀ (l : List (Patch κ ν)) (m : Store κ ν), l.foldl (fun m p => apply p m) m = apply (seqAll l) m
  | [], _ => rfl
  | p :: l, m => by rw [List.foldl_cons, foldl_apply l, seqAll_cons, apply_seq]

variable {k : κ}

theorem seqAll_eq_none : ∀ {l : List (Patch κ ν)}, seqAll l k = none ↔ ∀ p ∈ l, p k = none
  | [] => by simp [skip]
  | p :: l => by
    rw [seqAll_cons, List.forall_mem_cons, ← seqAll_eq_none (l := l)]
    unfold seq
    cases seqAll l k <;> simp

theorem apply_of_none {l : List (Patch κ ν)} (h : ∀ p ∈ l, p k = none) (m : Store κ ν) : apply (seqAll l) m k = m k := by
  rw [apply, seqAll_eq_none.2 h, Option.getD_none]

theorem seqAll_of_last {post : List (Patch κ ν)} (pre : List (Patch κ ν)) (hp : p k ≠ none)
    (hpost : ∀ q ∈ post, q k = none) : seqAll (pre ++ p :: post) k = p k := by
  rw [seqAll_append, seqAll_cons]
  unfold seq
  rw [seqAll_eq_none.2 hpost]
  cases hpk : p k with
  | none => exact absurd hpk hp
  | some v => rfl

variable {v : Option ν}

theorem exists_of_seqAll : ∀ {l : List (Patch κ ν)}, seqAll l k = some v → ∃ p ∈ l, p k = some v
  | [], h => by cases h
  | p :: l, h => by
    rw [seqAll_cons] at h
    unfold seq at h
    cases hl : seqAll l k with
    | none =>
      rw [hl] at h
      exact ⟨p, List.mem_cons_self, h⟩
    | some w =>
      rw [hl] at h
      obtain ⟨q, hq, hqk⟩ := exists_of_seqAll (hl.trans h)
      exact ⟨q, List.mem_cons_of_mem p hq, hqk⟩

variable {l : List (Patch κ ν)}

theorem seqAll_of_agree (hp : p ∈ l) (hpk : p k = some v)
    (hl : ∀ q ∈ l, q k = none ∨ q k = some v) : seqAll l k = some v := by
  cases hs : seqAll l k with
  | none =>
    rw [seqAll_eq_none.1 hs p hp] at hpk
    cases hpk
  | some v' =>
    obtain ⟨q, hq, hqk⟩ := exists_of_seqAll hs
    rcases hl q hq with hn | hv
    · rw [hn] at hqk; cases hqk
    · rw [← hqk, hv]

theorem seq_comm (h : Apart p q) : seq p q = seq q p := by
  funext k
  unfold seq
  rcases h k with h | h <;> rw [h] <;> cases p k <;> cases q k <;> rfl

/-- **Patches that change no common key compose to the same change in any order.** -/
theorem seqAll_perm {l' : List (Patch κ ν)} (h : l.Perm l') (hp : l.Pairwise Apart) : seqAll l = seqAll l' := by
  induction h with
  | nil => rfl
  | cons p _ ih => rw [seqAll_cons, seqAll_cons, ih hp.of_cons]
  | swap p q l =>
    have hqp : Apart q p := List.rel_of_pairwise_cons hp List.mem_cons_self
    rw [seqAll_cons, seqAll_cons, seqAll_cons, seqAll_cons, ← seq_assoc, ← seq_assoc, seq_comm hqp]
  | trans h₁ _ ih₁ ih₂ => rw [ih₁ hp, ih₂ (hp.perm h₁ Apart.symm)]

end Patch
end Lib
