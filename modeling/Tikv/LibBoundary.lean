import Mathlib.Data.Set.Basic
/-!
# LibBoundary — boundaries of a scan in either direction

A scan goes up or down a linear order.  A boundary has some elements behind it: going up those below it, going down those
from it on.  Between two boundaries lie the elements that are behind the second but not the first; pieces that follow each
other without a gap are disjoint and together cover what lies between the outermost boundaries (`Tiles.mem_iff`).
-/
namespace Lib

section

variable {α : Type*} [LinearOrder α] {back : Bool} {b c d k : α}

def Behind (back : Bool) (b k : α) : Prop := if back then b ≤ k else k < b

def NoLater (back : Bool) (b c : α) : Prop := if back then c ≤ b else b ≤ c

@[simp] theorem noLater_refl : NoLater back b b := by
  cases back <;> simp [NoLater]

theorem NoLater.trans (h : NoLater back b c) (h' : NoLater back c d) : NoLater back b d := by
  cases back with
  | false => exact le_trans (α := α) h h'
  | true => exact le_trans (α := α) h' h

theorem NoLater.antisymm (h : NoLater back b c) (h' : NoLater back c b) : b = c := by
  cases back with
  | false => exact le_antisymm (α := α) h h'
  | true => exact le_antisymm (α := α) h' h

theorem Behind.noLater (hk : Behind back b k) (hd : ¬ Behind back b d) : NoLater back k d := by
  cases back with
  | false => exact (lt_of_lt_of_le (α := α) hk (not_lt.1 hd)).le
  | true => exact (lt_of_lt_of_le (not_le.1 hd) hk).le

theorem Behind.mono (h : NoLater back b c) (hk : Behind back b k) : Behind back c k := by
  cases back with
  | false => exact lt_of_lt_of_le (α := α) hk h
  | true => exact le_trans (α := α) h hk

def between (back : Bool) (b c : α) : Set α := {k | ¬ Behind back b k ∧ Behind back c k}

theorem mem_between : k ∈ between back b c ↔ ¬ Behind back b k ∧ Behind back c k := Iff.rfl

/-- Pieces that follow each other without a gap, from one boundary to another. -/
inductive Tiles (back : Bool) : α → List (α × α) → α → Prop
  | nil (b : α) : Tiles back b [] b
  | cons {b c d : α} {l : List (α × α)} (h : NoLater back b c) (rest : Tiles back c l d) : Tiles back b ((b, c) :: l) d

variable {l : List (α × α)}

section

variable (h : Tiles back b l c)
include h

theorem Tiles.noLater : NoLater back b c := by
  induction h with
  | nil => exact noLater_refl
  | cons h _ ih => exact h.trans ih

theorem Tiles.mem_iff :
    (∃ p ∈ l, k ∈ between back p.1 p.2) ↔ k ∈ between back b c := by
  induction h with
  | nil b => simp [mem_between]
  | @cons b c d l hbc rest ih =>
    have hcd := rest.noLater
    have hsplit : (∃ p ∈ (b, c) :: l, k ∈ between back p.1 p.2) ↔
        k ∈ between back b c ∨ ∃ p ∈ l, k ∈ between back p.1 p.2 := by simp
    rw [hsplit, ih]
    constructor
    · rintro (⟨hb, hc⟩ | ⟨hc, hd⟩)
      · exact ⟨hb, hc.mono hcd⟩
      · exact ⟨fun hb => hc (hb.mono hbc), hd⟩
    · rintro ⟨hb, hd⟩
      by_cases hc : Behind back c k
      · exact .inl ⟨hb, hc⟩
      · exact .inr ⟨hc, hd⟩

theorem Tiles.pairwise_disjoint :
    l.Pairwise fun p q => ∀ k ∈ between back p.1 p.2, k ∉ between back q.1 q.2 := by
  induction h with
  | nil => exact .nil
  | @cons b c d l _ rest ih =>
    refine .cons (fun q hq k hk hk' => ?_) ih
    have := rest.mem_iff.1 ⟨q, hq, hk'⟩
    exact this.1 hk.2

end

end

end Lib
