import Mathlib.Data.List.Basic
/-!
# LibBatch — scanning in batches

A scan of an ordered list gives up to `limit` of its elements, all of them if the limit is zero.  What it leaves out comes
after everything it gives (`mem_upTo_or`), so a scan that gives nothing leaves nothing out.  `batchOf` cuts the last
element off a scan, to start the next one with; a scan of one element is a batch of its own.
-/
namespace Lib

open List

variable {α : Type}

def upTo (limit : Nat) (l : List α) : List α := if limit = 0 then l else l.take limit

variable (limit : Nat) (l : List α)

theorem upTo_nil : upTo limit ([] : List α) = [] := by
  unfold upTo
  split
  · rfl
  · exact take_nil

theorem upTo_cons (a : α) : upTo limit (a :: l) = a :: if limit = 1 then [] else upTo (limit - 1) l := by
  match limit with
  | 0 => rfl
  | 1 => rfl
  | n + 2 => rfl

theorem upTo_sublist : (upTo limit l).Sublist l := by
  unfold upTo
  split
  · exact List.Sublist.refl l
  · exact take_sublist _ _

theorem map_upTo {β : Type} (f : α → β) : (upTo limit l).map f = upTo limit (l.map f) := by
  unfold upTo
  rw [apply_ite (map f), map_take]

theorem length_upTo_le (hlimit : limit ≠ 0) : (upTo limit l).length ≤ limit := by
  unfold upTo
  rw [if_neg hlimit]
  exact length_take_le _ _

variable {limit l} {r : α → α → Prop}

theorem mem_upTo_or (hl : l.Pairwise r) {x : α} (hx : x ∈ l) :
    x ∈ upTo limit l ∨ upTo limit l ≠ [] ∧ ∀ y ∈ upTo limit l, r y x := by
  unfold upTo
  by_cases hlimit : limit = 0
  · rw [if_pos hlimit]
    exact .inl hx
  rw [if_neg hlimit]
  have hsplit := take_append_drop limit l
  rw [← hsplit] at hl hx
  rcases mem_append.1 hx with hx | hx
  · exact .inl hx
  refine .inr ⟨fun hnil => ?_, fun y hy => (pairwise_append.1 hl).2.2 y hy x hx⟩
  rcases take_eq_nil_iff.1 hnil with h | h
  · exact hlimit h
  rw [h, drop_nil] at hx
  cases hx

def batchOf (l : List α) : Option (α × List α) :=
  l.getLast?.map fun last => (last, if l.length > 1 then l.dropLast else l)

theorem batchOf_eq_none : batchOf l = none ↔ l = [] := by
  unfold batchOf
  rw [Option.map_eq_none_iff, getLast?_eq_none_iff]

theorem batchOf_eq_some {batch : List α} {next : α} (hl : l.Pairwise r) (h : batchOf l = some (next, batch)) :
    next ∈ l ∧ batch.Sublist l ∧ (∀ x ∈ l, x = next ∨ r x next) ∧ ∀ x ∈ l, x = next ∨ x ∈ batch := by
  obtain ⟨last, hlast, heq⟩ := Option.map_eq_some_iff.1 h
  cases heq
  have hsplit := dropLast_append_getLast? _ hlast
  have hmem : ∀ x ∈ l, x = next ∨ x ∈ l.dropLast := by
    intro x hx
    rw [← hsplit] at hx
    rcases mem_append.1 hx with hx | hx
    · exact .inr hx
    · exact .inl (mem_singleton.1 hx)
  refine ⟨mem_of_getLast? hlast, ?_, fun x hx => (hmem x hx).imp_right fun hx => ?_, fun x hx => ?_⟩
  · split
    · exact dropLast_sublist l
    · exact List.Sublist.refl l
  · rw [← hsplit] at hl
    exact (pairwise_append.1 hl).2.2 x hx next mem_cons_self
  · split
    · exact hmem x hx
    · exact .inr hx

end Lib
