import Mathlib.Data.List.Pairwise
import Mathlib.Order.Lattice
/-!
# LibSortedView — a cursor over a sorted list of pairs

A view is a list of pairs with ascending keys.  Its cursor stands at a pair or nowhere, and is moved by seeks and steps.
Where it comes to is the first, or the last, pair whose key passes a test, and that is known by its bound
(`View.first_eq_some`, `View.last_eq_some`).
-/
namespace Lib

open List

theorem find?_eq_some_of_pairwise {α : Type} {R : α → α → Prop} (hR : ∀ a b, R a b → ¬ R b a) {p : α → Bool} {x : α} :
    ∀ {l : List α}, l.Pairwise R → (l.find? p = some x ↔ x ∈ l ∧ p x = true ∧ ∀ y ∈ l, p y = true → y = x ∨ R x y)
  | [], _ => by simp
  | a :: l, hl => by
    obtain ⟨hhead, htail⟩ := pairwise_cons.1 hl
    cases hp : p a with
    | true =>
      rw [find?_cons_of_pos hp]
      constructor
      · rintro ⟨⟩
        exact ⟨mem_cons_self, hp, forall_mem_cons.2 ⟨fun _ => .inl rfl, fun y hy _ => .inr (hhead y hy)⟩⟩
      · rintro ⟨hx, -, hfirst⟩
        rcases mem_cons.1 hx with rfl | hx
        · rfl
        rcases hfirst a mem_cons_self hp with rfl | hlt
        · rfl
        · exact absurd hlt (hR _ _ (hhead x hx))
    | false =>
      have ha : p a ≠ true := Bool.eq_false_iff.1 hp
      rw [find?_cons_of_neg ha, find?_eq_some_of_pairwise hR htail]
      constructor
      · rintro ⟨hx, hpx, hfirst⟩
        exact ⟨mem_cons_of_mem _ hx, hpx, forall_mem_cons.2 ⟨fun h => absurd h ha, hfirst⟩⟩
      · rintro ⟨hx, hpx, hfirst⟩
        exact ⟨(mem_cons.1 hx).resolve_left fun h => ha (h ▸ hpx), hpx, (forall_mem_cons.1 hfirst).2⟩

section Distinct

variable {κ ν : Type} {l : List (κ × ν)} {e e' : κ × ν}

section

variable (hl : l.Pairwise fun a b => a.1 ≠ b.1)
include hl

theorem eq_of_mem_of_pairwise (he : e ∈ l) (he' : e' ∈ l) (hkey : e.1 = e'.1) :
    e = e' := by
  have : Std.Symm fun a b : κ × ν => a.1 ≠ b.1 := ⟨fun _ _ => Ne.symm⟩
  by_contra hne
  exact hl.forall he he' hne hkey

theorem eq_or_lt_iff [LinearOrder κ] (he : e ∈ l) (he' : e' ∈ l) :
    e = e' ∨ e.1 < e'.1 ↔ e.1 ≤ e'.1 := by
  constructor
  · rintro (rfl | hlt)
    · exact le_refl _
    · exact le_of_lt hlt
  · exact fun hle => (eq_or_lt_of_le hle).imp_left (eq_of_mem_of_pairwise hl he he')

end

end Distinct

structure View (κ ν : Type) [LT κ] where
  pairs : List (κ × ν)
  sorted : pairs.Pairwise fun a b => a.1 < b.1

inductive Move (κ : Type)
  | seek (key : κ)
  | seekForPrev (key : κ)
  | seekToFirst
  | seekToLast
  | next
  | prev
deriving DecidableEq, Repr

namespace View

variable {κ ν : Type} [LinearOrder κ] (v : View κ ν)

def first (p : κ → Bool) : Option (κ × ν) := v.pairs.find? fun e => p e.1

def last (p : κ → Bool) : Option (κ × ν) := v.pairs.reverse.find? fun e => p e.1

/-- Where a move brings the cursor; a step is made from a pair. -/
def move (pos : Option (κ × ν)) : Move κ → Option (κ × ν)
  | .seek key => v.first fun k => decide (key ≤ k)
  | .seekForPrev key => v.last fun k => decide (k ≤ key)
  | .seekToFirst => v.first fun _ => true
  | .seekToLast => v.last fun _ => true
  | .next => pos.bind fun e => v.first fun k => decide (e.1 < k)
  | .prev => pos.bind fun e => v.last fun k => decide (k < e.1)

def lookup (key : κ) : Option ν := (v.first fun k => decide (k = key)).map (·.2)

variable {v} {p : κ → Bool} {e : κ × ν}

theorem move_next (hp : ∀ k, p k = true ↔ e.1 < k) : v.move (some e) .next = v.first p := by
  have heq : (fun k => decide (e.1 < k)) = p := funext fun k => Bool.eq_iff_iff.2 (decide_eq_true_iff.trans (hp k).symm)
  exact congrArg v.first heq

theorem move_prev (hp : ∀ k, p k = true ↔ k < e.1) : v.move (some e) .prev = v.last p := by
  have heq : (fun k => decide (k < e.1)) = p := funext fun k => Bool.eq_iff_iff.2 (decide_eq_true_iff.trans (hp k).symm)
  exact congrArg v.last heq

theorem first_eq_none : v.first p = none ↔ ∀ e ∈ v.pairs, p e.1 = false := by
  unfold first
  simp

theorem last_eq_none : v.last p = none ↔ ∀ e ∈ v.pairs, p e.1 = false := by
  unfold last
  simp

theorem first_eq_some :
    v.first p = some e ↔ e ∈ v.pairs ∧ p e.1 = true ∧ ∀ e' ∈ v.pairs, p e'.1 = true → e.1 ≤ e'.1 := by
  refine (find?_eq_some_of_pairwise (fun _ _ h => not_lt_of_gt h) v.sorted).trans ?_
  refine and_congr_right fun he => and_congr_right fun _ => forall₂_congr fun e' he' => imp_congr_right fun _ => ?_
  rw [eq_comm, eq_or_lt_iff (v.sorted.imp ne_of_lt) he he']

theorem last_eq_some :
    v.last p = some e ↔ e ∈ v.pairs ∧ p e.1 = true ∧ ∀ e' ∈ v.pairs, p e'.1 = true → e'.1 ≤ e.1 := by
  refine (find?_eq_some_of_pairwise (R := fun a b => b.1 < a.1) (fun _ _ h => not_lt_of_gt h)
    (pairwise_reverse.2 v.sorted)).trans ?_
  simp only [mem_reverse]
  exact and_congr_right fun he => and_congr_right fun _ => forall₂_congr fun e' he' => imp_congr_right fun _ =>
    eq_or_lt_iff (v.sorted.imp ne_of_lt) he' he

theorem last_congr {p' : κ → Bool} (h : ∀ e ∈ v.pairs, p e.1 = p' e.1) : v.last p = v.last p' := by
  cases hlast : v.last p' with
  | none => exact last_eq_none.2 fun e he => (h e he).trans (last_eq_none.1 hlast e he)
  | some x =>
    obtain ⟨hmem, hp, hmax⟩ := last_eq_some.1 hlast
    exact last_eq_some.2 ⟨hmem, (h x hmem).trans hp, fun e he hpe => hmax e he ((h e he).symm.trans hpe)⟩

theorem lookup_eq_some {key : κ} {w : ν} : v.lookup key = some w ↔ (key, w) ∈ v.pairs := by
  unfold lookup
  rw [Option.map_eq_some_iff]
  constructor
  · rintro ⟨⟨k, w'⟩, hfirst, rfl⟩
    obtain ⟨hmem, hkey, -⟩ := first_eq_some.1 hfirst
    cases of_decide_eq_true hkey
    exact hmem
  · intro hmem
    exact ⟨(key, w), first_eq_some.2 ⟨hmem, decide_eq_true rfl, fun e' _ hkey => ge_of_eq (of_decide_eq_true hkey)⟩, rfl⟩

end View

end Lib
