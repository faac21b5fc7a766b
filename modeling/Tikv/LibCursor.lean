/-!
# LibCursor — cursors over a list, and scans by turns

A cursor stands at an entry of a list, steps to the entry before or after it, and seeks by a test that holds of the entries
up to some place.  A scanner is a function that takes one turn: it says that it is at the end, or goes on with an
output or without one.  Its caller draws outputs until there is none; `drain_of_turns` is what the caller gets.
-/
namespace Lib

open List

theorem fails_of_mem_dropWhile {α : Type} {p : α → Bool} : ∀ {l : List α}, (l.Pairwise fun a b => p b = true → p a = true) →
    ∀ y ∈ l.dropWhile p, p y = false
  | [], _, _, hy => nomatch hy
  | e :: l, hl, y, hy => by
    obtain ⟨hhead, htail⟩ := pairwise_cons.1 hl
    by_cases he : p e = true
    · rw [dropWhile_cons_of_pos he] at hy
      exact fails_of_mem_dropWhile htail y hy
    rw [dropWhile_cons_of_neg he] at hy
    refine Bool.eq_false_iff.2 fun hp => he ?_
    rcases mem_cons.1 hy with rfl | hy
    · exact hp
    · exact hhead y hy hp

/-- **A cursor**: the entry it stands at and those before it, nearest first, and those after it.  With `upto` empty it is
not valid. -/
structure Cursor (α : Type) where
  upto : List α
  after : List α

namespace Cursor

variable {α : Type}

def all (c : Cursor α) : List α := c.upto.reverse ++ c.after

def valid (c : Cursor α) : Bool := !c.upto.isEmpty

def current? (c : Cursor α) : Option α := c.upto.head?

def next : Cursor α → Cursor α
  | ⟨upto, []⟩ => ⟨[], upto.reverse⟩
  | ⟨upto, e :: after⟩ => ⟨e :: upto, after⟩

def prev : Cursor α → Cursor α
  | ⟨[], after⟩ => ⟨[], after⟩
  | ⟨e :: upto, after⟩ => ⟨upto, e :: after⟩

def seek (below : α → Bool) (c : Cursor α) : Cursor α :=
  match c.all.dropWhile below with
  | [] => ⟨[], c.all⟩
  | e :: after => ⟨e :: (c.all.takeWhile below).reverse, after⟩

def seekForPrev (below : α → Bool) (c : Cursor α) : Cursor α :=
  ⟨(c.all.takeWhile below).reverse, c.all.dropWhile below⟩

/-- Where a cursor stands: `rest` is the entry it is at and those after, `before` those before, nearest first. -/
inductive Stands : Cursor α → (before rest : List α) → Prop
  | at (e : α) (before after : List α) : Stands ⟨e :: before, after⟩ before (e :: after)
  | off (before : List α) : Stands ⟨[], before.reverse⟩ before []

variable {c : Cursor α}

theorem Stands.all_eq {before rest : List α} (h : c.Stands before rest) :
    c.all = before.reverse ++ rest := by
  cases h <;> simp [all]

theorem stands_next (e : α) (before : List α) : ∀ after : List α, (next ⟨e :: before, after⟩).Stands (e :: before) after
  | [] => .off _
  | e' :: after => .at e' (e :: before) after

theorem stands_seek (c : Cursor α) (below : α → Bool) :
    (c.seek below).Stands (c.all.takeWhile below).reverse (c.all.dropWhile below) := by
  have happ := takeWhile_append_dropWhile (p := below) (l := c.all)
  unfold seek
  split
  · rename_i hdrop
    rw [hdrop, append_nil] at happ
    have h := Stands.off (c.all.takeWhile below).reverse
    rw [reverse_reverse, happ] at h
    rw [hdrop, happ]
    exact h
  · rename_i e after hdrop
    rw [hdrop]
    exact .at e _ after

variable {below : α → Bool}

theorem seek_eq {l l' : List α} {e : α} (hall : c.all = l ++ e :: l')
    (hl : ∀ x ∈ l, below x = true) (he : below e = false) : c.seek below = ⟨e :: l.reverse, l'⟩ := by
  unfold seek
  rw [hall, dropWhile_append_of_pos hl, takeWhile_append_of_pos hl,
    dropWhile_cons_of_neg (Bool.eq_false_iff.1 he), takeWhile_cons_of_neg (Bool.eq_false_iff.1 he),
    append_nil]

@[simp] theorem all_seek : (c.seek below).all = c.all := by
  rw [(stands_seek c below).all_eq, reverse_reverse, takeWhile_append_dropWhile]

theorem seekForPrev_eq {l l' : List α} (hall : c.all = l ++ l')
    (hl : ∀ x ∈ l, below x = true) (hl' : ∀ x ∈ l', below x = false) : c.seekForPrev below = ⟨l.reverse, l'⟩ := by
  have hstop : l'.dropWhile below = l' ∧ l'.takeWhile below = [] := by
    cases l' with
    | nil => exact ⟨rfl, rfl⟩
    | cons e l' =>
      have he := Bool.eq_false_iff.1 (hl' e mem_cons_self)
      exact ⟨dropWhile_cons_of_neg he, takeWhile_cons_of_neg he⟩
  unfold seekForPrev
  rw [hall, dropWhile_append_of_pos hl, takeWhile_append_of_pos hl, hstop.1, hstop.2, append_nil]

end Cursor

/-! ## Scans -/

section Scan

variable {σ β : Type} (turn : σ → Option (Option β × σ))

/-- Turns until one has an output; at most `n` of them. -/
def readNext : (n : Nat) → σ → Option (β × σ)
  | 0, _ => none
  | n + 1, s =>
    match turn s with
    | none => none
    | some (some b, s') => some (b, s')
    | some (none, s') => readNext n s'

def drain : (n : Nat) → σ → List β
  | 0, _ => []
  | n + 1, s =>
    match readNext turn (n + 1) s with
    | none => []
    | some (b, s') => b :: drain n s'

/-- The turns from a state on, to the end, each with what it puts out. -/
inductive Turns : σ → List (Option β) → Prop
  | done {s : σ} (h : turn s = none) : Turns s []
  | step {s s' : σ} {o : Option β} {os : List (Option β)} (h : turn s = some (o, s')) (hs : Turns s' os) :
      Turns s (o :: os)

variable {turn}

theorem readNext_of_turns {s : σ} {os : List (Option β)} (h : Turns turn s os) : ∀ {n : Nat}, os.length ≤ n →
    (readNext turn n s = none ∧ os.filterMap id = []) ∨
      ∃ b s' os', readNext turn n s = some (b, s') ∧ Turns turn s' os' ∧ os.filterMap id = b :: os'.filterMap id ∧
        os'.length < os.length := by
  induction h with
  | done h =>
    intro n _
    refine .inl ⟨?_, rfl⟩
    cases n with
    | zero => rfl
    | succ n => rw [readNext, h]
  | @step s s' o os h hs ih =>
    intro n hn
    cases n with
    | zero => exact absurd hn (Nat.not_succ_le_zero _)
    | succ n =>
      rw [readNext, h]
      cases o with
      | some b => exact .inr ⟨b, s', os, rfl, hs, rfl, Nat.lt_succ_self _⟩
      | none =>
        rcases ih (Nat.le_of_succ_le_succ hn) with hnone | ⟨b, t, os', hread, ht, heq, hlt⟩
        · exact .inl hnone
        · exact .inr ⟨b, t, os', hread, ht, heq, Nat.lt_succ_of_lt hlt⟩

theorem drain_of_turns : ∀ {n : Nat} {s : σ} {os : List (Option β)}, Turns turn s os → os.length ≤ n →
    drain turn n s = os.filterMap id
  | 0, s, os, _, hn => by
    rw [length_eq_zero_iff.1 (Nat.le_zero.1 hn)]
    rfl
  | n + 1, s, os, h, hn => by
    rw [drain]
    rcases readNext_of_turns h hn with ⟨hread, hos⟩ | ⟨b, s', os', hread, hs', hos, hlt⟩
    · rw [hread, hos]
    rw [hread, hos]
    exact congrArg (b :: ·) (drain_of_turns hs' (Nat.le_of_lt_succ (Nat.lt_of_lt_of_le hlt hn)))

end Scan

end Lib
