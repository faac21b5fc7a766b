import Tikv.LibSortedView
/-!
# LibChain — version chains

A chain keeps values at distinct positions of a linear order, newest position first.  What a chain holds is said by
membership of its entries; `find` is the newest entry that passes a test, which is what a seek, and every loop that walks
the chain down from its head, comes to.
-/
namespace Lib

open List

/-- **A version chain**: at most one value a position, newest first. -/
structure Chain (τ ν : Type) [LT τ] where
  entries : List (τ × ν)
  sorted : entries.Pairwise fun a b => b.1 < a.1

namespace Chain

variable {τ ν : Type} [LinearOrder τ]

def empty : Chain τ ν := ⟨[], .nil⟩

def find (p : τ × ν → Bool) (c : Chain τ ν) : Option (τ × ν) := c.entries.find? p

def seek (t : τ) (c : Chain τ ν) : Option (τ × ν) := c.find fun e => decide (e.1 ≤ t)

def lookup (t : τ) (c : Chain τ ν) : Option ν := (c.find fun e => decide (e.1 = t)).map (·.2)

/-! ## What a chain holds -/

variable {c : Chain τ ν} {t u : τ} {v : ν}

theorem eq_of_mem {w : ν} (hv : (t, v) ∈ c.entries) (hw : (t, w) ∈ c.entries) : v = w := by
  cases eq_of_mem_of_pairwise (c.sorted.imp ne_of_gt) hv hw rfl
  rfl

variable {e : τ × ν} {p : τ × ν → Bool}

/-- **The newest entry that passes a test** is the one no other passing entry is above. -/
theorem find_eq_some :
    c.find p = some e ↔ e ∈ c.entries ∧ p e = true ∧ ∀ e' ∈ c.entries, p e' = true → e'.1 ≤ e.1 := by
  refine (find?_eq_some_of_pairwise (fun _ _ h => not_lt_of_gt h) c.sorted).trans ?_
  exact and_congr_right fun he => and_congr_right fun _ => forall₂_congr fun e' he' => imp_congr_right fun _ =>
    eq_or_lt_iff (c.sorted.imp ne_of_gt) he' he

theorem find_eq_none : c.find p = none ↔ ∀ e ∈ c.entries, p e = false := by
  unfold find
  simp

theorem seek_eq_some : c.seek t = some (u, v) ↔ (u, v) ∈ c.entries ∧ u ≤ t ∧ ∀ e ∈ c.entries, e.1 ≤ t → e.1 ≤ u := by
  unfold seek
  simp [find_eq_some]

theorem lookup_eq_some : c.lookup t = some v ↔ (t, v) ∈ c.entries := by
  unfold lookup
  rw [Option.map_eq_some_iff]
  constructor
  · rintro ⟨⟨u, w⟩, hfind, rfl⟩
    obtain ⟨hmem, hu, _⟩ := find_eq_some.1 hfind
    rw [decide_eq_true_eq] at hu
    rwa [← hu]
  · intro hmem
    refine ⟨(t, v), find_eq_some.2 ⟨hmem, decide_eq_true rfl, fun e' _ he' => ?_⟩, rfl⟩
    exact le_of_eq (of_decide_eq_true he')

theorem lookup_eq_none : c.lookup t = none ↔ ∀ v, (t, v) ∉ c.entries := by
  rw [Option.eq_none_iff_forall_ne_some]
  exact forall_congr' fun v => not_congr lookup_eq_some

/-! ## Writing -/

def insertEntry (t : τ) (v : ν) : List (τ × ν) → List (τ × ν)
  | [] => [(t, v)]
  | e :: l => if e.1 < t then (t, v) :: e :: l else if e.1 = t then (t, v) :: l else e :: insertEntry t v l

theorem mem_insertEntry : ∀ {l : List (τ × ν)}, (l.Pairwise fun a b => b.1 < a.1) →
    (e ∈ insertEntry t v l ↔ e = (t, v) ∨ (e ∈ l ∧ e.1 ≠ t))
  | [], _ => by simp [insertEntry]
  | a :: l, hl => by
    obtain ⟨hhead, htail⟩ := pairwise_cons.1 hl
    unfold insertEntry
    split
    · rename_i hlt
      have hne : e ∈ a :: l → e.1 ≠ t := by
        intro hmem
        rcases mem_cons.1 hmem with rfl | hmem
        · exact ne_of_lt hlt
        · exact ne_of_lt ((hhead e hmem).trans hlt)
      rw [mem_cons]
      exact or_congr_right ⟨fun h => ⟨h, hne h⟩, And.left⟩
    · split
      · rename_i heq
        have hne : e ∈ l → e.1 ≠ t := fun hmem => heq ▸ ne_of_lt (hhead e hmem)
        rw [mem_cons, mem_cons]
        refine or_congr_right ⟨fun h => ⟨.inr h, hne h⟩, ?_⟩
        rintro ⟨rfl | h, hne'⟩
        · exact absurd heq hne'
        · exact h
      · rename_i heq
        rw [mem_cons, mem_cons, mem_insertEntry htail]
        rw [or_left_comm, or_and_right]
        exact or_congr_right (or_congr_left ⟨fun h => ⟨h, h ▸ heq⟩, And.left⟩)

theorem sorted_insertEntry : ∀ {l : List (τ × ν)}, (l.Pairwise fun a b => b.1 < a.1) →
    (insertEntry t v l).Pairwise fun a b => b.1 < a.1
  | [], _ => pairwise_singleton _ _
  | a :: l, hl => by
    obtain ⟨hhead, htail⟩ := pairwise_cons.1 hl
    unfold insertEntry
    split
    · rename_i hlt
      exact pairwise_cons.2 ⟨forall_mem_cons.2 ⟨hlt, fun e he => (hhead e he).trans hlt⟩, hl⟩
    · rename_i hlt
      split
      · rename_i heq
        exact pairwise_cons.2 ⟨fun e he => heq ▸ hhead e he, htail⟩
      rename_i hne
      refine pairwise_cons.2 ⟨fun e he => ?_, sorted_insertEntry htail⟩
      rcases (mem_insertEntry htail).1 he with rfl | ⟨he, _⟩
      · exact lt_of_le_of_ne (not_lt.1 hlt) (Ne.symm hne)
      · exact hhead e he

def insert (t : τ) (v : ν) (c : Chain τ ν) : Chain τ ν := ⟨insertEntry t v c.entries, sorted_insertEntry c.sorted⟩

def erase (t : τ) (c : Chain τ ν) : Chain τ ν := ⟨c.entries.filter (·.1 ≠ t), c.sorted.filter _⟩

theorem mem_insert :
    e ∈ (c.insert t v).entries ↔ e = (t, v) ∨ (e ∈ c.entries ∧ e.1 ≠ t) := mem_insertEntry c.sorted

theorem forall_mem_insert {P : τ × ν → Prop} (hnew : P (t, v)) (hold : ∀ e ∈ c.entries, e.1 ≠ t → P e) :
    ∀ e ∈ (c.insert t v).entries, P e := by
  intro e he
  rcases mem_insert.1 he with rfl | ⟨he, hne⟩
  · exact hnew
  · exact hold e he hne

theorem mem_erase : e ∈ (c.erase t).entries ↔ e ∈ c.entries ∧ e.1 ≠ t := by
  unfold erase
  simp

theorem lookup_insert : (c.insert t v).lookup u = if u = t then some v else c.lookup u := by
  apply Option.ext
  intro w
  rw [lookup_eq_some, mem_insert]
  by_cases h : u = t
  · simp [h, eq_comm]
  · simp [h, lookup_eq_some]

theorem lookup_erase : (c.erase t).lookup u = if u = t then none else c.lookup u := by
  apply Option.ext
  intro w
  rw [lookup_eq_some, mem_erase]
  by_cases h : u = t
  · simp [h]
  · simp [h, lookup_eq_some]

end Chain
end Lib
