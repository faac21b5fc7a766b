import Mathlib.Data.List.Sort
import Tikv.LibChain
import Tikv.LibMap
/-!
# LibOverlay — a batch of entries written over a chain

An overlay puts a value at, or takes it away from, each position it names, one after the other.  At a position it names once
the chain reads afterwards what the overlay says; elsewhere it reads what it read before.  A chain is known by what it reads
(`Chain.ext_lookup`).
-/
namespace Lib
namespace Chain

open List

variable {τ ν : Type} [LinearOrder τ]

theorem ext_lookup {c c' : Chain τ ν} (h : ∀ t, c.lookup t = c'.lookup t) : c = c' := by
  have hmem : ∀ e, e ∈ c.entries ↔ e ∈ c'.entries := by
    rintro ⟨t, v⟩
    rw [← lookup_eq_some, ← lookup_eq_some, h t]
  obtain ⟨l, hl⟩ := c
  obtain ⟨l', hl'⟩ := c'
  cases hl.eq_of_mem_iff hl' hmem
  rfl

section

variable (c : Chain τ ν)
include c

theorem nodupKeys : (c.entries.map fun e => (⟨e.1, e.2⟩ : Sigma fun _ : τ => ν)).NodupKeys := by
  unfold List.NodupKeys keys
  rw [map_map]
  exact pairwise_map.2 (c.sorted.imp ne_of_gt)

def toMap (c : Chain τ ν) : Map τ ν := ⟨c.entries.map fun e => ⟨e.1, e.2⟩, c.nodupKeys⟩

theorem lookup_toMap (t : τ) : c.toMap.lookup t = c.lookup t := by
  apply Option.ext
  intro v
  rw [← Map.mem_entries, lookup_eq_some]
  unfold toMap
  simp

def set (c : Chain τ ν) (e : τ × Option ν) : Chain τ ν := e.2.elim (c.erase e.1) (c.insert e.1)

theorem lookup_set (e : τ × Option ν) (t : τ) :
    (c.set e).lookup t = if t = e.1 then e.2 else c.lookup t := by
  obtain ⟨u, o⟩ := e
  cases o with
  | none => exact lookup_erase
  | some v => exact lookup_insert

def overlay (c : Chain τ ν) (l : List (τ × Option ν)) : Chain τ ν := l.foldl set c

@[simp] theorem overlay_cons (e : τ × Option ν) (l : List (τ × Option ν)) :
    c.overlay (e :: l) = (c.set e).overlay l := rfl

theorem overlay_append (l l' : List (τ × Option ν)) :
    c.overlay (l ++ l') = (c.overlay l).overlay l' := foldl_append

end

theorem lookup_overlay_of_forall_ne {t : τ} : ∀ {l : List (τ × Option ν)} (c : Chain τ ν), (∀ e ∈ l, e.1 ≠ t) →
    (c.overlay l).lookup t = c.lookup t
  | [], _, _ => rfl
  | e :: l, c, h => by
    rw [overlay_cons, lookup_overlay_of_forall_ne _ fun e' he' => h e' (mem_cons_of_mem e he'), lookup_set,
      if_neg (h e mem_cons_self).symm]

theorem lookup_overlay_of_mem {t : τ} {o : Option ν} : ∀ {l : List (τ × Option ν)} (c : Chain τ ν),
    (l.Pairwise fun a b => a.1 ≠ b.1) → (t, o) ∈ l → (c.overlay l).lookup t = o
  | e :: l, c, hl, hmem => by
    obtain ⟨hhead, htail⟩ := pairwise_cons.1 hl
    rw [overlay_cons]
    rcases mem_cons.1 hmem with rfl | hmem
    · rw [lookup_overlay_of_forall_ne _ fun e' he' => (hhead e' he').symm, lookup_set, if_pos rfl]
    · exact lookup_overlay_of_mem _ htail hmem

theorem overlay_filter_isSome : ∀ {l : List (τ × Option ν)} (c : Chain τ ν), (l.Pairwise fun a b => a.1 ≠ b.1) →
    (∀ e ∈ l, e.2 = none → c.lookup e.1 = none) → c.overlay (l.filter (·.2.isSome)) = c.overlay l
  | [], _, _, _ => rfl
  | (t, some v) :: l, c, hl, h => by
    obtain ⟨hhead, htail⟩ := pairwise_cons.1 hl
    rw [filter_cons_of_pos rfl]
    refine overlay_filter_isSome _ htail fun e he hnone => ?_
    rw [lookup_set, if_neg (hhead e he).symm]
    exact h e (mem_cons_of_mem _ he) hnone
  | (t, none) :: l, c, hl, h => by
    obtain ⟨-, htail⟩ := pairwise_cons.1 hl
    have hset : c.set (t, none) = c := by
      refine ext_lookup fun u => ?_
      rw [lookup_set]
      split
      · rename_i hu
        subst hu
        exact (h _ mem_cons_self rfl).symm
      · rfl
    rw [overlay_cons, hset]
    exact overlay_filter_isSome c htail fun e he => h e (mem_cons_of_mem _ he)

end Chain
end Lib
