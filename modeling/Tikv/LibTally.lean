import Tikv.LibMap
/-!
# LibTally — counting the values of a map by deltas

A tally holds how often each value occurs, and no value that does not.  When a map changes key by key and the changes of
each key come as deltas in the order they were made, adding the deltas to the tally of the old values gives the tally of
the new ones, in whatever order the keys are taken, and no count falls below zero (`Tallies.walk`).
-/
namespace Lib

open List Map

variable {κ τ : Type} [DecidableEq κ] [DecidableEq τ]

def Tallies (t : Map τ Int) (n : τ → Nat) : Prop := ∀ s, t.lookup s = if n s = 0 then none else some (n s : Int)

/-- Adds to a count; a count of zero leaves, a negative one fails. -/
def bump (t : Map τ Int) (s : τ) (count : Int) : Option (Map τ Int) :=
  let sum := (t.lookup s).getD 0 + count
  if sum < 0 then none else if sum = 0 then some (t.erase s) else some (t.insert s sum)

variable {t : Map τ Int} {n : τ → Nat}

theorem Tallies.getD (h : Tallies t n) (s : τ) : (t.lookup s).getD 0 = n s := by
  rw [h s]
  split
  · rename_i h0
    rw [h0]; rfl
  · rfl

theorem Tallies.congr {n' : τ → Nat} (h : Tallies t n) (hn : ∀ s, n s = n' s) : Tallies t n' := by
  intro s
  rw [h s, hn s]

variable {s : τ}

theorem Tallies.bump (h : Tallies t n) (n' : τ → Nat) {count : Int}
    (hs : (n' s : Int) = n s + count) (hother : ∀ s', s' ≠ s → n' s' = n s') :
    ∃ t', bump t s count = some t' ∧ Tallies t' n' := by
  unfold Lib.bump
  rw [h.getD s, ← hs]
  rw [if_neg (by omega)]
  split
  · rename_i h0
    refine ⟨_, rfl, fun s' => ?_⟩
    rw [lookup_erase]
    split
    · rename_i heq
      rw [heq, if_pos (by omega)]
    rename_i hne
    rw [h s', hother s' hne]
  · rename_i h0
    refine ⟨_, rfl, fun s' => ?_⟩
    rw [lookup_insert]
    split
    · rename_i heq
      rw [heq, if_neg (by omega)]
    rename_i hne
    rw [h s', hother s' hne]

/-! ## One key's changes -/

/-- The deltas of a key that reads `v` at first and `v'` at last. -/
inductive Walk : Option τ → List (τ × Int) → Option τ → Prop
  | nil (v : Option τ) : Walk v [] v
  | leave {s : τ} {l : List (τ × Int)} {v : Option τ} (h : Walk none l v) : Walk (some s) ((s, -1) :: l) v
  | enter {s : τ} {l : List (τ × Int)} {v : Option τ} (h : Walk (some s) l v) : Walk none ((s, 1) :: l) v

variable {v v' : Option τ} {l : List (τ × Int)}

omit [DecidableEq τ] in
theorem Walk.append {v'' : Option τ} {l' : List (τ × Int)} (h : Walk v l v') (h' : Walk v' l' v'') :
    Walk v (l ++ l') v'' := by
  induction h with
  | nil => exact h'
  | leave _ ih => exact .leave (ih h')
  | enter _ ih => exact .enter (ih h')

omit [DecidableEq τ] in
theorem Walk.eq_of_nil (h : Walk v [] v') : v = v' := by
  cases h; rfl

def one (v : Option τ) (s : τ) : Nat := if v = some s then 1 else 0

theorem one_none : one none s = 0 := if_neg (Option.some_ne_none s).symm

theorem one_self : one (some s) s = 1 := if_pos rfl

theorem one_of_ne {s' : τ} (h : s' ≠ s) : one (some s) s' = 0 := if_neg fun heq => h (Option.some.inj heq).symm

/-- **Along a key's changes the tally follows**, whatever the other keys count. -/
theorem Tallies.walk {others : τ → Nat} (hw : Walk v l v') :
    ∀ {t : Map τ Int}, Tallies t (fun s => one v s + others s) →
      ∃ t', l.foldlM (fun t d => Lib.bump t d.1 d.2) t = some t' ∧ Tallies t' (fun s => one v' s + others s) := by
  induction hw with
  | nil v => exact fun h => ⟨_, rfl, h⟩
  | @leave s l v' hw ih =>
    intro t h
    have hs : ((one none s + others s : Nat) : Int) = (one (some s) s + others s : Nat) + -1 := by
      rw [one_none, one_self]
      omega
    obtain ⟨t₁, hbump, ht₁⟩ := h.bump (fun s => one none s + others s) hs fun s' hne => by
      simp [one, Ne.symm hne]
    obtain ⟨t', hfold, ht'⟩ := ih ht₁
    refine ⟨t', ?_, ht'⟩
    rw [foldlM_cons, hbump]
    exact hfold
  | @enter s l v' hw ih =>
    intro t h
    have hs : ((one (some s) s + others s : Nat) : Int) = (one none s + others s : Nat) + 1 := by
      rw [one_none, one_self]
      omega
    obtain ⟨t₁, hbump, ht₁⟩ := h.bump (fun s' => one (some s) s' + others s') hs fun s' hne => by
      simp [one, Ne.symm hne]
    obtain ⟨t', hfold, ht'⟩ := ih ht₁
    refine ⟨t', ?_, ht'⟩
    rw [foldlM_cons, hbump]
    exact hfold

/-! ## The values of a map at some of its keys -/

def occurrences (p : κ → Bool) (m : Map κ τ) (s : τ) : Nat :=
  Map.weigh (fun k v => if p k ∧ v = s then 1 else 0) m

variable {k : κ} (p : κ → Bool) (m : Map κ τ)

theorem occurrences_eq_erase (hk : p k) (s : τ) :
    occurrences p m s = one (m.lookup k) s + occurrences p (m.erase k) s := by
  unfold occurrences
  rw [weigh_eq_erase _ k]
  cases m.lookup k with
  | none => rfl
  | some v => simp [one, hk]

theorem occurrences_setAt (hk : p k) (v : Option τ) (s : τ) :
    occurrences p (setAt k v m) s = one v s + occurrences p (m.erase k) s := by
  unfold occurrences
  rw [weigh_setAt]
  cases v with
  | none => rfl
  | some v => simp [one, hk]

theorem occurrences_setAt_of_not (hk : p k = false) (v : Option τ) (s : τ) :
    occurrences p (setAt k v m) s = occurrences p m s := by
  unfold occurrences
  rw [weigh_setAt, weigh_eq_erase _ k m]
  cases v <;> cases m.lookup k <;> simp [hk]

variable {p m}

theorem occurrences_insert (hk : p k) (hnone : m.lookup k = none) (v s : τ) :
    occurrences p (m.insert k v) s = occurrences p m s + one (some v) s := by
  have hset := occurrences_setAt p m hk (some v) s
  have herase := occurrences_eq_erase p m hk s
  rw [hnone, one_none] at herase
  refine Eq.trans (b := occurrences p (setAt k (some v) m) s) rfl ?_
  omega

theorem occurrences_erase (p : κ → Bool) {v : τ} (hk : p k) (hv : m.lookup k = some v) (s : τ) :
    occurrences p (m.erase k) s + one (some v) s = occurrences p m s := by
  have herase := occurrences_eq_erase p m hk s
  rw [hv] at herase
  omega

theorem occurrences_congr {m' : Map κ τ} (h : ∀ k, m.lookup k = m'.lookup k) (s : τ) :
    occurrences p m s = occurrences p m' s :=
  weigh_congr id (fun k => by rw [← h k, Option.map_id, id]) fun _ _ => rfl

def bumpAll (p : κ → Bool) (t : Map τ Int) (l : List (κ × List (τ × Int))) : Option (Map τ Int) :=
  l.foldlM (fun t x => if p x.1 then x.2.foldlM (fun t d => bump t d.1 d.2) t else some t) t

/-- **Along the changes of all keys the tally follows**, in whatever order the keys come. -/
theorem Tallies.walks {m' : Map κ τ} : ∀ (l : List (κ × List (τ × Int))) {m : Map κ τ} {t : Map τ Int},
    (l.map (·.1)).Nodup → (∀ x ∈ l, Walk (m.lookup x.1) x.2 (m'.lookup x.1)) →
    (∀ k, k ∉ l.map (·.1) → m.lookup k = m'.lookup k) → Tallies t (occurrences p m) →
    ∃ t', bumpAll p t l = some t' ∧ Tallies t' (occurrences p m')
  | [], m, t, _, _, hrest, ht => ⟨t, rfl, ht.congr fun s => occurrences_congr (fun k => hrest k not_mem_nil) s⟩
  | (k, ds) :: l, m, t, hnodup, hwalk, hrest, ht => by
    rw [map_cons, nodup_cons] at hnodup
    -- the keys that are done read the new values
    have hlookup : ∀ k', k' ≠ k → (setAt k (m'.lookup k) m).lookup k' = m.lookup k' := fun k' hne => by
      rw [lookup_setAt, if_neg hne]
    have hwalk' : ∀ x ∈ l, Walk ((setAt k (m'.lookup k) m).lookup x.1) x.2 (m'.lookup x.1) := fun x hx => by
      have hne : x.1 ≠ k := fun heq => hnodup.1 (mem_map.2 ⟨x, hx, heq⟩)
      rw [hlookup x.1 hne]
      exact hwalk x (mem_cons_of_mem _ hx)
    have hrest' : ∀ k', k' ∉ l.map (·.1) → (setAt k (m'.lookup k) m).lookup k' = m'.lookup k' := fun k' hk' => by
      by_cases heq : k' = k
      · rw [heq, lookup_setAt, if_pos rfl]
      rw [hlookup k' heq]
      refine hrest k' fun hmem => ?_
      rcases mem_cons.1 hmem with h | h
      · exact heq h
      · exact hk' h
    unfold bumpAll
    rw [foldlM_cons]
    by_cases hk : p k = true
    · have hw : Walk (m.lookup k) ds (m'.lookup k) := hwalk (k, ds) mem_cons_self
      obtain ⟨t₁, hfold, ht₁⟩ := Tallies.walk hw (ht.congr fun s => occurrences_eq_erase p m hk s)
      obtain ⟨t', hall, ht'⟩ := Tallies.walks l hnodup.2 hwalk' hrest'
        (ht₁.congr fun s => (occurrences_setAt p m hk (m'.lookup k) s).symm)
      refine ⟨t', ?_, ht'⟩
      rw [if_pos hk, hfold]
      exact hall
    · obtain ⟨t', hall, ht'⟩ := Tallies.walks l hnodup.2 hwalk' hrest'
        (ht.congr fun s => (occurrences_setAt_of_not p m (Bool.eq_false_iff.2 hk) (m'.lookup k) s).symm)
      refine ⟨t', ?_, ht'⟩
      rw [if_neg hk]
      exact hall

theorem occurrences_pos (hk : p k) (h : m.lookup k = some s) : 0 < occurrences p m s := by
  rw [occurrences_eq_erase p m hk, h, one, if_pos rfl]
  omega

/-! ## Counting from nothing -/

def tallyOf (l : List τ) : Map τ Int := l.foldl (fun t s => t.insert s ((t.lookup s).getD 0 + 1)) ∅

theorem Tallies.insert_succ (h : Tallies t n) (s : τ) :
    Tallies (AList.insert s ((t.lookup s).getD 0 + 1) t) (fun s' => n s' + if s' = s then 1 else 0) := by
  intro s'
  rw [lookup_insert, h.getD]
  split
  · rename_i heq
    subst heq
    simp
  · rename_i hne
    simpa [hne] using h s'

theorem tallies_tallyOf (l : List τ) : Tallies (tallyOf l) (fun s => l.count s) := by
  have hfold : ∀ (l : List τ) (t : Map τ Int) (n : τ → Nat), Tallies t n →
      Tallies (l.foldl (fun t s => AList.insert s ((t.lookup s).getD 0 + 1) t) t) (fun s => n s + l.count s) := by
    intro l
    induction l with
    | nil => exact fun t n h => h
    | cons a l ih =>
      intro t n h
      refine (ih _ _ (h.insert_succ a)).congr fun s => ?_
      rw [count_cons]
      by_cases hs : s = a
      · subst hs
        rw [if_pos rfl, if_pos (beq_self_eq_true s)]
        omega
      · simp [hs, Ne.symm hs]
  exact (hfold l ∅ (fun _ => 0) fun s => rfl).congr fun s => zero_add _

theorem occurrences_eq_count {ν : Type} {m' : Map κ ν} (f : ν → τ) (h : ∀ k, (m'.lookup k).map f = m.lookup k) (s : τ) :
    occurrences p m s = ((m'.entries.filter fun x => p x.1).map fun x => f x.2).count s := by
  have hweigh : weigh (fun k v => if p k ∧ f v = s then 1 else 0) m' = occurrences p m s :=
    weigh_congr f h fun _ _ => rfl
  rw [← hweigh]
  unfold weigh
  induction m'.entries with
  | nil => rfl
  | cons x l ih =>
    rw [map_cons, sum_cons, ih, filter_cons]
    by_cases hp : p x.1 = true
    · rw [if_pos hp]
      by_cases hs : f x.2 = s
      · simp [hp, hs, add_comm]
      · simp [hs]
    · simp [hp]

end Lib
