import Tikv.LibBoundary
import Tikv.QueryScanner
/-!
# QueryScannedRange — the scanned ranges are what was covered

A scanner that has answered `m` calls stands at the boundary `bound m`: where the first range begins, then right after the
`m`-th row, at last where the last range ends.  Every row is behind that boundary or ahead of it as it has been returned
or not (`behind_bound`).  The working keys are the boundaries of the latest taken interval's end and of now, so the taken
intervals follow each other without a gap and hold the rows that were returned between them.
-/
namespace Tikv
namespace Query

open Lib List Scanner

/-! ## Keys -/

theorem lt_append_zero_iff : ∀ {k a : Bytes}, k < a ++ [0] ↔ k ≤ a
  | [], a => iff_of_true (nil_lt_of_ne_nil (by simp)) (not_lt.1 (not_lt_nil a))
  | x :: k, [] => by
    have hx : ¬ x < 0 := UInt8.not_lt_zero
    rw [nil_append, cons_lt_cons_iff]
    refine iff_of_false ?_ (not_le.2 (nil_lt_of_ne_nil (by simp)))
    rintro (hlt | ⟨-, hlt⟩)
    · exact hx hlt
    · exact not_lt_nil k hlt
  | x :: k, y :: a => by
    have ih : k < a ++ [0] ↔ k ≤ a := lt_append_zero_iff
    rw [cons_append, cons_lt_cons_iff, ← not_lt, cons_lt_cons_iff, ih]
    rcases lt_trichotomy x y with hxy | rfl | hxy
    · exact iff_of_true (.inl hxy) (by rintro (h | ⟨rfl, -⟩); exacts [lt_asymm h hxy, lt_irrefl _ hxy])
    · simp
    · exact iff_of_false (by rintro (h | ⟨rfl, -⟩); exacts [lt_asymm h hxy, lt_irrefl _ hxy]) (not_not.2 (.inl hxy))

variable {b a : Bytes}

theorem append_zero_le_of_lt (h : a < b) : a ++ [0] ≤ b := by
  rw [← not_lt, lt_append_zero_iff, not_le]
  exact h

theorem ne_nil_of_le (h : a ≤ b) (ha : a ≠ []) : b ≠ [] := by
  rintro rfl
  exact absurd (nil_lt_of_ne_nil ha) (not_lt.2 h)

/-! ## Requests -/

theorem contains_eq_true (r : IntervalRange) (k : Bytes) :
    r.contains k = true ↔ r.lowerInclusive ≤ k ∧ k < r.upperExclusive := by
  simp [IntervalRange.contains]

def Range.bounds : Range → IntervalRange
  | .point key => ⟨key, key ++ [0]⟩
  | .interval r => r

structure Request where
  table : Table
  ranges : List Range
  backward : Bool
  isKeyOnly : Bool

open Request

namespace Request

variable (q : Request)

def scanner : Scanner := Scanner.new q.table q.ranges q.backward q.isKeyOnly

def near (r : IntervalRange) : Bytes := if q.backward then r.upperExclusive else r.lowerInclusive

def far (r : IntervalRange) : Bytes := if q.backward then r.lowerInclusive else r.upperExclusive

structure Ordered : Prop where
  proper : ∀ r ∈ q.ranges, r.bounds.lowerInclusive ≤ r.bounds.upperExclusive
  forward : q.backward = false → q.ranges.Pairwise fun a b => a.bounds.upperExclusive ≤ b.bounds.lowerInclusive
  backward : q.backward = true → q.ranges.Pairwise fun a b => b.bounds.upperExclusive ≤ a.bounds.lowerInclusive

/-- Only the last range may begin with the empty key. -/
def Bounded : Prop := ∀ r ∈ q.ranges.dropLast, r.bounds.lowerInclusive ≠ []

def rowsOf (r : Range) : List Row := q.table.beginScan q.backward q.isKeyOnly r.bounds

def rows : List Row := q.ranges.flatMap q.rowsOf

def firstBounds : IntervalRange := (q.ranges.head?.map Range.bounds).getD default

def lastBounds : IntervalRange := (q.ranges.getLast?.map Range.bounds).getD default

def whole : IntervalRange :=
  if q.backward then ⟨q.lastBounds.lowerInclusive, q.firstBounds.upperExclusive⟩
  else ⟨q.firstBounds.lowerInclusive, q.lastBounds.upperExclusive⟩

def after (key : Bytes) : Bytes := if q.backward then key else key ++ [0]

def bound (m : Nat) : Bytes :=
  if m = 0 then q.near q.firstBounds else (q.rows[m - 1]?).elim (q.far q.lastBounds) fun row => q.after row.1

end Request

section

variable {q : Request}

/-! ## Boundaries -/

theorem contains_iff (r : IntervalRange) (k : Bytes) :
    r.contains k = true ↔ k ∈ between q.backward (q.near r) (q.far r) := by
  rw [contains_eq_true]
  unfold near far
  cases hb : q.backward with
  | false => simp [mem_between, Behind]
  | true => simp [mem_between, Behind, and_comm]

variable {key : Bytes}

theorem behind_after {k : Bytes} : Behind q.backward (q.after key) k ↔ NoLater q.backward k key := by
  unfold Behind NoLater Request.after
  cases hb : q.backward with
  | false => simpa using lt_append_zero_iff
  | true => simp

theorem noLater_after_of_not_behind (h : ¬ Behind q.backward b key) : NoLater q.backward b (q.after key) := by
  unfold Behind at h
  unfold Request.after
  cases hb : q.backward with
  | false =>
    simp only [hb, Bool.false_eq_true, if_false, not_lt] at h ⊢
    exact h.trans (not_lt.1 le_append_left)
  | true =>
    simp only [hb, if_true, not_le] at h ⊢
    exact h.le

theorem after_noLater_of_behind (h : Behind q.backward b key) : NoLater q.backward (q.after key) b := by
  unfold Request.after
  cases hb : q.backward with
  | false =>
    simp only [hb] at h ⊢
    exact append_zero_le_of_lt h
  | true =>
    simp only [hb] at h ⊢
    exact h

/-! ### Rows and ranges -/

theorem ownedPair_fst (isKeyOnly : Bool) (e : Row) : (ownedPair isKeyOnly e).1 = e.1 := by
  unfold ownedPair
  split <;> rfl

variable {r : Range} {row : Row}

theorem mem_rowsOf (h : row ∈ q.rowsOf r) : r.bounds.contains row.1 = true := by
  unfold rowsOf Table.beginScan at h
  have h' : row ∈ (q.table.entries.filter fun e => r.bounds.contains e.1).map (ownedPair q.isKeyOnly) := by
    split at h
    · exact mem_reverse.1 h
    · exact h
  obtain ⟨e, he, rfl⟩ := mem_map.1 h'
  rw [ownedPair_fst]
  exact (mem_filter.1 he).2

section

variable (h : q.Ordered)
include h

theorem pairwise_ordered :
    q.ranges.Pairwise fun a b => NoLater q.backward (q.far a.bounds) (q.near b.bounds) := by
  unfold NoLater far near
  cases hb : q.backward with
  | false => simpa using h.forward hb
  | true => simpa using h.backward hb

theorem near_noLater_far (hr : r ∈ q.ranges) :
    NoLater q.backward (q.near r.bounds) (q.far r.bounds) := by
  have := h.proper r hr
  unfold NoLater far near
  cases hb : q.backward <;> simpa using this

theorem rows_pairwise : q.rows.Pairwise fun a b => NoLater q.backward a.1 b.1 ∧ a.1 ≠ b.1 := by
  have hsorted : ∀ r, (q.rowsOf r).Pairwise fun a b => NoLater q.backward a.1 b.1 ∧ a.1 ≠ b.1 := by
    intro r
    have hfilter := (q.table.sorted.filter fun e => r.bounds.contains e.1).map (ownedPair q.isKeyOnly)
      (S := fun a b => a.1 < b.1) fun a b hab => by rw [ownedPair_fst, ownedPair_fst]; exact hab
    unfold rowsOf NoLater
    cases hb : q.backward with
    | false =>
      refine hfilter.imp fun hab => ?_
      simpa using ⟨le_of_lt hab, ne_of_lt hab⟩
    | true =>
      refine pairwise_reverse.2 (hfilter.imp fun hab => ?_)
      simpa using ⟨le_of_lt hab, ne_of_gt hab⟩
  have hcross : ∀ {a b : Range}, NoLater q.backward (q.far a.bounds) (q.near b.bounds) → ∀ x ∈ q.rowsOf a, ∀ y ∈ q.rowsOf b,
      NoLater q.backward x.1 y.1 ∧ x.1 ≠ y.1 := by
    intro a b hab x hx y hy
    have hx' := (contains_iff (q := q) _ _).1 (mem_rowsOf hx)
    have hy' := (contains_iff (q := q) _ _).1 (mem_rowsOf hy)
    have hbehind : Behind q.backward (q.near b.bounds) x.1 := hx'.2.mono hab
    exact ⟨hbehind.noLater hy'.1, fun heq => hy'.1 (heq ▸ hbehind)⟩
  rw [rows, pairwise_flatMap]
  exact ⟨fun r _ => hsorted r, (pairwise_ordered h).imp hcross⟩

omit h in
theorem firstBounds_eq {l : List Range} (h : q.ranges = r :: l) : q.firstBounds = r.bounds := by
  rw [firstBounds, h]
  rfl

omit h in
theorem lastBounds_eq {l : List Range} (h : q.ranges = l ++ [r]) : q.lastBounds = r.bounds := by
  rw [lastBounds, h, getLast?_append_of_ne_nil _ (by simp)]
  rfl

theorem near_first_noLater (hr : r ∈ q.ranges) :
    NoLater q.backward (q.near q.firstBounds) (q.near r.bounds) := by
  obtain ⟨a, l, hq⟩ := exists_cons_of_ne_nil (ne_nil_of_mem hr)
  have hp := pairwise_ordered h
  have ha := near_noLater_far (r := a) h (hq ▸ mem_cons_self)
  rw [hq] at hr hp
  rw [firstBounds_eq hq]
  rcases mem_cons.1 hr with rfl | hr'
  · exact noLater_refl
  · exact ha.trans ((pairwise_cons.1 hp).1 r hr')

theorem far_noLater_last (hr : r ∈ q.ranges) :
    NoLater q.backward (q.far r.bounds) (q.far q.lastBounds) := by
  obtain ⟨l, a, hq⟩ := (eq_nil_or_concat' q.ranges).resolve_left (ne_nil_of_mem hr)
  have hp := pairwise_ordered h
  have ha := near_noLater_far (r := a) h (by simp [hq])
  rw [hq] at hr hp
  rw [lastBounds_eq hq]
  rcases mem_append.1 hr with hr' | hr'
  · exact ((pairwise_append.1 hp).2.2 r hr' a mem_cons_self).trans ha
  · rw [mem_singleton.1 hr']
    exact noLater_refl

theorem row_between (hr : row ∈ q.rows) :
    ¬ Behind q.backward (q.near q.firstBounds) row.1 ∧ Behind q.backward (q.far q.lastBounds) row.1 := by
  obtain ⟨r, hmem, hrow⟩ := mem_flatMap.1 hr
  obtain ⟨hnear, hfar⟩ := (contains_iff (q := q) _ _).1 (mem_rowsOf hrow)
  exact ⟨fun hb => hnear (hb.mono (near_first_noLater h hmem)), hfar.mono (far_noLater_last h hmem)⟩

variable {m : Nat}

theorem behind_bound {i : Nat} (hi : q.rows[i]? = some row) :
    Behind q.backward (q.bound m) row.1 ↔ i < m := by
  have hrow := row_between h (mem_of_getElem? hi)
  unfold bound
  by_cases hm : m = 0
  · subst hm
    simpa using hrow.1
  rw [if_neg hm]
  cases hlast : q.rows[m - 1]? with
  | none =>
    have hlen : i < q.rows.length := (List.getElem?_eq_some_iff.1 hi).1
    rw [List.getElem?_eq_none_iff] at hlast
    exact iff_of_true hrow.2 (by omega)
  | some r =>
    have hp := rows_pairwise h
    rw [pairwise_iff_getElem] at hp
    obtain ⟨hil, hieq⟩ := List.getElem?_eq_some_iff.1 hi
    obtain ⟨hml, hmeq⟩ := List.getElem?_eq_some_iff.1 hlast
    change Behind q.backward (q.after r.1) row.1 ↔ i < m
    rw [behind_after]
    rcases Nat.lt_trichotomy i (m - 1) with hlt | heq | hgt
    · have := (hp i (m - 1) hil hml hlt).1
      rw [hieq, hmeq] at this
      exact iff_of_true this (by omega)
    · subst heq
      rw [← hieq, ← hmeq]
      exact iff_of_true noLater_refl (by omega)
    · obtain ⟨hno, hne⟩ := hp (m - 1) i hml hil hgt
      rw [hieq, hmeq] at hno hne
      exact iff_of_false (fun hback => hne (hno.antisymm hback)) (by omega)

omit h in
theorem bound_of_no_range (hq : q.ranges = []) (m : Nat) : q.bound m = [] := by
  have hrows : q.rows = [] := by rw [rows, hq]; rfl
  have hfirst : q.firstBounds = ⟨[], []⟩ := by rw [firstBounds, hq]; rfl
  have hlast : q.lastBounds = ⟨[], []⟩ := by rw [lastBounds, hq]; rfl
  rw [bound, hrows, hfirst, hlast]
  simp [near, far]

theorem bound_mono {n : Nat} (hmn : m ≤ n) : NoLater q.backward (q.bound m) (q.bound n) := by
  by_cases hq : q.ranges = []
  · rw [bound_of_no_range hq, bound_of_no_range hq]
    exact noLater_refl
  obtain ⟨a, hmem⟩ := exists_mem_of_ne_nil _ hq
  have hends := ((near_first_noLater h hmem).trans (near_noLater_far h hmem)).trans (far_noLater_last h hmem)
  unfold bound
  by_cases hm : m = 0
  · rw [if_pos hm]
    by_cases hn : n = 0
    · rw [if_pos hn]
      exact noLater_refl
    rw [if_neg hn]
    cases hlast : q.rows[n - 1]? with
    | none => exact hends
    | some r => exact noLater_after_of_not_behind (row_between h (mem_of_getElem? hlast)).1
  · rw [if_neg hm, if_neg (by omega)]
    cases hfirst : q.rows[m - 1]? with
    | none =>
      have : q.rows[n - 1]? = none := by
        rw [getElem?_eq_none_iff] at hfirst ⊢
        omega
      rw [this]
      exact noLater_refl
    | some r =>
      have hbehind := behind_bound (m := n) h hfirst
      refine after_noLater_of_behind ?_
      have := hbehind.2 (by omega)
      rwa [bound, if_neg (by omega)] at this

end

/-! ## The state between calls -/

theorem sorted_filter_eq {l : List Row} (h : l.Pairwise fun a b => a.1 < b.1) (key : Bytes) :
    l.filter (fun e => decide (e.1 = key)) = (l.find? fun e => decide (e.1 = key)).toList := by
  have hkey : ∀ e ∈ l.filter (fun e => decide (e.1 = key)), e.1 = key := fun e he => of_decide_eq_true (mem_filter.1 he).2
  have hsorted := h.filter fun e => decide (e.1 = key)
  rw [← head?_filter]
  generalize l.filter (fun e => decide (e.1 = key)) = found at hkey hsorted
  match found with
  | [] => rfl
  | [a] => rfl
  | a :: b :: rest =>
    have hlt : a.1 < b.1 := (pairwise_cons.1 hsorted).1 b mem_cons_self
    rw [hkey a (by simp), hkey b (by simp)] at hlt
    exact absurd hlt (lt_irrefl _)

theorem rowsOf_point : q.rowsOf (.point key) = (q.table.get q.isKeyOnly key).toList := by
  have hfilter : (q.table.entries.filter fun e => (Range.point key).bounds.contains e.1) =
      (q.table.entries.find? fun e => decide (e.1 = key)).toList := by
    rw [← sorted_filter_eq q.table.sorted]
    refine filter_congr fun e _ => ?_
    rw [Bool.eq_iff_iff, contains_eq_true, decide_eq_true_iff]
    change key ≤ e.1 ∧ e.1 < key ++ [0] ↔ e.1 = key
    rw [lt_append_zero_iff]
    exact ⟨fun h => le_antisymm h.2 h.1, fun h => ⟨h.ge, h.le⟩⟩
  unfold rowsOf Table.beginScan Table.get
  simp only [hfilter]
  cases q.table.entries.find? fun e => decide (e.1 = key) <;> simp

/-- A scanner that has gone through the ranges `pre`, has answered `m` calls and was last asked for its range after `t`. -/
structure Walk (q : Request) (m t : Nat) (pre : List Range) (s : Scanner) : Prop where
  table : s.table = q.table
  back : s.scanBackwardInRange = q.backward
  keyOnly : s.isKeyOnly = q.isKeyOnly
  ranges : q.ranges = pre ++ s.ranges
  le : t ≤ m
  opened : 0 < m → pre ≠ [] ∨ q.ranges = []
  fresh : pre = [] → s.currentRange = default ∧ s.workingRangeBeginKey = []
  current : pre ≠ [] → s.currentRange = if s.ranges = [] then q.lastBounds else q.firstBounds
  begun : pre ≠ [] → s.workingRangeBeginKey = q.bound t
  drained : q.rows.length < m → s.ranges = []

variable {t : Nat} {pre : List Range} {s : Scanner}

theorem Walk.congr (h : Walk q m t pre s) (inRange : Bool) (view : List Row) (endKey : Bytes) :
    Walk q m t pre { s with inRange := inRange, view := view, workingRangeEndKey := endKey } :=
  { h with }

variable {left : List Range}

section

variable (hq : q.Ordered) (hb : q.Bounded) (h : Walk q m t pre s) (hs : s.ranges = r :: left)
  (hleft : q.rows.drop m = (r :: left).flatMap q.rowsOf)
include hq hb h hs hleft

theorem Walk.bound_ne_nil (hpre : pre ≠ []) : q.bound t ≠ [] := by
  have hranges := h.ranges
  rw [hs] at hranges
  have hdrop : ∀ a ∈ pre, a ∈ q.ranges.dropLast := by
    intro a ha
    rw [hranges, dropLast_append_of_ne_nil (by simp)]
    exact mem_append_left _ ha
  have hlen : m ≤ q.rows.length := by
    by_contra hlt
    have := h.drained (by omega)
    rw [hs] at this
    exact absurd this (by simp)
  unfold bound
  by_cases ht : t = 0
  · rw [if_pos ht]
    obtain ⟨a, pre', rfl⟩ := exists_cons_of_ne_nil hpre
    have hfirst := firstBounds_eq hranges
    have hlower := hb a (hdrop a (by simp))
    have hproper := hq.proper a (by rw [hranges]; simp)
    rw [hfirst]
    unfold near
    split
    · exact ne_nil_of_le hproper hlower
    · exact hlower
  · rw [if_neg ht]
    have hle := h.le
    -- the latest row that was covered belongs to a range that has been left
    have hrows : q.rows = pre.flatMap q.rowsOf ++ (r :: left).flatMap q.rowsOf := by
      rw [rows, hranges, flatMap_append]
    have hpos : m ≤ (pre.flatMap q.rowsOf).length := by
      have := congrArg length hleft
      rw [length_drop, hrows, length_append] at this
      rw [hrows, length_append] at hlen
      omega
    have hlt : t - 1 < (pre.flatMap q.rowsOf).length := by omega
    obtain ⟨row, hrow⟩ : ∃ row, (pre.flatMap q.rowsOf)[t - 1]? = some row := ⟨_, getElem?_eq_getElem hlt⟩
    have hget : q.rows[t - 1]? = some row := by
      rw [hrows, getElem?_append_left hlt, hrow]
    rw [hget]
    unfold Request.after
    split
    · obtain ⟨a, ha, hmem⟩ := mem_flatMap.1 (mem_of_getElem? hrow)
      exact ne_nil_of_le ((contains_eq_true _ _).1 (mem_rowsOf hmem)).1 (hb a (hdrop a ha))
    · simp

theorem Walk.updateScannedRange :
    Walk q m t (pre ++ [r]) (updateScannedRange { s with ranges := left, inRange := true } r.bounds) := by
  have hranges := h.ranges
  rw [hs] at hranges
  have hlast : left = [] → q.lastBounds = r.bounds := by
    rintro rfl
    exact lastBounds_eq hranges
  have hsum : q.ranges = pre ++ [r] ++ left := by simpa using hranges
  unfold Scanner.updateScannedRange updateWorkingRangeBeginKey
  by_cases hpre : pre = []
  · -- the first range
    subst hpre
    obtain ⟨hcur, hwb⟩ := h.fresh rfl
    have hm : m = 0 := by
      by_contra hm
      rcases h.opened (by omega) with hne | hnil
      · exact hne rfl
      rw [hnil] at hranges
      exact absurd hranges (by simp)
    have ht : t = 0 := by
      have := h.le
      omega
    have hfirst := firstBounds_eq hranges
    have hlower : (default : IntervalRange).lowerInclusive = [] := rfl
    simp only [hcur, hlower, true_or, if_true, hwb]
    refine ⟨h.table, h.back, h.keyOnly, hsum, h.le, fun _ => .inl (by simp), fun hnil => absurd hnil (by simp), ?_, ?_,
      fun hlt => ?_⟩
    · intro _
      by_cases hl : left = []
      · rw [if_pos hl, hlast hl]
      · rw [if_neg hl, hfirst]
    · intro _
      rw [ht, bound, if_pos rfl, hfirst]
      simp only [h.back, near]
    · omega
  · have hcur := h.current hpre
    rw [hs, if_neg (by simp)] at hcur
    have hne : s.workingRangeBeginKey ≠ [] := by
      rw [h.begun hpre]
      exact h.bound_ne_nil hq hb hs hleft hpre
    have hlower : s.currentRange.lowerInclusive ≠ [] := by
      obtain ⟨a, pre', rfl⟩ := exists_cons_of_ne_nil hpre
      have hfirst := firstBounds_eq hranges
      rw [hcur, hfirst]
      refine hb a ?_
      rw [hranges, dropLast_append_of_ne_nil (by simp)]
      simp
    have hdrained : q.rows.length < m → left = [] := by
      intro hlt
      have := h.drained hlt
      rw [hs] at this
      exact absurd this (by simp)
    by_cases hl : left = []
    · simp only [hl, or_true, if_true, if_neg hne]
      subst hl
      exact ⟨h.table, h.back, h.keyOnly, hsum, h.le, fun _ => .inl (by simp), fun hnil => absurd hnil (by simp),
        fun _ => by rw [if_pos rfl, hlast rfl], fun _ => h.begun hpre, fun _ => rfl⟩
    · simp only [hlower, hl, or_self, if_false, if_neg hne]
      exact ⟨h.table, h.back, h.keyOnly, hsum, h.le, fun _ => .inl (by simp), fun hnil => absurd hnil (by simp),
        fun _ => by rw [if_neg hl, hcur], fun _ => h.begun hpre, hdrained⟩

def Scanner.open (s : Scanner) : List Row := if s.inRange then s.view else []

theorem Walk.enter : ∃ s', s.enter r left = (s', (q.rowsOf r).head?) ∧ Walk q m t (pre ++ [r]) s' ∧ s'.ranges = left ∧
      s'.open = (q.rowsOf r).tail := by
  have hwalk := h.updateScannedRange hq hb hs hleft
  have hranges : (Scanner.updateScannedRange { s with ranges := left, inRange := true } r.bounds).ranges = left := by
    have hsum := hwalk.ranges
    rw [h.ranges, hs, append_cons] at hsum
    exact (append_cancel_left hsum).symm
  have hinRange : (Scanner.updateScannedRange { s with ranges := left, inRange := true } r.bounds).inRange = true := by
    unfold Scanner.updateScannedRange updateWorkingRangeBeginKey
    split <;> split <;> rfl
  cases r with
  | point key =>
    have hrows : q.rowsOf (.point key) = (s.table.get s.isKeyOnly key).toList := by
      rw [rowsOf_point, h.table, h.keyOnly]
    rw [hrows]
    refine ⟨_, Prod.ext rfl ?_, hwalk.congr false _ _, hranges, ?_⟩
    · change s.table.get s.isKeyOnly key = _
      cases s.table.get s.isKeyOnly key <;> rfl
    · cases s.table.get s.isKeyOnly key <;> rfl
  | interval iv =>
    have hrows : q.rowsOf (.interval iv) = s.table.beginScan s.scanBackwardInRange s.isKeyOnly iv := by
      rw [h.table, h.back, h.keyOnly]
      rfl
    unfold enter
    simp only [← hrows]
    cases hview : q.rowsOf (.interval iv) with
    | nil => exact ⟨_, rfl, hwalk.congr _ [] _, hranges, by simp [Scanner.open]⟩
    | cons row view =>
      refine ⟨_, rfl, hwalk.congr _ view _, hranges, ?_⟩
      exact if_pos hinRange

end

/-- The state between two calls: `m` are answered, and the last range was taken after `t` of them. -/
structure Answered (q : Request) (m t : Nat) (s : Scanner) : Prop where
  walk : ∃ pre, Walk q m t pre s ∧ (s.inRange = true → pre ≠ [])
  left : q.rows.drop m = s.open ++ s.ranges.flatMap q.rowsOf
  ended : t < m → s.workingRangeEndKey = q.bound m

theorem answered_scanner (q : Request) : Answered q 0 0 q.scanner where
  walk := by
    refine ⟨[], ⟨rfl, rfl, rfl, rfl, le_refl 0, fun h => absurd h (by simp), fun _ => ⟨rfl, rfl⟩, absurd rfl,
      absurd rfl, fun h => absurd h (by simp)⟩, fun h => ?_⟩
    exact absurd h (by simp [scanner, new])
  left := rfl
  ended h := absurd h (by simp)

theorem Walk.succ (h : Walk q m t pre s) (hpre : pre ≠ [] ∨ q.ranges = [])
    (hdrained : q.rows.length < m + 1 → s.ranges = []) : Walk q (m + 1) t pre s :=
  { h with le := Nat.le_succ_of_le h.le, opened := fun _ => hpre, drained := hdrained }

theorem bound_succ_of_row (h : q.rows[m]? = some row) : q.bound (m + 1) = q.after row.1 := by
  rw [bound, Nat.add_sub_cancel, h]
  rfl

theorem bound_succ_of_none (h : q.rows[m]? = none) : q.bound (m + 1) = q.far q.lastBounds := by
  rw [bound, Nat.add_sub_cancel, h]
  rfl

theorem Walk.found (h : Walk q m t pre s) (hpre : pre ≠ [])
    (hleft : q.rows.drop m = row :: (s.open ++ s.ranges.flatMap q.rowsOf)) :
    q.rows[m]? = some row ∧ Answered q (m + 1) t (s.found true row) := by
  have hget : q.rows[m]? = some row := by
    have := congrArg head? hleft
    rwa [head?_drop] at this
  have hlen : m < q.rows.length := (List.getElem?_eq_some_iff.1 hget).1
  have hopen : (s.found true row).open = s.open := rfl
  refine ⟨hget, ⟨pre, ?_, fun _ => hpre⟩, ?_, fun _ => ?_⟩
  · exact (h.succ (.inl hpre) fun hlt => absurd hlt (by omega)).congr s.inRange s.view _
  · rw [← drop_drop, hleft]
    rfl
  · rw [bound_succ_of_row hget]
    simp [Scanner.found, updateScannedRangeFromScannedRow, h.back, Request.after]

/-- **The ranges that are left** give the next row, or there is none and the interval ends with the last range. -/
theorem Walk.nextRange (hq : q.Ordered) (hb : q.Bounded) : ∀ (left : List Range) {pre : List Range}
    {s : Scanner}, s.ranges = left → s.inRange = false → Walk q m t pre s → q.rows.drop m = left.flatMap q.rowsOf →
    ∃ s', nextRange true left s = (s', q.rows[m]?) ∧ Answered q (m + 1) t s'
  | [], pre, s, hs, hin, h, hleft => by
    have hnone : q.rows[m]? = none := by
      have := congrArg head? hleft
      rwa [head?_drop] at this
    have hlen : q.rows.length ≤ m := getElem?_eq_none_iff.1 hnone
    have hranges : q.ranges = pre := by rw [h.ranges, hs, append_nil]
    have hpre : pre ≠ [] ∨ q.ranges = [] := by
      rw [hranges]
      exact (em (pre = [])).symm
    have hcur : s.currentRange = q.lastBounds := by
      by_cases hp : pre = []
      · rw [(h.fresh hp).1, lastBounds, hranges, hp]
        rfl
      · rw [h.current hp, if_pos hs]
    have hopen : (s.updateWorkingRangeEndKey).open = [] := by
      simp [Scanner.open, updateWorkingRangeEndKey, hin]
    rw [hnone]
    refine ⟨_, rfl, ⟨pre, (h.succ hpre fun _ => hs).congr s.inRange s.view _, fun hopened => ?_⟩, ?_, fun _ => ?_⟩
    · rw [show (s.updateWorkingRangeEndKey).inRange = s.inRange from rfl, hin] at hopened
      cases hopened
    · rw [hopen, show (s.updateWorkingRangeEndKey).ranges = s.ranges from rfl, hs, drop_eq_nil_of_le (by omega)]
      rfl
    · rw [bound_succ_of_none hnone]
      simp only [updateWorkingRangeEndKey, h.back, hcur, far]
  | r :: left, pre, s, hs, hin, h, hleft => by
    obtain ⟨s', henter, hwalk, hranges, hopen⟩ := h.enter hq hb hs hleft
    rw [Scanner.nextRange, henter]
    rw [flatMap_cons] at hleft
    cases hrows : q.rowsOf r with
    | nil =>
      rw [hrows] at hleft
      exact Walk.nextRange hq hb left (s := { s' with inRange := false }) hranges rfl
        (hwalk.congr false s'.view s'.workingRangeEndKey) hleft
    | cons row tail =>
      rw [hrows] at hopen
      have hdrop : q.rows.drop m = row :: (s'.open ++ s'.ranges.flatMap q.rowsOf) := by
        rw [hleft, hrows, hopen, hranges]
        rfl
      obtain ⟨hget, hnext⟩ := hwalk.found (by simp) hdrop
      exact ⟨_, by rw [hget]; rfl, hnext⟩

/-- **One `next` call**: the next row, or none for ever. -/
theorem Answered.nextOpt (hq : q.Ordered) (hb : q.Bounded) (h : Answered q m t s) :
    ∃ s', s.nextOpt true = (s', q.rows[m]?) ∧ Answered q (m + 1) t s' := by
  obtain ⟨pre, hwalk, hopened⟩ := h.walk
  have hleft := h.left
  unfold Scanner.nextOpt
  cases hin : s.inRange with
  | false =>
    rw [Scanner.open, hin] at hleft
    exact hwalk.nextRange hq hb _ rfl hin hleft
  | true =>
    rw [if_pos rfl]
    rw [Scanner.open, hin] at hleft
    unfold scanNext
    cases hview : s.view with
    | nil =>
      rw [hview] at hleft
      exact Walk.nextRange hq hb s.ranges (s := { s with inRange := false }) rfl rfl
        (hwalk.congr false s.view s.workingRangeEndKey) hleft
    | cons row view =>
      have hopen : Scanner.open { s with view := view } = view := if_pos hin
      have hdrop : q.rows.drop m = row :: (Scanner.open { s with view := view } ++ s.ranges.flatMap q.rowsOf) := by
        rw [hleft, hview, hopen]
        rfl
      obtain ⟨hget, hnext⟩ := (hwalk.congr s.inRange view s.workingRangeEndKey).found (hopened hin) hdrop
      exact ⟨_, by rw [hget], hnext⟩

/-- **One `take_scanned_range` call** after a `next`: from the boundary of the latest one to the boundary now. -/
theorem Answered.take (h : Answered q m t s) (hlt : t < m) :
    q.near s.takeScannedRange.2 = q.bound t ∧ q.far s.takeScannedRange.2 = q.bound m ∧
      Answered q m m s.takeScannedRange.1 := by
  obtain ⟨pre, hwalk, hopened⟩ := h.walk
  have hend := h.ended hlt
  have hbegin : s.workingRangeBeginKey = q.bound t := by
    by_cases hpre : pre = []
    · rcases hwalk.opened (by omega) with hne | hnil
      · exact absurd hpre hne
      · rw [(hwalk.fresh hpre).2, bound_of_no_range hnil]
    · exact hwalk.begun hpre
  refine ⟨?_, ?_, ⟨⟨pre, { hwalk with le := le_refl m, fresh := ?_, begun := fun _ => hend }, hopened⟩, h.left,
    fun hmm => absurd hmm (lt_irrefl m)⟩⟩
  · rw [← hbegin]
    simp only [takeScannedRange, hwalk.back, near]
    cases q.backward <;> rfl
  · rw [← hend]
    simp only [takeScannedRange, hwalk.back, far]
    cases q.backward <;> rfl
  · intro hpre
    refine ⟨(hwalk.fresh hpre).1, ?_⟩
    rcases hwalk.opened (by omega) with hne | hnil
    · exact absurd hpre hne
    change s.workingRangeEndKey = []
    rw [hend, bound_of_no_range hnil]

end

/-! ## Runs -/

/-- A range is asked for only right after a `next` call; `asked` says that one was made since the latest time. -/
def timely : Bool → List Call → Bool
  | _, [] => true
  | _, .next :: calls => timely true calls
  | asked, .take :: calls => asked && timely false calls

section

variable {ε κ : Type}

def answers : List (Event ε κ) → List (Except ε (Option κ))
  | [] => []
  | .next answer :: events => answer :: answers events
  | .take _ :: events => answers events

def taken : List (Event ε κ) → List IntervalRange
  | [] => []
  | .next _ :: events => taken events
  | .take range :: events => range :: taken events

def marks : Nat × Nat → List (Event ε κ) → Nat × Nat
  | p, [] => p
  | p, .next _ :: events => marks (p.1 + 1, p.2) events
  | p, .take _ :: events => marks (p.1, p.1) events

theorem marks_append (p : Nat × Nat) (l l' : List (Event ε κ)) : marks p (l ++ l') = marks (marks p l) l' := by
  induction l generalizing p with
  | nil => rfl
  | cons e l ih => cases e <;> exact ih _

def Request.answer (q : Request) (make : Row → Except ε κ) (i : Nat) : Except ε (Option κ) :=
  (q.rows[i]?).elim (.ok none) fun row => (make row).map some

def Request.ends (q : Request) (r : IntervalRange) : Bytes × Bytes := (q.near r, q.far r)

variable {q : Request} (make : Row → Except ε κ)

theorem Answered.next {m t : Nat} {s : Scanner} (hq : q.Ordered) (hb : q.Bounded) (h : Answered q m t s) :
    (s.next make).2 = q.answer make m ∧ Answered q (m + 1) t (s.next make).1 := by
  obtain ⟨s', heq, hnext⟩ := h.nextOpt hq hb
  unfold Scanner.next answer
  rw [heq]
  cases q.rows[m]? with
  | none | some => exact ⟨rfl, hnext⟩

/-- **Every run**: the answers are the entries in order, the taken ranges follow each other, and each lies between the
boundaries of its two calls. -/
theorem trace_spec (hq : q.Ordered) (hb : q.Bounded) : ∀ (calls : List Call) {m t : Nat} {s : Scanner}, Answered q m t s →
    timely (decide (t < m)) calls = true →
    answers (s.trace make calls) = (List.range' m (calls.count .next)).map (q.answer make) ∧
      Tiles q.backward (q.bound t) ((taken (s.trace make calls)).map q.ends)
        (q.bound (marks (m, t) (s.trace make calls)).2) ∧
      ∀ before range later, s.trace make calls = before ++ .take range :: later →
        q.ends range = (q.bound (marks (m, t) before).2, q.bound (marks (m, t) before).1)
  | [], m, t, s, _, _ => by
    refine ⟨rfl, .nil _, fun before range later heq => ?_⟩
    exact absurd heq (by simp [trace])
  | .next :: calls, m, t, s, h, ht => by
    obtain ⟨hanswer, hnext⟩ := h.next make hq hb
    have hle : t ≤ m := by
      obtain ⟨pre, hwalk, -⟩ := h.walk
      exact hwalk.le
    have htrue : decide (t < m + 1) = true := by simp; omega
    obtain ⟨hanswers, htiles, hranges⟩ := trace_spec hq hb calls hnext (by rw [htrue]; exact ht)
    refine ⟨?_, htiles, ?_⟩
    · rw [count_cons_self, range'_succ, map_cons, ← hanswer, ← hanswers]
      rfl
    · intro before range later heq
      cases before with
      | nil => exact absurd (cons.inj heq).1 (by simp [call])
      | cons e before =>
        obtain ⟨rfl, heq'⟩ := cons.inj heq
        exact hranges before range later heq'
  | .take :: calls, m, t, s, h, ht => by
    rw [timely, Bool.and_eq_true, decide_eq_true_iff] at ht
    obtain ⟨hnear, hfar, hnext⟩ := h.take ht.1
    have hends : q.ends s.takeScannedRange.2 = (q.bound t, q.bound m) := by
      rw [ends, hnear, hfar]
    have hfalse : decide (m < m) = false := by simp
    obtain ⟨hanswers, htiles, hranges⟩ := trace_spec hq hb calls hnext (by rw [hfalse]; exact ht.2)
    refine ⟨?_, ?_, ?_⟩
    · rw [count_cons_of_ne (by decide), ← hanswers]
      rfl
    · change Tiles q.backward (q.bound t) (q.ends s.takeScannedRange.2 :: _) _
      rw [hends]
      exact .cons (bound_mono hq ht.1.le) htiles
    · intro before range later heq
      cases before with
      | nil =>
        obtain ⟨hevent, -⟩ := cons.inj heq
        cases hevent
        exact hends
      | cons e before =>
        obtain ⟨rfl, heq'⟩ := cons.inj heq
        exact hranges before range later heq'

theorem whole_ends (q : Request) : q.ends q.whole = (q.near q.firstBounds, q.far q.lastBounds) := by
  unfold ends whole near far
  cases q.backward <;> rfl

/-- **Range scanning reports exactly what it covered.**  The answers are the entries of the ranges in scan order, then
none.  The taken ranges follow each other from where the first range begins, without a gap and without a common key.  Each
holds the rows that were returned since the one before, and no other row of the request.  After the scan is drained they
cover everything from the first range's start to the last range's end. -/
theorem scanned_ranges (q : Request) (hq : q.Ordered) (hb : q.Bounded) (make : Row → Except ε κ) (calls : List Call)
    (ht : timely false calls = true) :
    answers (q.scanner.trace make calls) = (List.range (calls.count .next)).map (q.answer make) ∧
    (∃ last, Tiles q.backward (q.near q.firstBounds) ((taken (q.scanner.trace make calls)).map q.ends) last) ∧
    ((taken (q.scanner.trace make calls)).Pairwise fun r r' => ∀ k, r.contains k = true → r'.contains k = false) ∧
    (∀ before range later, q.scanner.trace make calls = before ++ .take range :: later →
      ∀ i row, q.rows[i]? = some row →
        (range.contains row.1 = true ↔ (marks (0, 0) before).2 ≤ i ∧ i < (marks (0, 0) before).1)) ∧
    ∀ before range, q.scanner.trace make calls = before ++ [.take range] → q.rows.length < (marks (0, 0) before).1 →
      ∀ k, (∃ r ∈ taken (q.scanner.trace make calls), r.contains k = true) ↔ q.whole.contains k = true := by
  obtain ⟨hanswers, htiles, hranges⟩ := trace_spec make hq hb calls (answered_scanner q) ht
  have hstart : q.bound 0 = q.near q.firstBounds := rfl
  refine ⟨by rw [hanswers, range_eq_range'], ⟨_, hstart ▸ htiles⟩, ?_, ?_, ?_⟩
  · have hdisjoint := htiles.pairwise_disjoint
    rw [pairwise_map] at hdisjoint
    refine hdisjoint.imp fun {r r'} hrr k hk => ?_
    rw [← Bool.not_eq_true, contains_iff (q := q)]
    exact fun hk' => hrr k ((contains_iff (q := q) r k).1 hk) hk'
  · intro before range later heq i row hi
    obtain ⟨hnear, hfar⟩ := Prod.mk.inj (hranges before range later heq)
    rw [contains_iff (q := q), mem_between, hnear, hfar, behind_bound hq hi, behind_bound hq hi, not_lt]
  · intro before range heq hdrained k
    have hmark : (marks (0, 0) (q.scanner.trace make calls)).2 = (marks (0, 0) before).1 := by
      rw [heq, marks_append]
      rfl
    have hlast : q.bound (marks (0, 0) before).1 = q.far q.lastBounds := by
      obtain ⟨n, hn⟩ : ∃ n, (marks (0, 0) before).1 = n + 1 := ⟨(marks (0, 0) before).1 - 1, by omega⟩
      rw [hn]
      exact bound_succ_of_none (getElem?_eq_none (by omega))
    have hcover := htiles.mem_iff (k := k)
    obtain ⟨hnear, hfar⟩ := Prod.mk.inj (whole_ends q)
    rw [hmark, hlast, hstart, ← hnear, ← hfar] at hcover
    rw [contains_iff (q := q) q.whole, ← hcover]
    simp only [mem_map]
    constructor
    · rintro ⟨r, hr, hk⟩
      exact ⟨q.ends r, ⟨r, hr, rfl⟩, (contains_iff (q := q) r k).1 hk⟩
    · rintro ⟨p, ⟨r, hr, rfl⟩, hk⟩
      exact ⟨r, hr, (contains_iff (q := q) r k).2 hk⟩

end

/-! ### Runs on a small table -/

def sampleTable : Table := ⟨[([1], [7]), ([3], [8])], by decide⟩

def sampleRequest (ranges : List IntervalRange) : Request :=
  { table := sampleTable, ranges := ranges.map .interval, backward := false, isKeyOnly := false }

theorem scanned_ranges_sample : taken ((sampleRequest [⟨[1], [2]⟩, ⟨[2], [4]⟩]).scanner.trace (Except.ok (ε := Unit))
        [.next, .take, .next, .next, .take]) = [⟨[1], [1, 0]⟩, ⟨[1, 0], [4]⟩] ∧
      answers ((sampleRequest [⟨[1], [2]⟩, ⟨[2], [4]⟩]).scanner.trace (Except.ok (ε := Unit))
        [.next, .take, .next, .next, .take]) =
        (range 3).map ((sampleRequest [⟨[1], [2]⟩, ⟨[2], [4]⟩]).answer Except.ok) := by
  have hordered : (sampleRequest [⟨[1], [2]⟩, ⟨[2], [4]⟩]).Ordered := ⟨by decide, fun _ => by decide, nofun⟩
  exact ⟨by decide, (scanned_ranges _ hordered (by unfold Request.Bounded; decide) Except.ok _ (by decide)).1⟩

/-- **Where an empty key stands for no key.**  Taking a second range without a `next` between gives one that ends with the
empty key, and the following one begins with it: it holds the row of the first again.  A first range from the empty key
on is forgotten when the second one begins: the row that it gave is in no range. -/
theorem scanned_ranges_limits :
    taken ((sampleRequest [⟨[1], [4]⟩]).scanner.trace (Except.ok (ε := Unit)) [.next, .take, .take, .next, .take]) =
        [⟨[1], [1, 0]⟩, ⟨[1, 0], []⟩, ⟨[], [3, 0]⟩] ∧
      taken ((sampleRequest [⟨[], [2]⟩, ⟨[2], [4]⟩]).scanner.trace (Except.ok (ε := Unit))
        [.next, .next, .next, .take]) = [⟨[2], [4]⟩] ∧
      (sampleRequest [⟨[], [2]⟩, ⟨[2], [4]⟩]).rows = [([1], [7]), ([3], [8])] := by
  decide

end Query
end Tikv
