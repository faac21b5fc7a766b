import Mathlib.Data.List.TakeWhile
import Tikv.ImeIterator
/-!
# ImeSearch — the two searches of the iterator

The pairs visible to a snapshot within the bounds form a sorted `view`.  The forward search comes to the first entry to
show from where it starts (`findNextFrom_spec`), the backward search to the last one, with the skip list's iterator left
before all entries of its key (`prevLoop_spec`).
-/
namespace Tikv
namespace Ime

open Lib List RegionCacheIterator Entry

/-! ## The order of the entries -/

namespace Entry

theorem before_iff {a b : Entry} :
    a.key.Before b.key ↔ a.userKey < b.userKey ∨ a.userKey = b.userKey ∧ b.num < a.num := by
  unfold InternalBytes.Before
  rw [UInt64.lt_iff_toNat_lt, toNat_key_num, toNat_key_num]
  rfl

theorem vType_eq_of_num {a b : Entry} (h : a.num = b.num) : a.vType = b.vType := by
  unfold num at h
  have ha := a.vType.toNat_lt
  have hb := b.vType.toNat_lt
  have htype : a.vType.toU64.toNat = b.vType.toU64.toNat := by omega
  cases hta : a.vType <;> cases htb : b.vType <;> simp_all [ValueType.toU64]

theorem sequence_le_of_num {a b : Entry} (h : a.num ≤ b.num) : a.sequence ≤ b.sequence := by
  unfold num at h
  have hb := b.vType.toNat_lt
  rw [UInt64.le_iff_toNat_le]
  omega

end Entry

variable {d : SkipList} {q : UInt64} {y z : Entry}

theorem SkipList.before_of_split {pre post : List Entry} (h : d.entries = pre ++ post) (hy : y ∈ pre)
    (hz : z ∈ post) : y.userKey < z.userKey ∨ y.userKey = z.userKey ∧ z.num < y.num := by
  have hsorted := d.sorted
  rw [h] at hsorted
  exact before_iff.1 ((pairwise_append.1 hsorted).2.2 y hy z hz)

theorem SkipList.le_of_split {pre post : List Entry} (h : d.entries = pre ++ post) (hy : y ∈ pre)
    (hz : z ∈ post) : y.userKey ≤ z.userKey := by
  rcases d.before_of_split h hy hz with hlt | ⟨heq, -⟩
  · exact le_of_lt hlt
  · exact le_of_eq heq

variable {e : Entry}

theorem SkipList.le_of_mem_cons {pre post : List Entry} (h : d.entries = pre ++ e :: post)
    (hy : y ∈ e :: post) : e.userKey ≤ y.userKey := by
  rcases mem_cons.1 hy with rfl | hy
  · exact le_refl _
  rw [append_cons] at h
  exact d.le_of_split h (mem_append_right _ (mem_singleton.2 rfl)) hy

theorem SkipList.mem_upto {c : Cursor Entry} (hall : c.all = d.entries) (hy : y ∈ d.entries)
    (hnot : y ∉ c.after) : y ∈ c.upto := by
  rw [← hall] at hy
  exact mem_reverse.1 ((mem_append.1 hy).resolve_right hnot)

theorem Newest.ne_of_shown {x : Entry} (hnew : Newest d.entries q e) (he : e ∈ d.entries) (htype : e.vType = .deletion)
    (hx : Shown d.entries q x) : x.userKey ≠ e.userKey := by
  intro hkey
  have hle := hx.2.1.2 e he hkey.symm hnew.1
  have hge := hnew.2 x hx.1 hkey hx.2.1.1
  have heq := vType_eq_of_num (le_antisymm hle hge)
  rw [htype, hx.2.2] at heq
  cases heq

/-! ## The view -/

theorem sorted_view (d : SkipList) (q : UInt64) (lower upper : Bytes) :
    ((d.entries.filter fun e => decide (Shown d.entries q e ∧ lower ≤ e.userKey ∧ e.userKey < upper)).map
      fun e => (e.userKey, e.value)).Pairwise fun a b => a.1 < b.1 := by
  refine pairwise_map.2 ?_
  have hmem : ∀ x ∈ d.entries.filter fun e => decide (Shown d.entries q e ∧ lower ≤ e.userKey ∧ e.userKey < upper),
      Shown d.entries q x := fun x hx => (of_decide_eq_true (mem_filter.1 hx).2).1
  refine ((d.sorted.filter _).imp_of_mem ?_)
  intro a b ha hb hab
  rcases before_iff.1 hab with hlt | ⟨heq, hnum⟩
  · exact hlt
  · exact absurd hnum (not_lt.2 ((hmem b hb).2.1.2 a (hmem a ha).1 heq (hmem a ha).2.1.1))

/-- **The pairs within the bounds whose newest visible version is a value.** -/
def view (d : SkipList) (q : UInt64) (lower upper : Bytes) : View Bytes Bytes :=
  ⟨(d.entries.filter fun e => decide (Shown d.entries q e ∧ lower ≤ e.userKey ∧ e.userKey < upper)).map
    fun e => (e.userKey, e.value), sorted_view d q lower upper⟩

theorem mem_view {lower upper : Bytes} {p : Bytes × Bytes} : p ∈ (view d q lower upper).pairs ↔
    ∃ x, Shown d.entries q x ∧ lower ≤ x.userKey ∧ x.userKey < upper ∧ (x.userKey, x.value) = p := by
  unfold view
  simp only [mem_map, mem_filter, decide_eq_true_eq]
  constructor
  · rintro ⟨x, ⟨-, hx, hlow, hup⟩, heq⟩
    exact ⟨x, hx, hlow, hup, heq⟩
  · rintro ⟨x, hx, hlow, hup, heq⟩
    exact ⟨x, ⟨hx.1, hx, hlow, hup⟩, heq⟩

/-! ## Going forward -/

def Target (d : SkipList) (q : UInt64) (skip : Bool) (saved : Bytes) (x : Entry) : Prop :=
  Shown d.entries q x ∧ (skip = true → x.userKey ≠ saved)

/-- **How the forward search ends**: at the first target of `rest` below the upper bound, or with none. -/
inductive Forwarded (d : SkipList) (q : UInt64) (skip : Bool) (saved : Bytes) (s : RegionCacheIterator)
    (before rest : List Entry) : RegionCacheIterator → Prop
  | found (pre post : List Entry) {x : Entry} {iter : Cursor Entry} (hrest : rest = pre ++ x :: post)
      (hiter : iter = ⟨x :: (pre.reverse ++ before), post⟩) (hlt : x.userKey < s.upperBound)
      (hx : Target d q skip saved x) (hpre : ∀ y ∈ pre, ¬ Target d q skip saved y) :
      Forwarded d q skip saved s before rest { s with valid := true, savedUserKey := x.userKey, iter }
  | none {last : Bytes} {iter : Cursor Entry} (hall : iter.all = before.reverse ++ rest)
      (hnone : ∀ y ∈ rest, y.userKey < s.upperBound → ¬ Target d q skip saved y) :
      Forwarded d q skip saved s before rest { s with valid := false, savedUserKey := last, iter }

variable {s : RegionCacheIterator} {before : List Entry} {skip : Bool} {s' : RegionCacheIterator}

theorem Forwarded.cons {skip' : Bool} {saved saved' : Bytes} {rest : List Entry} (he : ¬ Target d q skip saved e)
    (htarget : ∀ y ∈ rest, Target d q skip' saved' y ↔ Target d q skip saved y)
    (h : Forwarded d q skip' saved' { s with savedUserKey := saved' } (e :: before) rest s') :
    Forwarded d q skip saved s before (e :: rest) s' := by
  cases h with
  | @found pre post x iter hrest hiter hlt hx hpre =>
    subst hrest
    refine .found (e :: pre) post (cons_append ..).symm ?_ hlt ?_ fun y hy => ?_
    · rw [hiter, reverse_cons, append_assoc]
      rfl
    · exact (htarget x (by simp)).1 hx
    · rcases mem_cons.1 hy with rfl | hy
      · exact he
      · exact fun hy' => hpre y hy ((htarget y (mem_append_left _ hy)).2 hy')
  | none hall hnone =>
    refine .none ?_ fun y hy hlt => ?_
    · rw [hall, reverse_cons, append_assoc]
      rfl
    · rcases mem_cons.1 hy with rfl | hy
      · exact he
      · exact fun hy' => hnone y hy hlt ((htarget y hy).2 hy')

theorem Forwarded.last {saved saved' : Bytes} (he : ¬ Target d q skip saved e) : Forwarded d q skip saved s before [e]
      { s with valid := false, savedUserKey := saved', iter := Cursor.next ⟨e :: before, []⟩ } := by
  refine .none ?_ fun y hy _ => ?_
  · simp [Cursor.all, Cursor.next]
  · cases mem_singleton.1 hy
    exact he

/-- What the forward search knows at `e`: nothing to come is below the key to skip, and no visible entry passed before
shares its user key with one to come, unless that is the key to skip. -/
structure Ahead (q : UInt64) (skip : Bool) (saved : Bytes) (before rest : List Entry) : Prop where
  saved_le : skip = true → ∀ y ∈ rest, saved ≤ y.userKey
  fresh : ∀ y ∈ rest, (skip = true → y.userKey ≠ saved) → ∀ z ∈ before, z.userKey = y.userKey → ¬ z.sequence ≤ q

theorem Ahead.tail {saved : Bytes} {after : List Entry}
    (h : Ahead q skip saved before (e :: after)) (he : e.sequence ≤ q → skip = true ∧ e.userKey = saved) :
    Ahead q skip saved (e :: before) after := by
  refine ⟨fun hs y hy => h.saved_le hs y (mem_cons_of_mem _ hy), fun y hy hne z hz hkey => ?_⟩
  rcases mem_cons.1 hz with rfl | hz
  · exact fun hvis => hne (he hvis).1 (hkey.symm.trans (he hvis).2)
  · exact h.fresh y (mem_cons_of_mem _ hy) hne z hz hkey

open RegionCacheIterator in
inductive RoundSpec (d : SkipList) (q : UInt64) (skip : Bool) (s : RegionCacheIterator) (e : Entry)
    (before after : List Entry) : Round → Prop
  | above (h : s.upperBound ≤ e.userKey) : RoundSpec d q skip s e before after (.stop false s.savedUserKey)
  | found (hlt : e.userKey < s.upperBound) (he : Target d q skip s.savedUserKey e) :
      RoundSpec d q skip s e before after (.stop true e.userKey)
  | goOn {skip' : Bool} {saved' : Bytes} (he : ¬ Target d q skip s.savedUserKey e)
      (htarget : ∀ y ∈ after, Target d q skip' saved' y ↔ Target d q skip s.savedUserKey y)
      (hahead : Ahead q skip' saved' (e :: before) after) : RoundSpec d q skip s e before after (.goOn skip' saved')

section Round

variable {skip : Bool} {e : Entry} {before after : List Entry} (hall : d.entries = before.reverse ++ e :: after)
  {saved : Bytes}

include hall in
theorem newest_of_ahead (h : Ahead q skip saved before (e :: after)) (hvis : e.sequence ≤ q)
    (hne : skip = true → e.userKey ≠ saved) : Newest d.entries q e := by
  refine ⟨hvis, fun y hy hkey hyvis => ?_⟩
  rw [hall] at hy
  rcases mem_append.1 hy with hy | hy
  · exact absurd hyvis (h.fresh e mem_cons_self hne y (mem_reverse.1 hy) hkey)
  rcases mem_cons.1 hy with rfl | hy
  · exact le_rfl
  rw [append_cons] at hall
  rcases d.before_of_split hall (mem_append_right _ (mem_singleton.2 rfl)) hy with hlt | ⟨-, hnum⟩
  · exact absurd hkey (ne_of_gt hlt)
  · exact le_of_lt hnum

variable {s : RegionCacheIterator} (hq : s.sequenceNumber = q) (h : Ahead q skip s.savedUserKey before (e :: after))

include hq hall h in
theorem nextRound_spec : RoundSpec d q skip s e before after (s.nextRound skip e) := by
  have hafter : ∀ y ∈ after, e.userKey ≤ y.userKey := fun y hy => d.le_of_mem_cons hall (mem_cons_of_mem e hy)
  have hle : skip = true → s.savedUserKey ≤ e.userKey := fun hskip => h.saved_le hskip e mem_cons_self
  unfold nextRound isVisible
  rw [hq]
  split
  · rename_i hup
    exact .above hup
  rename_i hup
  have hlt : e.userKey < s.upperBound := not_le.1 hup
  split
  · rename_i hvis
    have hvis : e.sequence ≤ q := of_decide_eq_true hvis
    split
    · -- the user key has been met before
      rename_i hsaved
      obtain ⟨hskip, hsaved⟩ := Bool.and_eq_true_iff.1 hsaved
      have hsaved : e.userKey = s.savedUserKey := of_decide_eq_true hsaved
      exact .goOn (fun he => he.2 hskip hsaved) (fun _ _ => Iff.rfl) (h.tail fun _ => ⟨hskip, hsaved⟩)
    · rename_i hsaved
      have hne : skip = true → e.userKey ≠ s.savedUserKey := fun hskip heq =>
        hsaved (Bool.and_eq_true_iff.2 ⟨hskip, decide_eq_true heq⟩)
      have hnewest := newest_of_ahead hall h hvis hne
      have hmeme : e ∈ d.entries := by rw [hall]; simp
      cases htype : e.vType with
      | value => exact .found hlt ⟨⟨hmeme, hnewest, htype⟩, hne⟩
      | deletion =>
        -- the key is deleted, so that nothing of it is a target
        have hdead : ∀ y, Shown d.entries q y → y.userKey ≠ e.userKey := fun y hy => hnewest.ne_of_shown hmeme htype hy
        refine .goOn (fun he => hdead e he.1 rfl) (fun y hy => ?_) ⟨fun _ y hy => hafter y hy, ?_⟩
        · constructor
          · intro ht
            refine ⟨ht.1, fun hskip heq => ?_⟩
            have hlt' : s.savedUserKey < e.userKey := lt_of_le_of_ne (hle hskip) (hne hskip).symm
            exact absurd heq (ne_of_gt (lt_of_lt_of_le hlt' (hafter y hy)))
          · exact fun ht => ⟨ht.1, fun _ => hdead y ht.1⟩
        · intro y hy hney z hz hkey
          have hlt' : e.userKey < y.userKey := lt_of_le_of_ne (hafter y hy) (hney rfl).symm
          rcases mem_cons.1 hz with rfl | hz
          · exact absurd hkey (ne_of_lt hlt')
          have hze := d.le_of_split hall (mem_reverse.2 hz) mem_cons_self
          exact absurd hkey (ne_of_lt (lt_of_le_of_lt hze hlt'))
  · rename_i hvis
    have hvis : ¬ e.sequence ≤ q := fun hv => hvis (decide_eq_true hv)
    have hnot : ¬ Target d q skip s.savedUserKey e := fun he => hvis he.1.2.1.1
    split
    · rename_i hpast
      obtain ⟨hskip, hpast⟩ := Bool.and_eq_true_iff.1 hpast
      have hpast : s.savedUserKey < e.userKey := of_decide_eq_true hpast
      have hney : ∀ y ∈ after, y.userKey ≠ s.savedUserKey := fun y hy => ne_of_gt (lt_of_lt_of_le hpast (hafter y hy))
      have hahead := h.tail fun hle => absurd hle hvis
      refine .goOn hnot (fun y hy => ?_) ⟨nofun, fun y hy _ => hahead.fresh y hy fun _ => hney y hy⟩
      exact ⟨fun ht => ⟨ht.1, fun _ => hney y hy⟩, fun ht => ⟨ht.1, nofun⟩⟩
    · exact .goOn hnot (fun _ _ => Iff.rfl) (h.tail fun hle => absurd hle hvis)

include hall in
theorem forwarded_of_stop {valid : Bool} (hround : RoundSpec d q skip s e before after (.stop valid saved)) :
    Forwarded d q skip s.savedUserKey s before (e :: after)
      { s with valid, savedUserKey := saved, iter := ⟨e :: before, after⟩ } := by
  cases hround with
  | above hup =>
    refine .none ?_ fun y hy hlt => ?_
    · simp [Cursor.all]
    · exact absurd hlt (not_lt.2 (le_trans hup (d.le_of_mem_cons hall hy)))
  | found hlt he => exact .found [] after rfl rfl hlt he (by simp)

end Round

open RegionCacheIterator in
theorem findNextFrom_spec : ∀ (after : List Entry) (s : RegionCacheIterator) (skip : Bool) (e : Entry)
    (before : List Entry), s.sequenceNumber = q → d.entries = before.reverse ++ e :: after →
    Ahead q skip s.savedUserKey before (e :: after) →
    Forwarded d q skip s.savedUserKey s before (e :: after) (findNextFrom after s skip e before)
  | after, s, skip, e, before, hq, hall, h => by
    have hround := nextRound_spec hall hq h
    unfold findNextFrom
    cases hr : s.nextRound skip e with
    | stop valid saved => exact forwarded_of_stop hall (hr ▸ hround)
    | goOn skip' saved' =>
      rw [hr] at hround
      cases hround with
      | goOn he htarget hahead =>
        cases after with
        | nil => exact .last he
        | cons e' after =>
          refine .cons he htarget (findNextFrom_spec after { s with savedUserKey := saved' } skip' e' _ hq ?_ hahead)
          rw [hall, reverse_cons, append_assoc]
          rfl

/-! ## Going backward -/

structure SplitAt (c : Cursor Entry) (k : Bytes) : Prop where
  upto_lt : ∀ y ∈ c.upto, y.userKey < k
  le_after : ∀ y ∈ c.after, k ≤ y.userKey

/-- **How the backward search ends**: with the last shown entry of `upto`, the iterator before all entries of its key,
or with none at or above the lower bound. -/
inductive Backed (d : SkipList) (q : UInt64) (s : RegionCacheIterator) (upto : List Entry) : RegionCacheIterator → Prop
  | found {x : Entry} {iter : Cursor Entry} (hall : iter.all = d.entries) (hx : Shown d.entries q x) (hmem : x ∈ upto)
      (hlow : s.lowerBound ≤ x.userKey) (hmax : ∀ y ∈ upto, Shown d.entries q y → y.userKey ≤ x.userKey)
      (hsplit : SplitAt iter x.userKey) :
      Backed d q s upto
        { s with valid := true, savedUserKey := x.userKey, savedValue := some x.value, iter }
  | none {last : Bytes} {savedValue : Option Bytes} {iter : Cursor Entry} (hall : iter.all = d.entries)
      (hnone : ∀ y ∈ upto, Shown d.entries q y → y.userKey < s.lowerBound) :
      Backed d q s upto { s with valid := false, savedUserKey := last, savedValue, iter }

def Entry.saved (e : Entry) : Option Bytes := if e.vType = .value then some e.value else none

namespace RegionCacheIterator

def inReach (s : RegionCacheIterator) (e : Entry) : Bool := s.isVisible e.sequence && s.savedUserKey = e.userKey

theorem inReach_iff :
    s.inReach e = true ↔ e.sequence ≤ s.sequenceNumber ∧ s.savedUserKey = e.userKey := by
  simp [inReach, isVisible]

theorem findValueFrom_eq : ∀ (upto : List Entry) (s : RegionCacheIterator) (after : List Entry) (last : ValueType),
    findValueFrom upto s after last =
      ({ s with
          iter := ⟨upto.dropWhile s.inReach, (upto.takeWhile s.inReach).reverse ++ after⟩
          savedValue := (upto.takeWhile s.inReach).getLast?.elim s.savedValue saved },
        (upto.takeWhile s.inReach).getLast?.elim last vType)
  | [], s, after, last => rfl
  | e :: upto, s, after, last => by
    unfold findValueFrom
    cases hreach : s.inReach e with
    | false =>
      have hstop : s.isVisible e.sequence = false ∨ s.savedUserKey ≠ e.userKey := by
        simpa only [inReach, Bool.and_eq_false_iff, decide_eq_false_iff_not] using hreach
      rw [if_pos hstop, takeWhile_cons_of_neg (by simp [hreach]), dropWhile_cons_of_neg (by simp [hreach])]
      rfl
    | true =>
      have hgo : ¬ (s.isVisible e.sequence = false ∨ s.savedUserKey ≠ e.userKey) := by simpa [inReach] using hreach
      rw [if_neg hgo, takeWhile_cons_of_pos hreach, dropWhile_cons_of_pos hreach]
      rw [findValueFrom_eq]
      have hreach' : ∀ v, inReach { s with savedValue := v } = s.inReach := fun _ => rfl
      simp only [hreach', getLast?_cons, reverse_cons, append_assoc, Option.elim_some]
      cases (upto.takeWhile s.inReach).getLast? with
      | some y => rfl
      | none =>
        simp only [Option.getD_none]
        unfold saved
        cases e.vType <;> rfl

theorem findBeforeFrom_spec {saved : Bytes} : ∀ {upto after : List Entry}, upto.reverse ++ after = d.entries →
    (∀ y ∈ after, saved ≤ y.userKey) → (findBeforeFrom saved upto after).all = d.entries ∧
      (findBeforeFrom saved upto after).upto <:+ upto ∧ SplitAt (findBeforeFrom saved upto after) saved
  | [], after, hall, hafter => ⟨hall, suffix_refl _, nofun, hafter⟩
  | e :: upto, after, hall, hafter => by
    unfold findBeforeFrom
    split
    · rename_i hlt
      refine ⟨hall, suffix_refl _, fun y hy => ?_, hafter⟩
      rw [reverse_cons, append_assoc] at hall
      rcases mem_cons.1 hy with rfl | hy
      · exact hlt
      · exact lt_of_le_of_lt (d.le_of_split hall.symm (mem_reverse.2 hy) (by simp)) hlt
    · rename_i hlt
      have hall' : upto.reverse ++ e :: after = d.entries := by
        rw [← hall, reverse_cons, append_assoc]
        rfl
      obtain ⟨h1, h2, h3⟩ := findBeforeFrom_spec hall' (forall_mem_cons.2 ⟨not_lt.1 hlt, hafter⟩)
      exact ⟨h1, h2.trans (suffix_cons e upto), h3⟩

def reached (s : RegionCacheIterator) (k : Bytes) : List Entry :=
  s.iter.upto.takeWhile (inReach { s with savedUserKey := k })

def valueOf (s : RegionCacheIterator) (k : Bytes) : RegionCacheIterator :=
  { s with
    savedUserKey := k
    savedValue := (s.reached k).getLast?.elim s.savedValue Entry.saved
    valid := decide ((s.reached k).getLast?.elim .deletion Entry.vType = .value)
    iter := ⟨s.iter.upto.dropWhile (inReach { s with savedUserKey := k }), (s.reached k).reverse ++ s.iter.after⟩ }

theorem findValueForCurrentKey_eq (k : Bytes) :
    findValueForCurrentKey { s with savedUserKey := k } = (s.valueOf k, (s.valueOf k).iter.valid) := by
  unfold findValueForCurrentKey
  rw [findValueFrom_eq]
  rfl

def roundOf (s : RegionCacheIterator) (k : Bytes) : RegionCacheIterator := (s.valueOf k).findUserKeyBeforeSaved

theorem prevLoop_of_nil (hnil : s.iter.upto = []) (hvalid : s.valid = false) :
    ∀ rounds, prevLoop rounds s = s
  | 0 => by
    unfold prevLoop
    rw [← hvalid]
  | rounds + 1 => by
    unfold prevLoop Cursor.current?
    rw [hnil, ← hvalid]
    rfl

theorem prevLoop_succ (rounds : Nat) (he : s.iter.current? = some e)
    (hlow : ¬ e.userKey < s.lowerBound) : prevLoop (rounds + 1) s =
      if (s.roundOf e.userKey).valid then s.roundOf e.userKey else prevLoop rounds (s.roundOf e.userKey) := by
  conv_lhs => unfold prevLoop
  rw [he]
  dsimp only
  rw [if_neg hlow, findValueForCurrentKey_eq]
  split
  · -- nothing is left before the entries of the key
    rename_i hmore
    have hnil : (s.valueOf e.userKey).iter.upto = [] := by simpa [Cursor.valid] using hmore
    have hround : s.roundOf e.userKey = s.valueOf e.userKey := by
      unfold roundOf findUserKeyBeforeSaved
      rw [hnil]
      unfold findBeforeFrom
      rw [← hnil]
    rw [hround]
    split
    · rfl
    rename_i hvalid
    exact (prevLoop_of_nil hnil (Bool.eq_false_iff.2 hvalid) rounds).symm
  · rfl

end RegionCacheIterator

theorem Backed.of_round {k : Bytes} {upto upto' : List Entry}
    (h : Backed d q (s.roundOf k) upto' s') (hsub : ∀ y ∈ upto', y ∈ upto)
    (hmem : ∀ y ∈ upto, Shown d.entries q y → y ∈ upto') : Backed d q s upto s' := by
  cases h with
  | found hall hx hx' hlow hmax hsplit =>
    exact .found hall hx (hsub _ hx') hlow (fun y hy hshown => hmax y (hmem y hy hshown) hshown) hsplit
  | none hall hnone => exact .none hall fun y hy hshown => hnone y (hmem y hy hshown) hshown

/-! ## The entries of a key, from behind -/

section Reached

variable {s : RegionCacheIterator} {e : Entry} {rest : List Entry} (hq : s.sequenceNumber = q)
  (hall : s.iter.all = d.entries) (hupto : s.iter.upto = e :: rest)
  (hbound : ∀ a ∈ s.iter.upto, ∀ b ∈ s.iter.after, a.userKey < b.userKey)

include hall in
theorem pairwise_upto : s.iter.upto.Pairwise fun a b => b.userKey < a.userKey ∨ b.userKey = a.userKey ∧ a.num < b.num := by
  have hsorted := d.sorted
  rw [← hall] at hsorted
  exact (pairwise_reverse.1 (pairwise_append.1 hsorted).1).imp before_iff.1

include hall hupto in
theorem le_head_upto (hy : y ∈ s.iter.upto) : y.userKey ≤ e.userKey := by
  have hpair := pairwise_upto hall
  rw [hupto] at hpair hy
  rcases mem_cons.1 hy with rfl | hy
  · exact le_refl _
  rcases (pairwise_cons.1 hpair).1 y hy with hlt | ⟨heq, -⟩
  · exact le_of_lt hlt
  · exact le_of_eq heq

include hq hall hupto hbound in
theorem mem_reached (hz : z ∈ d.entries) (hkey : z.userKey = e.userKey) (hvis : z.sequence ≤ q) :
    z ∈ s.reached e.userKey := by
  have hmem : z ∈ s.iter.upto := d.mem_upto hall hz fun hz =>
    ne_of_gt (hbound e (by rw [hupto]; exact mem_cons_self) z hz) hkey
  -- from behind, what comes before a version in reach is in reach
  have hdown : s.iter.upto.Pairwise fun a b => inReach { s with savedUserKey := e.userKey } b = true →
      inReach { s with savedUserKey := e.userKey } a = true := by
    refine (pairwise_upto hall).imp_of_mem fun ha _ hab hb => ?_
    obtain ⟨hvis, hkey⟩ := inReach_iff.1 hb
    rcases hab with hlt | ⟨heq, hnum⟩
    · exact absurd (le_head_upto hall hupto ha) (not_le.2 (hkey.trans_lt hlt))
    refine inReach_iff.2 ⟨?_, hkey.trans heq⟩
    exact UInt64.le_trans (sequence_le_of_num (le_of_lt hnum)) hvis
  rw [← takeWhile_append_dropWhile (p := inReach { s with savedUserKey := e.userKey })
    (l := s.iter.upto)] at hmem
  refine (mem_append.1 hmem).resolve_right fun hdrop => ?_
  have hfails := fails_of_mem_dropWhile hdown z hdrop
  exact Bool.eq_false_iff.1 hfails (inReach_iff.2 ⟨hq ▸ hvis, hkey.symm⟩)

include hq hall hupto hbound in
theorem newest_getLast (hy : (s.reached e.userKey).getLast? = some y) :
    y ∈ d.entries ∧ y.userKey = e.userKey ∧ Newest d.entries q y := by
  obtain ⟨init, hinit⟩ := getLast?_eq_some_iff.1 hy
  have hmem : y ∈ s.reached e.userKey := by rw [hinit]; simp
  have hyupto : y ∈ s.iter.upto := (takeWhile_sublist _).subset hmem
  obtain ⟨hvis, hkey : e.userKey = y.userKey⟩ := inReach_iff.1 (mem_takeWhile_imp hmem)
  refine ⟨?_, hkey.symm, hq ▸ hvis, fun z hz hzkey hzvis => ?_⟩
  · rw [← hall]
    exact mem_append_left _ (mem_reverse.2 hyupto)
  · have hz := mem_reached hq hall hupto hbound hz (hzkey.trans hkey.symm) hzvis
    have hpair := (pairwise_upto hall).sublist (takeWhile_sublist
      (inReach { s with savedUserKey := e.userKey }))
    change (s.reached e.userKey).Pairwise _ at hpair
    rw [hinit] at hz hpair
    rcases mem_append.1 hz with hz | hz
    · rcases (pairwise_append.1 hpair).2.2 z hz y (mem_singleton.2 rfl) with hlt | ⟨-, hnum⟩
      · exact absurd hzkey (ne_of_gt hlt)
      · exact le_of_lt hnum
    · cases mem_singleton.1 hz
      exact le_rfl

include hq hall hupto hbound in
theorem roundOf_cases : (∃ x, Shown d.entries q x ∧ x.userKey = e.userKey ∧ (s.roundOf e.userKey).valid = true ∧
      (s.roundOf e.userKey).savedValue = some x.value) ∨
    ((s.roundOf e.userKey).valid = false ∧ ∀ y, Shown d.entries q y → y.userKey ≠ e.userKey) := by
  have hvalid : (s.roundOf e.userKey).valid =
    decide ((s.reached e.userKey).getLast?.elim .deletion vType = .value) := rfl
  have hsaved : (s.roundOf e.userKey).savedValue =
    (s.reached e.userKey).getLast?.elim s.savedValue saved := rfl
  rw [hvalid, hsaved]
  cases hlast : (s.reached e.userKey).getLast? with
  | none =>
    refine .inr ⟨rfl, fun y hy hkey => ?_⟩
    have := mem_reached hq hall hupto hbound hy.1 hkey hy.2.1.1
    rw [getLast?_eq_none_iff.1 hlast] at this
    cases this
  | some x =>
    obtain ⟨hmem, hkey, hnewest⟩ := newest_getLast hq hall hupto hbound hlast
    cases htype : x.vType with
    | value =>
      refine .inl ⟨x, ⟨hmem, hnewest, htype⟩, hkey, decide_eq_true htype, ?_⟩
      exact if_pos htype
    | deletion =>
      exact .inr ⟨decide_eq_false (by simp [htype]), fun y hy => hkey ▸ hnewest.ne_of_shown hmem htype hy⟩

include hall hupto hbound in
theorem roundOf_split : (s.roundOf e.userKey).iter.all = d.entries ∧ (s.roundOf e.userKey).iter.upto <:+ rest ∧
    SplitAt (s.roundOf e.userKey).iter e.userKey := by
  have hentries : (s.valueOf e.userKey).iter.upto.reverse ++ (s.valueOf e.userKey).iter.after = d.entries := by
    rw [← hall]
    unfold valueOf reached Cursor.all
    rw [← append_assoc, ← reverse_append, takeWhile_append_dropWhile]
  have hafter : ∀ y ∈ (s.valueOf e.userKey).iter.after, e.userKey ≤ y.userKey := by
    refine forall_mem_append.2 ⟨fun y hy => ?_, fun y hy => ?_⟩
    · exact le_of_eq (inReach_iff.1 (mem_takeWhile_imp (mem_reverse.1 hy))).2
    · exact le_of_lt (hbound e (by rw [hupto]; exact mem_cons_self) y hy)
  obtain ⟨hall', hsuffix, hsplit⟩ := findBeforeFrom_spec hentries hafter
  refine ⟨hall', ?_, hsplit⟩
  have hsuffix : (s.roundOf e.userKey).iter.upto <:+ e :: rest := hupto ▸ hsuffix.trans (dropWhile_suffix _)
  refine (suffix_cons_iff.1 hsuffix).resolve_left fun heq => ?_
  -- the entry the round started at has been passed
  exact lt_irrefl _ (hsplit.upto_lt e (heq ▸ mem_cons_self))

end Reached

theorem prevLoop_spec : ∀ (rounds : Nat) (s : RegionCacheIterator), s.sequenceNumber = q → s.iter.all = d.entries →
    (∀ a ∈ s.iter.upto, ∀ b ∈ s.iter.after, a.userKey < b.userKey) → s.iter.upto.length ≤ rounds →
    Backed d q s s.iter.upto (s.prevLoop rounds) := by
  intro rounds
  induction rounds with
  | zero =>
    intro s _ hall _ hlen
    refine .none hall fun y hy => ?_
    rw [length_eq_zero_iff.1 (Nat.le_zero.1 hlen)] at hy
    cases hy
  | succ rounds ih =>
    intro s hq hall hbound hlen
    cases hupto : s.iter.upto with
    | nil =>
      unfold prevLoop Cursor.current?
      rw [hupto]
      exact .none hall nofun
    | cons e rest =>
      have hcur : s.iter.current? = some e := by unfold Cursor.current?; rw [hupto]; rfl
      have hhead : ∀ y ∈ e :: rest, y.userKey ≤ e.userKey := fun y hy => le_head_upto hall hupto (hupto ▸ hy)
      by_cases hlow : e.userKey < s.lowerBound
      · unfold prevLoop
        rw [hcur]
        dsimp only
        rw [if_pos hlow]
        exact .none hall fun y hy _ => lt_of_le_of_lt (hhead y hy) hlow
      · rw [prevLoop_succ rounds hcur hlow]
        obtain ⟨hall', hsuffix, hsplit⟩ := roundOf_split hall hupto hbound
        rcases roundOf_cases hq hall hupto hbound with ⟨x, hx, hkey, hvalid, hsaved⟩ | ⟨hvalid, hdead⟩
        · have hround : s.roundOf e.userKey = { s with
              valid := true, savedUserKey := x.userKey, savedValue := some x.value
              iter := (s.roundOf e.userKey).iter } := by
            rw [← hvalid, ← hsaved, hkey]
            rfl
          rw [hround]
          refine .found hall' hx ?_ (hkey ▸ not_lt.1 hlow) (fun y hy _ => hkey ▸ hhead y hy) (hkey ▸ hsplit)
          have hmem := mem_reached hq hall hupto hbound hx.1 hkey hx.2.1.1
          exact hupto ▸ (takeWhile_sublist _).subset hmem
        · rw [if_neg (Bool.eq_false_iff.1 hvalid)]
          have hlen' : (s.roundOf e.userKey).iter.upto.length ≤ rounds := by
            have := hsuffix.length_le
            rw [hupto, length_cons] at hlen
            omega
          have hback := ih (s.roundOf e.userKey) hq hall'
            (fun a ha b hb => lt_of_lt_of_le (hsplit.upto_lt a ha) (hsplit.le_after b hb)) hlen'
          -- what is shown of `upto` is before the key
          have hmem : ∀ y ∈ e :: rest, Shown d.entries q y → y ∈ (s.roundOf e.userKey).iter.upto := by
            intro y hy hyshown
            refine d.mem_upto hall' hyshown.1 fun h => ?_
            exact hdead y hyshown (le_antisymm (hhead y hy) (hsplit.le_after y h))
          exact hback.of_round (fun y hy => mem_cons_of_mem _ (hsuffix.subset hy)) hmem

end Ime
end Tikv
