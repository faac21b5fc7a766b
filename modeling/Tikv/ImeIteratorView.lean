import Tikv.ImeSearch
import Tikv.LibRun
/-!
# ImeIteratorView — the iterator is a cursor over the visible pairs

Every call brings the iterator to where it brings a cursor over the sorted view of the visible pairs (`call_holds`), and
so does every run of calls.  The calls that come from behind the upper bound are the exception: `seek_for_prev` to the
upper bound itself takes the bound for a key to show, and the highest sequence number makes an entry of the upper bound
come before the key that is sought for it.
-/
namespace Tikv
namespace Ime

open Lib List RegionCacheIterator UInt64 View RegionCacheSnapshot

variable {d : SkipList} {q : UInt64}

/-! ## Where a seek lands -/

theorem toNat_u64Max : u64Max.toNat = 2 ^ 64 - 1 := by decide +kernel

theorem toNat_maxSequenceNumber : maxSequenceNumber.toNat = 2 ^ 56 - 1 := by decide +kernel

theorem Encodable.toNat_eq (hq : Encodable q) : q.toNat = 2 ^ 64 - 1 ∨ q.toNat < 2 ^ 56 := by
  rcases hq with rfl | hq
  · exact .inl toNat_u64Max
  have hzero : (q >>> 56).toNat = 0 := by rw [hq]; rfl
  rw [UInt64.toNat_shiftRight, Nat.shiftRight_eq_div_pow] at hzero
  change q.toNat / 2 ^ 56 = 0 at hzero
  omega

namespace Entry

variable {e : Entry} {k : Bytes}

theorem before_seekKey (hq : Encodable q) :
    e.key.Before (encodeSeekKey k q) ↔ e.userKey < k ∨ e.userKey = k ∧ q < e.sequence := by
  have hnum : (encodeSeekKey k q).num < e.key.num ↔ q < e.sequence := by
    rw [lt_iff_toNat_lt, lt_iff_toNat_lt, toNat_key_num]
    have hpack : (encodeSeekKey k q).num.toNat = q.toNat % 2 ^ 56 * 256 + 1 := toNat_packNum q .value
    have htype := e.vType.toNat_lt
    have hfits := e.fits
    rw [num]
    rcases hq.toNat_eq with h | h <;> omega
  unfold InternalBytes.Before
  rw [hnum]
  rfl

theorem seekForPrevKey_before : (encodeSeekForPrevKey k 0).Before e.key ↔ k < e.userKey := by
  have hnum : ¬ e.key.num < (encodeSeekForPrevKey k 0).num := by
    exact Nat.not_lt_zero _
  constructor
  · rintro (hlt | ⟨-, h⟩)
    · exact hlt
    · exact absurd h hnum
  · exact .inl

theorem seekForPrevMax_before : (encodeSeekForPrevKey k u64Max).Before e.key ↔
    k < e.userKey ∨ k = e.userKey ∧ e.sequence < maxSequenceNumber := by
  have hnum : e.key.num < (encodeSeekForPrevKey k u64Max).num ↔ e.sequence < maxSequenceNumber := by
    rw [lt_iff_toNat_lt, lt_iff_toNat_lt, toNat_key_num]
    have hpack : (encodeSeekForPrevKey k u64Max).num.toNat =
      u64Max.toNat % 2 ^ 56 * 256 + ValueType.deletion.toU64.toNat := toNat_packNum u64Max .deletion
    have hdel : ValueType.deletion.toU64.toNat = 0 := rfl
    have hmax := toNat_maxSequenceNumber
    rw [toNat_u64Max] at hpack
    have htype := e.vType.toNat_lt
    rw [num]
    omega
  unfold InternalBytes.Before
  rw [hnum]
  rfl

end Entry

/-- The entries before and from the place that a seek for the versions of `k` up to `q` lands at. -/
structure Sought (d : SkipList) (k : Bytes) (q : UInt64) (before rest : List Entry) : Prop where
  entries_eq : d.entries = before.reverse ++ rest
  before_key : ∀ y ∈ before, y.userKey < k ∨ y.userKey = k ∧ q < y.sequence
  rest_key : ∀ y ∈ rest, k ≤ y.userKey ∧ (y.userKey = k → y.sequence ≤ q)

variable {c : Cursor Entry}

theorem seekCursor_sought (hq : Encodable q) (k : Bytes) (hall : c.all = d.entries) :
    ∃ before rest, (seekCursor c (encodeSeekKey k q)).Stands before rest ∧ Sought d k q before rest := by
  have happ := takeWhile_append_dropWhile (p := fun e : Entry => decide (e.key.Before (encodeSeekKey k q))) (l := c.all)
  rw [hall] at happ
  have hdown : d.entries.Pairwise fun a b => decide (b.key.Before (encodeSeekKey k q)) = true →
      decide (a.key.Before (encodeSeekKey k q)) = true := by
    refine d.sorted.imp fun hab hb => ?_
    rw [decide_eq_true_iff, Entry.before_seekKey hq] at hb ⊢
    rcases Entry.before_iff.1 hab with hlt | ⟨heq, hnum⟩
    · exact .inl (hb.elim (lt_trans hlt) fun hb => hb.1 ▸ hlt)
    rcases hb with hb | ⟨hb, hseq⟩
    · exact .inl (heq ▸ hb)
    · exact .inr ⟨heq.trans hb, UInt64.lt_of_lt_of_le hseq (Entry.sequence_le_of_num (le_of_lt hnum))⟩
  refine ⟨_, _, c.stands_seek _, ?_, fun y hy => ?_, fun y hy => ?_⟩
  · rw [hall, reverse_reverse, happ]
  · have hbefore := mem_takeWhile_imp (mem_reverse.1 hy)
    exact (Entry.before_seekKey hq).1 (of_decide_eq_true hbefore)
  · rw [hall] at hy
    have hnot := of_decide_eq_false (fails_of_mem_dropWhile hdown y hy)
    rw [Entry.before_seekKey hq] at hnot
    refine ⟨not_lt.1 fun hlt => hnot (.inl hlt), fun hkey => ?_⟩
    exact UInt64.not_lt.1 fun hlt => hnot (.inr ⟨hkey, hlt⟩)

structure SplitBy (c : Cursor Entry) (p : Bytes → Bool) : Prop where
  upto_pass : ∀ y ∈ c.upto, p y.userKey = true
  after_fail : ∀ y ∈ c.after, p y.userKey = false

variable {p : Bytes → Bool}

theorem SplitAt.splitBy {k : Bytes} (h : SplitAt c k) (hp : ∀ k', p k' = true ↔ k' < k) : SplitBy c p :=
  ⟨fun y hy => (hp _).2 (h.upto_lt y hy),
    fun y hy => Bool.eq_false_iff.2 fun hpy => not_lt.2 (h.le_after y hy) ((hp _).1 hpy)⟩

variable {key : InternalBytes}

theorem seekCursorForPrev_split (hall : c.all = d.entries)
    (hp : ∀ k k', k ≤ k' → p k' = true → p k = true) (hkey : ∀ e ∈ d.entries, key.Before e.key ↔ p e.userKey = false) :
    (seekCursorForPrev c key).all = d.entries ∧ SplitBy (seekCursorForPrev c key) p := by
  have hpass : ∀ e ∈ d.entries, (!decide (key.Before e.key)) = p e.userKey := by
    intro e he
    cases hpe : p e.userKey with
    | true | false => simp [hkey e he, hpe]
  have happ := takeWhile_append_dropWhile (p := fun e : Entry => !decide (key.Before e.key)) (l := d.entries)
  unfold seekCursorForPrev Cursor.seekForPrev
  rw [hall]
  refine ⟨?_, fun y hy => ?_, fun y hy => ?_⟩
  · unfold Cursor.all
    rw [reverse_reverse, happ]
  · have hy := mem_reverse.1 hy
    have hbefore := @List.mem_takeWhile_imp _ (fun e : Entry => !decide (key.Before e.key)) _ _ hy
    rw [← hpass y ((takeWhile_sublist _).subset hy), hbefore]
  · have hdown : d.entries.Pairwise fun a b =>
        (!decide (key.Before b.key)) = true → (!decide (key.Before a.key)) = true := by
      refine d.sorted.imp_of_mem fun ha hb hab h => ?_
      rw [hpass _ hb] at h
      rw [hpass _ ha]
      exact hp _ _ ((Entry.before_iff.1 hab).elim le_of_lt fun heq => le_of_eq heq.1) h
    rw [← hpass y ((dropWhile_sublist _).subset hy)]
    exact fails_of_mem_dropWhile hdown y hy

/-! ## The iterator at a pair -/

inductive At (d : SkipList) (q : UInt64) (s : RegionCacheIterator) : Option (Bytes × Bytes) → Prop
  | nowhere (hvalid : s.valid = false) : At d q s none
  | forward {x : Entry} {before after : List Entry} (hvalid : s.valid = true) (hdir : s.direction = .forward)
      (hiter : s.iter = ⟨x :: before, after⟩) (hkey : s.savedUserKey = x.userKey) (hx : Shown d.entries q x) :
      At d q s (some (x.userKey, x.value))
  | backward {x : Entry} (hvalid : s.valid = true) (hdir : s.direction = .backward) (hkey : s.savedUserKey = x.userKey)
      (hvalue : s.savedValue = some x.value) (hsplit : SplitAt s.iter x.userKey) (hx : Shown d.entries q x) :
      At d q s (some (x.userKey, x.value))

variable {pos : Option (Bytes × Bytes)}

theorem At.reads {s : RegionCacheIterator} (h : At d q s pos) :
    s.valid = pos.isSome ∧ s.key = pos.map (·.1) ∧ s.value = pos.map (·.2) := by
  unfold key value
  cases h with
  | nowhere hvalid => simp [hvalid]
  | forward hvalid hdir hiter hkey _ => simp [hvalid, hdir, hiter, hkey, Cursor.current?]
  | backward hvalid hdir hkey hvalue _ _ => simp [hvalid, hdir, hkey, hvalue]

structure Opened (d : SkipList) (q : UInt64) (lower upper : Bytes) (s : RegionCacheIterator) : Prop where
  lower_eq : s.lowerBound = lower
  upper_eq : s.upperBound = upper
  sequence_eq : s.sequenceNumber = q
  all_eq : s.iter.all = d.entries

/-- **The iterator with the bounds stands at a pair of the view.** -/
structure Holds (d : SkipList) (q : UInt64) (lower upper : Bytes) (s : RegionCacheIterator)
    (pos : Option (Bytes × Bytes)) : Prop where
  opened : Opened d q lower upper s
  stands : At d q s pos
  mem : ∀ e, pos = some e → e ∈ (view d q lower upper).pairs

variable {lower upper : Bytes} {s : RegionCacheIterator} {p : Bytes → Bool}

/-! ## The forward calls -/

structure Front (d : SkipList) (q : UInt64) (lower : Bytes) (p : Bytes → Bool) (skip : Bool) (saved : Bytes)
    (before rest : List Entry) : Prop where
  entries_eq : d.entries = before.reverse ++ rest
  ahead : Ahead q skip saved before rest
  sound : ∀ y ∈ rest, Target d q skip saved y → lower ≤ y.userKey ∧ p y.userKey = true
  complete : ∀ y, Shown d.entries q y → lower ≤ y.userKey → p y.userKey = true → y ∈ rest ∧ Target d q skip saved y

variable {before rest : List Entry} {saved : Bytes} {skip : Bool}

theorem Front.first_eq_none
    (h : Front d q lower p skip saved before rest) (hnone : ∀ y ∈ rest, y.userKey < upper → ¬ Target d q skip saved y) :
    (view d q lower upper).first p = none := by
  refine View.first_eq_none.2 fun e he => Bool.eq_false_iff.2 fun hp => ?_
  obtain ⟨y, hy, hlow, hup, rfl⟩ := mem_view.1 he
  obtain ⟨hmem, htarget⟩ := h.complete y hy hlow hp
  exact hnone y hmem hup htarget

theorem findNextVisibleKey_holds (ho : Opened d q lower upper s)
    (hdir : s.direction = .forward) (hstands : s.iter.Stands before rest)
    (h : Front d q lower p skip s.savedUserKey before rest) :
    Holds d q lower upper (s.findNextVisibleKey skip) ((view d q lower upper).first p) := by
  unfold findNextVisibleKey
  generalize hiter : s.iter = c at hstands
  cases hstands with
  | off =>
    have hall : Cursor.all ⟨[], before.reverse⟩ = d.entries := hiter ▸ ho.all_eq
    rw [h.first_eq_none fun y hy => absurd hy not_mem_nil]
    exact ⟨{ ho with all_eq := hall }, .nowhere rfl, nofun⟩
  | «at» e before after =>
    dsimp only
    have hspec := findNextFrom_spec after s skip e before ho.sequence_eq h.entries_eq h.ahead
    generalize findNextFrom after s skip e before = s' at hspec
    cases hspec with
    | none hall hnone =>
      rw [h.first_eq_none fun y hy hlt => hnone y hy (ho.upper_eq ▸ hlt)]
      exact ⟨{ ho with all_eq := hall.trans h.entries_eq.symm }, .nowhere rfl, nofun⟩
    | @found pre post x iter hrest hiter hlt hx hpre =>
      have hentries : d.entries = (before.reverse ++ pre) ++ x :: post := by rw [h.entries_eq, hrest, append_assoc]
      obtain ⟨hlow, hp⟩ := h.sound x (by rw [hrest]; simp) hx
      have hmem : (x.userKey, x.value) ∈ (view d q lower upper).pairs :=
        mem_view.2 ⟨x, hx.1, hlow, ho.upper_eq ▸ hlt, rfl⟩
      have hfirst : (view d q lower upper).first p = some (x.userKey, x.value) := by
        refine first_eq_some.2 ⟨hmem, hp, fun e' he' hp' => ?_⟩
        obtain ⟨y, hy, hylow, -, rfl⟩ := mem_view.1 he'
        obtain ⟨hyrest, htarget⟩ := h.complete y hy hylow hp'
        rw [hrest] at hyrest
        rcases mem_append.1 hyrest with hyrest | hyrest
        · exact absurd htarget (hpre y hyrest)
        · exact d.le_of_mem_cons hentries hyrest
      rw [hfirst]
      refine ⟨{ ho with all_eq := ?_ }, .forward rfl hdir hiter rfl hx.1, ?_⟩
      · rw [hiter, hentries]
        simp [Cursor.all]
      · rintro _ ⟨⟩
        exact hmem

theorem mem_rest {y : Entry} (h : d.entries = before.reverse ++ rest) (hy : y ∈ d.entries) (hnot : y ∉ before) :
    y ∈ rest := by
  rw [h] at hy
  exact (mem_append.1 hy).resolve_left fun hmem => hnot (mem_reverse.1 hmem)

theorem Sought.front {k : Bytes} (h : Sought d k q before rest) (hlow : lower ≤ k)
    (hp : ∀ k', lower ≤ k' → (p k' = true ↔ k ≤ k')) : Front d q lower p false saved before rest where
  entries_eq := h.entries_eq
  ahead := by
    refine ⟨nofun, fun y hy _ z hz hkey => ?_⟩
    rcases h.before_key z hz with hlt | ⟨-, hseq⟩
    · exact absurd hlt (not_lt.2 (hkey ▸ (h.rest_key y hy).1))
    · exact fun hle => UInt64.lt_irrefl _ (UInt64.lt_of_lt_of_le hseq hle)
  sound := by
    intro y hy _
    have hle := le_trans hlow (h.rest_key y hy).1
    exact ⟨hle, (hp _ hle).2 (h.rest_key y hy).1⟩
  complete := by
    intro y hy hylow hpy
    refine ⟨mem_rest h.entries_eq hy.1 fun hmem => ?_, hy, nofun⟩
    rcases h.before_key y hmem with hlt | ⟨-, hseq⟩
    · exact absurd hlt (not_lt.2 ((hp _ hylow).1 hpy))
    · exact absurd (UInt64.lt_of_lt_of_le hseq hy.2.1.1) (UInt64.lt_irrefl _)

theorem findNextVisibleKey_of_not_valid (hvalid : s.iter.valid = false) (skip : Bool) :
    s.findNextVisibleKey skip = { s with valid := false } := by
  unfold findNextVisibleKey
  split
  · rfl
  rename_i hiter
  rw [hiter] at hvalid
  cases hvalid

theorem seekInternal_holds (hq : Encodable q) {k : Bytes} (ho : Opened d q lower upper s) (hdir : s.direction = .forward)
    (hlow : lower ≤ k) (hp : ∀ k', lower ≤ k' → (p k' = true ↔ k ≤ k')) :
    Holds d q lower upper (s.seekInternal (encodeSeekKey k q)) ((view d q lower upper).first p) := by
  obtain ⟨before, rest, hstands, hsought⟩ := seekCursor_sought hq k ho.all_eq
  have hall := hstands.all_eq.trans hsought.entries_eq.symm
  have ho' : Opened d q lower upper { s with iter := seekCursor s.iter (encodeSeekKey k q) } :=
    { ho with all_eq := hall }
  have h := findNextVisibleKey_holds ho' hdir hstands (hsought.front hlow hp)
  unfold seekInternal
  dsimp only
  split
  · exact h
  rename_i hvalid
  rw [findNextVisibleKey_of_not_valid (Bool.eq_false_iff.2 hvalid)] at h
  exact h

variable {after : List Entry} {e : Entry}

theorem front_next (hentries : d.entries = (e :: before).reverse ++ after)
    (hlow : lower ≤ e.userKey) (hp : ∀ k, p k = true ↔ e.userKey < k) :
    Front d q lower p true e.userKey (e :: before) after := by
  have hbefore : ∀ z ∈ e :: before, z.userKey ≤ e.userKey := by
    intro z hz
    rcases mem_cons.1 hz with rfl | hz
    · exact le_refl _
    rw [reverse_cons, append_assoc] at hentries
    exact d.le_of_split hentries (mem_reverse.2 hz) mem_cons_self
  have hafter : ∀ y ∈ after, e.userKey ≤ y.userKey := fun y hy =>
    d.le_of_split hentries (mem_reverse.2 mem_cons_self) hy
  refine ⟨hentries, ⟨fun _ => hafter, fun y hy hne z hz hkey => ?_⟩, fun y hy ht => ?_, fun y hy _ hpy => ?_⟩
  · exact absurd (le_antisymm (hkey ▸ hbefore z hz) (hafter y hy)) (hne rfl)
  · exact ⟨le_trans hlow (hafter y hy), (hp _).2 (lt_of_le_of_ne (hafter y hy) (ht.2 rfl).symm)⟩
  · have hlt : e.userKey < y.userKey := (hp _).1 hpy
    exact ⟨mem_rest hentries hy.1 fun hmem => not_lt.2 (hbefore y hmem) hlt, hy, fun _ => ne_of_gt hlt⟩

theorem forwardTo_spec {k : Bytes} : ∀ {after : List Entry} {e : Entry} {before : List Entry},
    d.entries = before.reverse ++ e :: after → (∀ y ∈ before, y.userKey < k) → (∃ x ∈ d.entries, x.userKey = k) →
    ∃ e' before' after', forwardTo k after e before = ⟨e' :: before', after'⟩ ∧
      d.entries = (e' :: before').reverse ++ after' ∧ e'.userKey = k
  | after, e, before, hentries, hbefore, hx => by
    obtain ⟨x, hxmem, rfl⟩ := hx
    have hxrest : x ∈ e :: after := mem_rest hentries hxmem fun h => lt_irrefl _ (hbefore x h)
    unfold forwardTo
    split
    · rename_i hle
      refine ⟨e, before, after, rfl, ?_, le_antisymm ?_ hle⟩
      · rw [hentries, reverse_cons, append_assoc]
        rfl
      · exact d.le_of_mem_cons hentries hxrest
    · rename_i hlt
      have hlt := not_le.1 hlt
      cases after with
      | nil => exact absurd hlt (by rw [mem_singleton.1 hxrest]; exact lt_irrefl _)
      | cons e2 after =>
        refine forwardTo_spec ?_ ?_ ⟨x, hxmem, rfl⟩
        · rw [hentries, reverse_cons, append_assoc]
          rfl
        · exact forall_mem_cons.2 ⟨hlt, hbefore⟩

theorem reverseToForward_spec (hall : s.iter.all = d.entries) (hsplit : SplitAt s.iter s.savedUserKey)
    (hx : ∃ x ∈ d.entries, x.userKey = s.savedUserKey) : ∃ e before after, s.reverseToForward.iter = ⟨e :: before, after⟩ ∧
      d.entries = (e :: before).reverse ++ after ∧ e.userKey = s.savedUserKey := by
  unfold reverseToForward
  generalize hiter : s.iter = c at hall hsplit
  obtain ⟨upto, after⟩ := c
  cases upto with
  | nil =>
    have hq : Encodable maxSequenceNumber := .inr (by decide +kernel)
    obtain ⟨before, rest, hstands, hsought⟩ := seekCursor_sought hq s.savedUserKey hall
    have hbefore : ∀ y ∈ before, y.userKey < s.savedUserKey := by
      intro y hy
      refine (hsought.before_key y hy).resolve_right fun h => ?_
      have hmax := lt_iff_toNat_lt.1 h.2
      have hfits := y.fits
      rw [toNat_maxSequenceNumber] at hmax
      omega
    generalize seekCursor ⟨[], after⟩ (encodeSeekKey s.savedUserKey maxSequenceNumber) = c at hstands
    cases hstands with
    | «at» e before after => exact forwardTo_spec hsought.entries_eq hbefore hx
    | off =>
      obtain ⟨x, hmem, hkey⟩ := hx
      exact absurd (mem_rest hsought.entries_eq hmem fun h => ne_of_lt (hbefore x h) hkey) not_mem_nil
  | cons e before =>
    refine forwardTo_spec ?_ (fun y hy => hsplit.upto_lt y (mem_cons_of_mem _ hy)) hx
    rw [← hall]
    simp [Cursor.all]

section

variable (ho : Opened d q lower upper s)
include ho

theorem stepFrom_holds (hdir : s.direction = .forward) (hiter : s.iter = ⟨e :: before, after⟩)
    (hkey : s.savedUserKey = e.userKey)
    (hlow : lower ≤ e.userKey) (hp : ∀ k, p k = true ↔ e.userKey < k) :
    Holds d q lower upper (if s.iter.next.valid then
        ({ s with iter := s.iter.next, valid := s.iter.next.valid } : RegionCacheIterator).findNextVisibleKey true
      else { s with iter := s.iter.next, valid := s.iter.next.valid })
      ((view d q lower upper).first p) := by
  have hentries : d.entries = (e :: before).reverse ++ after := by
    rw [← ho.all_eq, hiter]
    rfl
  have hstands : s.iter.next.Stands (e :: before) after := hiter ▸ Cursor.stands_next e before after
  have ho' : Opened d q lower upper { s with iter := s.iter.next, valid := s.iter.next.valid } :=
    { ho with all_eq := hstands.all_eq.trans hentries.symm }
  have hfront : Front d q lower p true s.savedUserKey (e :: before) after := by
    rw [hkey]
    exact front_next hentries hlow hp
  have h := findNextVisibleKey_holds ho' hdir hstands hfront
  split
  · exact h
  rename_i hvalid
  rw [findNextVisibleKey_of_not_valid (Bool.eq_false_iff.2 hvalid)] at h
  rw [Bool.eq_false_iff.2 hvalid]
  exact h

variable {e : Bytes × Bytes}

omit ho in
theorem stepNext_holds (h : Holds d q lower upper s (some e)) :
    Holds d q lower upper s.stepNext ((view d q lower upper).move (some e) .next) := by
  have hmove : (view d q lower upper).move (some e) .next = (view d q lower upper).first fun k => decide (e.1 < k) :=
    move_next fun _ => decide_eq_true_iff
  rw [hmove]
  have hlow : lower ≤ e.1 := by
    obtain ⟨y, -, hy, -, rfl⟩ := mem_view.1 (h.mem e rfl)
    exact hy
  cases h.stands with
  | forward hvalid hdir hiter hkey hx =>
    unfold stepNext
    rw [if_neg (show ¬ s.direction = .backward by simp [hdir])]
    exact stepFrom_holds h.opened hdir hiter hkey hlow fun k => decide_eq_true_iff
  | @backward x hvalid hdir hkey hvalue hsplit hx =>
    obtain ⟨e, before, after, hiter, hentries, hekey⟩ :=
      reverseToForward_spec h.opened.all_eq (hkey ▸ hsplit) ⟨x, hx.1, hkey.symm⟩
    have hex : e.userKey = x.userKey := hekey.trans hkey
    have ho : Opened d q lower upper s.reverseToForward := by
      refine ⟨h.opened.lower_eq, h.opened.upper_eq, h.opened.sequence_eq, ?_⟩
      rw [hiter, hentries]
      rfl
    unfold stepNext
    rw [if_pos hdir]
    refine stepFrom_holds ho rfl hiter hekey.symm (hex ▸ hlow) fun k => ?_
    rw [hex]
    exact decide_eq_true_iff

/-! ## The backward calls -/

theorem prevInternal_holds (hdir : s.direction = .backward) (hsplit : SplitBy s.iter p)
    (hup : ∀ y, Shown d.entries q y → p y.userKey = true → y.userKey < upper) :
    Holds d q lower upper s.prevInternal ((view d q lower upper).last p) := by
  have hbound : ∀ a ∈ s.iter.upto, ∀ b ∈ s.iter.after, a.userKey < b.userKey := by
    intro a ha b hb
    have hall : d.entries = s.iter.upto.reverse ++ s.iter.after := ho.all_eq.symm
    refine lt_of_le_of_ne (d.le_of_split hall (mem_reverse.2 ha) hb) fun heq => ?_
    have hpass := hsplit.upto_pass a ha
    rw [heq, hsplit.after_fail b hb] at hpass
    cases hpass
  have hmem : ∀ y, Shown d.entries q y → p y.userKey = true → y ∈ s.iter.upto := by
    intro y hy hp
    refine d.mem_upto ho.all_eq hy.1 fun hafter => ?_
    rw [hsplit.after_fail y hafter] at hp
    cases hp
  have hspec := prevLoop_spec s.iter.upto.length s ho.sequence_eq ho.all_eq hbound le_rfl
  unfold prevInternal
  generalize s.prevLoop s.iter.upto.length = s' at hspec
  cases hspec with
  | none hall hnone =>
    have hlast : (view d q lower upper).last p = none := by
      refine last_eq_none.2 fun e he => Bool.eq_false_iff.2 fun hp => ?_
      obtain ⟨y, hy, hlow, -, rfl⟩ := mem_view.1 he
      exact absurd (hnone y (hmem y hy hp) hy) (not_lt.2 (ho.lower_eq ▸ hlow))
    rw [hlast]
    exact ⟨{ ho with all_eq := hall }, .nowhere rfl, nofun⟩
  | @found x iter hall hx hxmem hlow hmax hsplit' =>
    have hp := hsplit.upto_pass x hxmem
    have hxview : (x.userKey, x.value) ∈ (view d q lower upper).pairs :=
      mem_view.2 ⟨x, hx, ho.lower_eq ▸ hlow, hup x hx hp, rfl⟩
    have hlast : (view d q lower upper).last p = some (x.userKey, x.value) := by
      refine last_eq_some.2 ⟨hxview, hp, fun e' he' hp' => ?_⟩
      obtain ⟨y, hy, -, -, rfl⟩ := mem_view.1 he'
      exact hmax y (hmem y hy hp') hy
    rw [hlast]
    refine ⟨{ ho with all_eq := hall }, .backward rfl hdir rfl rfl hsplit' hx, ?_⟩
    rintro _ ⟨⟩
    exact hxview

omit ho in
theorem stepPrev_holds (h : Holds d q lower upper s (some e)) :
    Holds d q lower upper s.stepPrev ((view d q lower upper).move (some e) .prev) := by
  have hmove : (view d q lower upper).move (some e) .prev = (view d q lower upper).last fun k => decide (k < e.1) :=
    move_prev fun _ => decide_eq_true_iff
  rw [hmove]
  have hup : e.1 < upper := by
    obtain ⟨y, -, -, hy, rfl⟩ := mem_view.1 (h.mem e rfl)
    exact hy
  have ho := h.opened
  unfold stepPrev
  cases h.stands with
  | @forward x before after hvalid hdir hiter hkey hx =>
    rw [if_pos hdir]
    have hall := ho.all_eq
    have hentries : d.entries = (x :: before).reverse ++ after := by
      rw [← hall, hiter]
      rfl
    have hafter : ∀ y ∈ s.iter.after, s.savedUserKey ≤ y.userKey := by
      rw [hiter, hkey]
      exact fun y hy => d.le_of_split hentries (mem_reverse.2 mem_cons_self) hy
    obtain ⟨hall', -, hsplit⟩ := findBeforeFrom_spec hall hafter
    rw [hkey] at hsplit
    have ho' : Opened d q lower upper s.reverseToBackward := { ho with all_eq := hall' }
    refine prevInternal_holds ho' rfl ?_ fun y _ hlt => lt_trans (of_decide_eq_true hlt) hup
    unfold reverseToBackward findUserKeyBeforeSaved
    rw [hkey]
    exact hsplit.splitBy fun k => decide_eq_true_iff
  | backward hvalid hdir hkey hvalue hsplit hx =>
    rw [if_neg (by simp [hdir])]
    exact prevInternal_holds ho hdir (hsplit.splitBy fun k => decide_eq_true_iff) fun y _ hlt =>
      lt_trans (of_decide_eq_true hlt) hup

theorem seekForPrevInternal_holds (hdir : s.direction = .backward)
    (hp : ∀ k k', k ≤ k' → p k' = true → p k = true) (hkey : ∀ e ∈ d.entries, key.Before e.key ↔ p e.userKey = false)
    (hup : ∀ y, Shown d.entries q y → p y.userKey = true → y.userKey < upper) :
    Holds d q lower upper (s.seekForPrevInternal key) ((view d q lower upper).last p) := by
  obtain ⟨hall, hsplit⟩ := seekCursorForPrev_split ho.all_eq hp hkey
  have ho' : Opened d q lower upper { s with iter := seekCursorForPrev s.iter key } :=
    { ho with all_eq := hall }
  exact prevInternal_holds ho' hdir hsplit hup

/-! ## Every call -/

/-- **What a call from behind the upper bound asks for**: that the upper bound, if sought, is no key to show, and that
no entry of it has the highest sequence number. -/
def Fits (d : SkipList) (q : UInt64) (upper : Bytes) : Move Bytes → Prop
  | .seekForPrev key => (key = upper → ∀ e, Shown d.entries q e → e.userKey ≠ upper) ∧
      (upper < key → ∀ e ∈ d.entries, e.userKey = upper → e.sequence < maxSequenceNumber)
  | .seekToLast => ∀ e ∈ d.entries, e.userKey = upper → e.sequence < maxSequenceNumber
  | .seek _ | .seekToFirst | .next | .prev => True

omit ho in
theorem last_below_upper (hp : ∀ k, k < upper → p k = true) :
    (view d q lower upper).last p = (view d q lower upper).last fun k => decide (k < upper) := by
  refine last_congr fun e he => ?_
  obtain ⟨y, -, -, hup, rfl⟩ := mem_view.1 he
  rw [hp _ hup]
  exact (decide_eq_true hup).symm

theorem seekUpper_holds (hdir : s.direction = .backward)
    (hmax : ∀ e ∈ d.entries, e.userKey = upper → e.sequence < maxSequenceNumber) :
    Holds d q lower upper (s.seekForPrevInternal (encodeSeekForPrevKey upper u64Max))
      ((view d q lower upper).last fun k => decide (k < upper)) := by
  refine seekForPrevInternal_holds ho hdir ?_ (fun e he => ?_) fun y _ hlt => of_decide_eq_true hlt
  · exact fun k k' hle hlt => decide_eq_true (lt_of_le_of_lt hle (of_decide_eq_true hlt))
  · rw [Entry.seekForPrevMax_before, decide_eq_false_iff_not, not_lt, le_iff_lt_or_eq]
    exact or_congr_right (and_iff_left_of_imp fun heq => hmax e he heq.symm)

theorem Opened.turn (direction : Direction) :
    Opened d q lower upper { s with direction } := { ho with }

end

variable {key : Bytes}

theorem seekForPrev_holds (ho : Opened d q lower upper s) (hfits : Fits d q upper (.seekForPrev key)) :
    Holds d q lower upper (s.seekForPrev key) ((view d q lower upper).last fun k => decide (k ≤ key)) := by
  have ho' := ho.turn .backward
  obtain rfl := ho.upper_eq
  unfold seekForPrev
  dsimp only
  split
  · rename_i hlt
    rw [last_below_upper fun k hk => decide_eq_true (le_of_lt (lt_trans hk hlt))]
    exact seekUpper_holds ho' rfl (hfits.2 hlt)
  · rename_i hle
    have hle := not_lt.1 hle
    refine seekForPrevInternal_holds ho' rfl ?_ (fun e _ => ?_) fun y hy hyle => ?_
    · exact fun k k' hkk' hk' => decide_eq_true (le_trans hkk' (of_decide_eq_true hk'))
    · rw [Entry.seekForPrevKey_before, decide_eq_false_iff_not, not_le]
    · have hyle : y.userKey ≤ key := of_decide_eq_true hyle
      refine lt_of_le_of_ne (le_trans hyle hle) fun heq => ?_
      exact hfits.1 (le_antisymm hle (heq ▸ hyle)) y hy heq

theorem seek_holds (hq : Encodable q) (ho : Opened d q lower upper s) :
    Holds d q lower upper (s.seek key) ((view d q lower upper).first fun k => decide (key ≤ k)) := by
  have ho' := ho.turn .forward
  obtain rfl := ho.lower_eq
  obtain rfl := ho.sequence_eq
  unfold seek
  dsimp only
  split
  · rename_i hlt
    refine seekInternal_holds hq ho' rfl (le_refl _) fun k' hk' => ?_
    exact iff_of_true (decide_eq_true (le_trans (le_of_lt hlt) hk')) hk'
  · rename_i hle
    exact seekInternal_holds hq ho' rfl (not_lt.1 hle) fun k' _ => decide_eq_true_iff

/-- **A call brings the iterator to where it brings the cursor of the view.** -/
theorem call_holds (hq : Encodable q) {s' : RegionCacheIterator} {m : Move Bytes}
    (h : Holds d q lower upper s pos) (hfits : Fits d q upper m) (hcall : s.call m = some s') :
    Holds d q lower upper s' ((view d q lower upper).move pos m) := by
  have ho := h.opened
  cases m with
  | seek key =>
    cases hcall
    exact seek_holds hq ho
  | seekForPrev key =>
    cases hcall
    exact seekForPrev_holds ho hfits
  | seekToFirst =>
    cases hcall
    have ho' := ho.turn .forward
    obtain rfl := ho.lower_eq
    obtain rfl := ho.sequence_eq
    exact seekInternal_holds hq ho' rfl (le_refl _) fun k' hk' => iff_of_true rfl hk'
  | seekToLast =>
    cases hcall
    have ho' := ho.turn .backward
    obtain rfl := ho.upper_eq
    show Holds _ _ _ _ _ ((view d q lower s.upperBound).last fun _ => true)
    rw [last_below_upper fun _ _ => rfl]
    exact seekUpper_holds ho' rfl hfits
  | next | prev =>
    obtain ⟨hvalid, hs'⟩ := Option.ite_none_right_eq_some.1 hcall
    cases hs'
    cases pos with
    | none => exact absurd (h.stands.reads.1.symm.trans hvalid) nofun
    | some e => first | exact stepNext_holds h | exact stepPrev_holds h

theorem iteratorOpt_holds {snap : RegionCacheSnapshot} (hopen : snap.iteratorOpt (some lower) (some upper) = .ok s) :
    Holds snap.data snap.sequenceNumber lower upper s none := by
  unfold iteratorOpt at hopen
  dsimp only at hopen
  split at hopen
  · cases hopen
  cases hopen
  exact ⟨⟨rfl, rfl, rfl, rfl⟩, .nowhere rfl, nofun⟩

/-! ## Point reads -/

theorem getValueCfOpt_eq (snap : RegionCacheSnapshot) (hlow : lower ≤ key) (hup : key < upper)
    (hstart : snap.regionStart ≤ lower) (hend : upper ≤ snap.regionEnd) :
    snap.getValueCfOpt key = .ok ((view snap.data snap.sequenceNumber lower upper).lookup key) := by
  have hall : Cursor.all ⟨[], snap.data.entries⟩ = snap.data.entries := rfl
  obtain ⟨before, rest, hstands, hsought⟩ := seekCursor_sought snap.encodable key hall
  have hfront : Front snap.data snap.sequenceNumber lower (fun k => decide (key ≤ k)) false [] before rest :=
    hsought.front hlow fun _ _ => decide_eq_true_iff
  -- what is shown of the key is found from here on
  have hrest : ∀ y, Shown snap.data.entries snap.sequenceNumber y → y.userKey = key → y ∈ rest := fun y hy hkey =>
    (hfront.complete y hy (hkey ▸ hlow) (decide_eq_true (ge_of_eq hkey))).1
  have hnone : (∀ y, Shown snap.data.entries snap.sequenceNumber y → y.userKey ≠ key) →
      (view snap.data snap.sequenceNumber lower upper).lookup key = none := by
    intro h
    refine Option.eq_none_iff_forall_ne_some.2 fun v hv => ?_
    obtain ⟨y, hy, -, -, heq⟩ := mem_view.1 (lookup_eq_some.1 hv)
    exact h y hy (congrArg Prod.fst heq)
  unfold getValueCfOpt
  rw [if_pos ⟨le_trans hstart hlow, lt_of_lt_of_le hup hend⟩]
  generalize seekCursor ⟨[], snap.data.entries⟩ (encodeSeekKey key snap.sequenceNumber) = c at hstands
  cases hstands with
  | off =>
    rw [hnone fun y hy hkey => absurd (hrest y hy hkey) not_mem_nil]
    rfl
  | «at» e before after =>
    have hmem : e ∈ snap.data.entries := by rw [hsought.entries_eq]; simp
    show Except.ok (if e.userKey = key ∧ e.vType = .value then some e.value else none) = _
    by_cases hkey : e.userKey = key
    · have hvis := (hsought.rest_key e mem_cons_self).2 hkey
      have hnewest : Newest snap.data.entries snap.sequenceNumber e :=
        newest_of_ahead hsought.entries_eq hfront.ahead hvis nofun
      cases htype : e.vType with
      | value =>
        rw [if_pos ⟨hkey, rfl⟩]
        refine congrArg Except.ok (Eq.symm (lookup_eq_some.2 (mem_view.2 ⟨e, ⟨hmem, hnewest, htype⟩, ?_⟩)))
        exact ⟨hkey ▸ hlow, hkey ▸ hup, by rw [hkey]⟩
      | deletion =>
        rw [if_neg (fun h => nomatch h.2), hnone fun y hy => hkey ▸ hnewest.ne_of_shown hmem htype hy]
    · rw [if_neg fun h => hkey h.1, hnone fun y hy hykey => ?_]
      have hle : e.userKey ≤ y.userKey := snap.data.le_of_mem_cons hsought.entries_eq (hrest y hy hykey)
      exact hkey (le_antisymm (hykey ▸ hle) (hsought.rest_key e mem_cons_self).1)

/-! ## Runs -/

def Calls (s : RegionCacheIterator) (m : Move Bytes) (s' : RegionCacheIterator) : Prop := s.call m = some s'

theorem calls_next (hvalid : s.valid = true) : Calls s .next s.stepNext := if_pos hvalid

theorem calls_prev (hvalid : s.valid = true) : Calls s .prev s.stepPrev := if_pos hvalid

theorem run_holds (hq : Encodable q) {moves : List (Move Bytes)} {t : RegionCacheIterator}
    (hrun : Run Calls (fun _ m => Fits d q upper m) s moves t) : ∀ {pos : Option (Bytes × Bytes)},
    Holds d q lower upper s pos → Holds d q lower upper t (moves.foldl (view d q lower upper).move pos) := by
  induction hrun with
  | nil s => exact fun h => h
  | cons hfits hcall _ ih => exact fun h => ih (call_holds hq h hfits hcall)

/-- **The iterator and the point read are those of the sorted view.**  Whatever the legal calls, as long as those from
behind the upper bound fit, the iterator is valid when a cursor over the view moved by the same calls is at a pair, and
reads that pair; a point read within the region finds what the view has for the key, and one outside it is refused. -/
theorem reads_view (snap : RegionCacheSnapshot) (lower upper : Bytes) :
    (∀ s₀ moves s, snap.iteratorOpt (some lower) (some upper) = .ok s₀ →
      Run Calls (fun _ m => Fits snap.data snap.sequenceNumber upper m) s₀ moves s →
        s.valid = (moves.foldl (view snap.data snap.sequenceNumber lower upper).move none).isSome ∧
        s.key = (moves.foldl (view snap.data snap.sequenceNumber lower upper).move none).map (·.1) ∧
        s.value = (moves.foldl (view snap.data snap.sequenceNumber lower upper).move none).map (·.2)) ∧
    (∀ key, lower ≤ key → key < upper → snap.regionStart ≤ lower → upper ≤ snap.regionEnd →
      snap.getValueCfOpt key = .ok ((view snap.data snap.sequenceNumber lower upper).lookup key)) ∧
    ∀ key, ¬ (snap.regionStart ≤ key ∧ key < snap.regionEnd) →
      snap.getValueCfOpt key = .error (.keyNotInRange key snap.regionStart snap.regionEnd) := by
  refine ⟨fun s₀ moves s hopen hrun => ?_, fun key hlow hup hstart hend => ?_, fun key hout => ?_⟩
  · exact (run_holds snap.encodable hrun (iteratorOpt_holds hopen)).stands.reads
  · exact getValueCfOpt_eq snap hlow hup hstart hend
  · exact if_neg hout

def sampleEntries : List Entry :=
  [⟨[1], 5, .value, [10], by decide⟩, ⟨[2], 6, .deletion, [], by decide⟩, ⟨[2], 4, .value, [20], by decide⟩,
    ⟨[3], 3, .value, [30], by decide⟩]

def sampleSnapshot : RegionCacheSnapshot where
  regionStart := []
  regionEnd := [9]
  sequenceNumber := 5
  encodable := .inr (by decide)
  data := ⟨sampleEntries, by decide +kernel⟩

def sampleIterator : RegionCacheIterator :=
  { valid := false, iter := ⟨[], sampleEntries⟩, lowerBound := [1], upperBound := [3]
    sequenceNumber := 5, savedUserKey := [], savedValue := none, direction := .uninit }

theorem reads_view_sample : ∃ s, Run Calls (fun _ m => Fits sampleSnapshot.data 5 [3] m) sampleIterator
      [.seekToLast, .prev, .next] s ∧ s.key = some [2] ∧ s.value = some [20] ∧
    sampleSnapshot.getValueCfOpt [2] = .ok (some [20]) := by
  have hopen : sampleSnapshot.iteratorOpt (some [1]) (some [3]) = .ok sampleIterator := by
    rfl
  have hrun : Run Calls (fun _ m => Fits sampleSnapshot.data 5 [3] m) sampleIterator [.seekToLast, .prev, .next]
      sampleIterator.seekToLast.stepPrev.stepNext := by
    have hprev : Calls sampleIterator.seekToLast .prev sampleIterator.seekToLast.stepPrev := calls_prev (by decide +kernel)
    have hnext : Calls sampleIterator.seekToLast.stepPrev .next sampleIterator.seekToLast.stepPrev.stepNext :=
      calls_next (by decide +kernel)
    refine .cons ?_ rfl (.cons trivial hprev (.cons trivial hnext (.nil _)))
    show ∀ e ∈ sampleEntries, e.userKey = [3] → e.sequence < maxSequenceNumber
    decide +kernel
  obtain ⟨hreads, hget, -⟩ := reads_view sampleSnapshot [1] [3]
  obtain ⟨-, hkey, hvalue⟩ := hreads _ _ _ hopen hrun
  refine ⟨_, hrun, hkey.trans ?_, hvalue.trans ?_, (hget [2] ?_ ?_ ?_ ?_).trans ?_⟩ <;> decide +kernel

theorem reads_view_fails_at_upper : Calls sampleIterator (.seekForPrev [3]) (sampleIterator.seekForPrev [3]) ∧
    sampleSnapshot.iteratorOpt (some [1]) (some [3]) = .ok sampleIterator ∧
    (sampleIterator.seekForPrev [3]).key = some [3] ∧
    ((view sampleSnapshot.data 5 [1] [3]).move none (.seekForPrev [3])).map (·.1) = some [2] := by
  refine ⟨rfl, ?_, by decide +kernel, by decide +kernel⟩
  rfl

end Ime
end Tikv
