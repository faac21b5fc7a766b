import Tikv.LibRun
import Mathlib.Data.List.Basic
import Mathlib.Order.MinMax
/-!
# RaftReadProgress — the safe timestamp of a replica (`RegionReadProgress`)

A replica may serve a stale read up to `safe_ts`.  It is told `(apply index, safe ts)` items, keeps those whose index it
has not applied in a sorted queue, and after a region merge starts again from the smaller of the two regions' safe
timestamps.

`History` keeps what was received and which merges happened.  A published timestamp is justified by a received item that
is applied, one of after the merge for a merge that happened before (`justified_of_run`).  An item that is folded into a
pending one with a larger index may outlive a merge between the two indexes; `MergesCleanly` leaves this out.  A
timestamp that `discard` froze is not lowered by a merge.

`none` is a failed assertion of the source.
-/
namespace Tikv
namespace ReadProgress

open Lib List Option

structure ReadState where
  idx : Nat
  ts : Nat
deriving DecidableEq, Repr

structure RegionEpoch where
  confVer : Nat
  version : Nat
deriving DecidableEq, Repr

structure LocalLeaderInfo where
  leaderId : Nat
  leaderTerm : Nat
  epoch : RegionEpoch
deriving DecidableEq, Repr

structure LeaderInfo where
  peerId : Nat
  term : Nat
  epoch : RegionEpoch
  readState : Option ReadState
deriving DecidableEq, Repr

structure Core where
  appliedIndex : Nat
  /-- the current `safe_ts`, and the smallest `apply_index` required for it -/
  readState : ReadState
  leaderInfo : LocalLeaderInfo
  pendingItems : List ReadState
  lastMergeIndex : Nat
  /-- "Stop update `safe_ts`" -/
  pause : Bool
  /-- "Discard incoming `(idx, ts)`" -/
  discard : Bool
deriving DecidableEq, Repr

/-- The loop of `update_applied`: items that are applied leave the queue, the largest timestamp is kept. -/
def consume (applied : Nat) : ReadState → List ReadState → ReadState × List ReadState
  | toUpdate, [] => (toUpdate, [])
  | toUpdate, item :: rest =>
    if applied < item.idx then (toUpdate, item :: rest)
    else consume applied (if toUpdate.ts < item.ts then item else toUpdate) rest

def everyOther : List ReadState → List ReadState
  | [] => []
  | [x] => [x]
  | x :: _ :: l => x :: everyOther l

namespace Core

def new (appliedIndex : Nat) (epoch : RegionEpoch) (isWitness : Bool) : Core :=
  ⟨appliedIndex, ⟨0, 0⟩, ⟨0, 0, epoch⟩, [], 0, isWitness, isWitness⟩

def updateApplied (core : Core) (applied : Nat) : Option (Core × Option Nat) :=
  if applied < core.appliedIndex then none
  else
    let (toUpdate, pendingItems) := consume applied core.readState core.pendingItems
    if core.readState.ts < toUpdate.ts then
      some ({ core with appliedIndex := applied, pendingItems, readState := toUpdate }, some toUpdate.ts)
    else some ({ core with appliedIndex := applied, pendingItems }, none)

def mergeSafeTs (core : Core) (sourceSafeTs mergeIndex : Nat) : Option (Core × Option Nat) :=
  (core.updateApplied mergeIndex).map fun (core, _) =>
    let targetSafeTs := core.readState.ts
    let ts := min sourceSafeTs targetSafeTs
    ({ core with lastMergeIndex := mergeIndex, readState := { core.readState with ts } },
      if ts ≠ targetSafeTs then some ts else none)

/-- `capacity` is what the queue has been given. -/
def pushBack (core : Core) (capacity : Nat) (item : ReadState) : Core :=
  let kept := if capacity ≤ core.pendingItems.length then everyOther core.pendingItems else core.pendingItems
  { core with pendingItems := kept ++ [item] }

def updateSafeTs (core : Core) (capacity idx ts : Nat) : Core × Option Nat :=
  -- "prevent the stale item makes the `safe_ts` larger again"
  if idx < core.lastMergeIndex then (core, none)
  else if idx ≤ core.appliedIndex then
    if core.readState.ts < ts then ({ core with readState := ⟨idx, ts⟩ }, some ts) else (core, none)
  else
    match core.pendingItems.getLast? with
    | none => (core.pushBack capacity ⟨idx, ts⟩, none)
    | some prevItem =>
      if ts ≤ prevItem.ts then (core, none)
      else if idx ≤ prevItem.idx then
        ({ core with pendingItems := core.pendingItems.dropLast ++ [{ prevItem with ts }] }, none)
      else (core.pushBack capacity ⟨idx, ts⟩, none)

end Core

structure RegionReadProgress where
  core : Core
  safeTs : Nat
deriving DecidableEq, Repr

namespace RegionReadProgress

def new (appliedIndex : Nat) (epoch : RegionEpoch) (isWitness : Bool) : RegionReadProgress :=
  ⟨.new appliedIndex epoch isWitness, 0⟩

def store (p : RegionReadProgress) (res : Core × Option Nat) : RegionReadProgress :=
  ⟨res.1, if res.1.pause then p.safeTs else res.2.getD p.safeTs⟩

def updateApplied (p : RegionReadProgress) (applied : Nat) : Option RegionReadProgress :=
  (p.core.updateApplied applied).map p.store

def updateSafeTs (p : RegionReadProgress) (capacity applyIndex ts : Nat) : RegionReadProgress :=
  if applyIndex = 0 ∨ ts = 0 then p
  else if p.core.discard then p
  else p.store (p.core.updateSafeTs capacity applyIndex ts)

def mergeSafeTs (p : RegionReadProgress) (sourceSafeTs mergeIndex : Nat) : Option RegionReadProgress :=
  (p.core.mergeSafeTs sourceSafeTs mergeIndex).map p.store

/-- With whether the `LeaderInfo` is the same as ours. -/
def consumeLeaderInfo (p : RegionReadProgress) (capacity : Nat) (leaderInfo : LeaderInfo) :
    RegionReadProgress × Bool :=
  (match leaderInfo.readState with
    | none => p
    | some rs =>
      if rs.idx ≠ 0 ∧ rs.ts ≠ 0 ∧ p.core.discard = false then p.store (p.core.updateSafeTs capacity rs.idx rs.ts) else p,
    p.core.leaderInfo.leaderTerm == leaderInfo.term && p.core.leaderInfo.leaderId == leaderInfo.peerId &&
      p.core.leaderInfo.epoch == leaderInfo.epoch)

def updateLeaderInfo (p : RegionReadProgress) (peerId term : Nat) (epoch : RegionEpoch) : RegionReadProgress :=
  { p with core := { p.core with leaderInfo := ⟨peerId, term, epoch⟩ } }

/-- "Reset `safe_ts` to 0 and stop updating it" -/
def pause (p : RegionReadProgress) : RegionReadProgress := ⟨{ p.core with pause := true }, 0⟩

/-- "Discard incoming `read_state` item and stop updating `safe_ts`" -/
def discard (p : RegionReadProgress) : RegionReadProgress :=
  { p with core := { p.core with pause := true, discard := true } }

/-- "Reset `safe_ts` and resume updating it" -/
def resume (p : RegionReadProgress) : RegionReadProgress :=
  ⟨{ p.core with pause := false, discard := false }, p.core.readState.ts⟩

theorem consumeLeaderInfo_eq (p : RegionReadProgress) (capacity : Nat) (leaderInfo : LeaderInfo) :
    (p.consumeLeaderInfo capacity leaderInfo).1 =
      leaderInfo.readState.elim p fun rs => p.updateSafeTs capacity rs.idx rs.ts := by
  unfold consumeLeaderInfo updateSafeTs
  cases leaderInfo.readState with
  | none => rfl
  | some rs =>
    dsimp only [Option.elim]
    by_cases hzero : rs.idx = 0 ∨ rs.ts = 0
    · rw [if_pos hzero, if_neg fun h => hzero.elim h.1 h.2.1]
    rw [if_neg hzero]
    obtain ⟨hidx, hts⟩ := not_or.1 hzero
    cases hd : p.core.discard with
    | true => rw [if_neg fun h => Bool.true_eq_false.mp h.2.2, if_pos rfl]
    | false => rw [if_pos ⟨hidx, hts, rfl⟩, if_neg Bool.false_ne_true]

end RegionReadProgress

/-! ## Histories -/

/-- A merge: its index, the source's safe timestamp, and the target's once the items up to the index were consumed. -/
structure Merge where
  index : Nat
  sourceTs : Nat
  targetTs : Nat

inductive Call
  | updateSafeTs (capacity applyIndex ts : Nat)
  | updateApplied (applied : Nat)
  | consumeLeaderInfo (capacity : Nat) (leaderInfo : LeaderInfo)
  | mergeSafeTs (sourceSafeTs mergeIndex : Nat)
  | updateLeaderInfo (peerId term : Nat) (epoch : RegionEpoch)
  | pause
  | resume
  | discard

/-- **What happened to a replica**: the items it received, the merges, and those of them that its published timestamp
was to meet, which a merge of a paused core is not before `resume`; `paused` is since `pause`, or from the start of a
witness, until `resume`. -/
structure History where
  progress : RegionReadProgress
  received : List ReadState
  merges : List Merge
  shown : List Merge
  paused : Bool

namespace History

def new (appliedIndex : Nat) (epoch : RegionEpoch) (isWitness : Bool) : History :=
  ⟨.new appliedIndex epoch isWitness, [], [], [], isWitness⟩

def run (h : History) : Call → Option History
  | .updateSafeTs capacity applyIndex ts =>
    some { h with
      progress := h.progress.updateSafeTs capacity applyIndex ts
      received := ⟨applyIndex, ts⟩ :: h.received }
  | .updateApplied applied => (h.progress.updateApplied applied).map fun progress => { h with progress }
  | .consumeLeaderInfo capacity leaderInfo =>
    some { h with
      progress := (h.progress.consumeLeaderInfo capacity leaderInfo).1
      received := leaderInfo.readState.toList ++ h.received }
  | .mergeSafeTs sourceSafeTs mergeIndex =>
    (h.progress.core.updateApplied mergeIndex).bind fun applied =>
      (h.progress.mergeSafeTs sourceSafeTs mergeIndex).map fun progress =>
        let merge := ⟨mergeIndex, sourceSafeTs, applied.1.readState.ts⟩
        { h with
          progress
          merges := merge :: h.merges
          shown := if h.progress.core.pause then h.shown else merge :: h.merges }
  | .updateLeaderInfo peerId term epoch =>
    some { h with progress := h.progress.updateLeaderInfo peerId term epoch }
  | .pause => some { h with progress := h.progress.pause, paused := true }
  | .resume => some { h with progress := h.progress.resume, shown := h.merges, paused := false }
  | .discard => some { h with progress := h.progress.discard }

def Step (h : History) (c : Call) (h' : History) : Prop := h.run c = some h'

end History

/-- An item with a timestamp of at least `s` was received, with an index in the range. -/
def ReceivedIn (received : List ReadState) (s low high : Nat) : Prop :=
  ∃ x ∈ received, s ≤ x.ts ∧ low ≤ x.idx ∧ x.idx ≤ high

/-- **A timestamp is justified** by an item that is applied, and against each merge by one of at or after the merge
unless it is at most both regions' timestamps. -/
def Justified (received : List ReadState) (merges : List Merge) (applied s : Nat) : Prop :=
  0 < s → ReceivedIn received s 0 applied ∧
    ∀ m ∈ merges, ReceivedIn received s m.index applied ∨ s ≤ min m.sourceTs m.targetTs

def Increasing (items : List ReadState) : Prop := items.Pairwise fun x y => x.idx < y.idx ∧ x.ts < y.ts

/-- **A merge finds no pending item that rests on an item from before it.** -/
def MergesCleanly (h : History) : Call → Prop
  | .mergeSafeTs _ mergeIndex =>
    ∀ x ∈ h.progress.core.pendingItems, mergeIndex < x.idx → ReceivedIn h.received x.ts mergeIndex x.idx
  | _ => True

/-! ## Justification is kept -/

variable {s : Nat} {received received' : List ReadState} {low : Nat}

theorem ReceivedIn.mono {s' low' high high' : Nat}
    (h : ReceivedIn received s low high) (hsub : received ⊆ received') (hs : s' ≤ s) (hlow : low' ≤ low)
    (hhigh : high ≤ high') : ReceivedIn received' s' low' high' := by
  obtain ⟨x, hx, hts, hl, hh⟩ := h
  exact ⟨x, hsub hx, hs.trans hts, hlow.trans hl, hh.trans hhigh⟩

variable {applied : Nat} {merges : List Merge}

theorem Justified.mono {applied' s' : Nat}
    (h : Justified received merges applied s) (hsub : received ⊆ received') (happ : applied ≤ applied') (hs : s' ≤ s) :
    Justified received' merges applied' s' := by
  intro hpos
  obtain ⟨hrec, hmerge⟩ := h (by omega)
  refine ⟨hrec.mono hsub hs le_rfl happ, fun m hm => ?_⟩
  rcases hmerge m hm with hm | hm
  · exact .inl (hm.mono hsub hs le_rfl happ)
  · exact .inr (hs.trans hm)

theorem ReceivedIn.justified (h : ReceivedIn received s low applied) (hmerges : ∀ m ∈ merges, m.index ≤ low) :
    Justified received merges applied s := fun _ =>
  ⟨h.mono (List.Subset.refl _) le_rfl (Nat.zero_le _) le_rfl,
    fun m hm => .inl (h.mono (List.Subset.refl _) le_rfl (hmerges m hm) le_rfl)⟩

/-! ## The queue -/

theorem everyOther_sublist : ∀ items : List ReadState, (everyOther items).Sublist items
  | [] => .slnil
  | [_] => List.Sublist.refl _
  | x :: y :: l => .cons_cons x (.cons y (everyOther_sublist l))

variable {items : List ReadState} {ts : Nat} {prev : ReadState}

theorem Increasing.dropLast_append (h : Increasing items) (hlast : items.getLast? = some prev) (hts : prev.ts < ts) :
    Increasing (items.dropLast ++ [{ prev with ts }]) := by
  have hsplit : items.dropLast ++ [prev] = items := dropLast_append_getLast? prev hlast
  rw [← hsplit] at h
  obtain ⟨hinit, -, hprev⟩ := pairwise_append.1 h
  refine pairwise_append.2 ⟨hinit, pairwise_singleton _ _, fun x hx => forall_mem_singleton.2 ?_⟩
  obtain ⟨hidx, hlt⟩ := hprev x hx prev (mem_singleton_self _)
  exact ⟨hidx, hlt.trans hts⟩

theorem consume_spec (applied : Nat) : ∀ {items : List ReadState} (toUpdate : ReadState), Increasing items →
    (consume applied toUpdate items).2 <:+ items ∧ (∀ x ∈ (consume applied toUpdate items).2, applied < x.idx) ∧
      ((consume applied toUpdate items).1 = toUpdate ∨
        (consume applied toUpdate items).1 ∈ items ∧ (consume applied toUpdate items).1.idx ≤ applied)
  | [], toUpdate, _ => ⟨suffix_rfl, fun _ h => (nomatch h), .inl rfl⟩
  | item :: rest, toUpdate, h => by
    obtain ⟨hitem, hrest⟩ := pairwise_cons.1 h
    rw [consume]
    split
    · rename_i hlt
      exact ⟨suffix_rfl, forall_mem_cons.2 ⟨hlt, fun x hx => hlt.trans (hitem x hx).1⟩, .inl rfl⟩
    · rename_i hle
      obtain ⟨hsuffix, hpending, hkept⟩ := consume_spec applied (if toUpdate.ts < item.ts then item else toUpdate) hrest
      refine ⟨hsuffix.trans (suffix_cons _ _), hpending, ?_⟩
      rcases hkept with hkept | ⟨hmem, hidx⟩
      · rw [hkept]
        split
        · exact .inr ⟨mem_cons_self, not_lt.1 hle⟩
        · exact .inl rfl
      · exact .inr ⟨mem_cons_of_mem _ hmem, hidx⟩

/-! ## The core -/

structure CoreInv (core : Core) (received : List ReadState) (merges : List Merge) : Prop where
  justified : Justified received merges core.appliedIndex core.readState.ts
  pending : ∀ x ∈ core.pendingItems, ReceivedIn received x.ts core.lastMergeIndex x.idx
  increasing : Increasing core.pendingItems
  merged : ∀ m ∈ merges, m.index ≤ core.lastMergeIndex
  applied : core.lastMergeIndex ≤ core.appliedIndex

def Publishes (core core' : Core) (out : Option Nat) : Prop :=
  out = none ∧ core.readState.ts ≤ core'.readState.ts ∨ out = some core'.readState.ts

variable {core core' : Core} {received received' : List ReadState} {merges : List Merge} {out : Option Nat}

section

variable (h : CoreInv core received merges)
include h

theorem CoreInv.receive (hsub : received ⊆ received') :
    CoreInv core received' merges :=
  ⟨h.justified.mono hsub le_rfl le_rfl, fun x hx => (h.pending x hx).mono hsub le_rfl le_rfl le_rfl, h.increasing,
    h.merged, h.applied⟩

theorem CoreInv.updateApplied (hu : core.updateApplied applied = some (core', out)) :
    CoreInv core' received merges ∧ Publishes core core' out ∧ core.readState.ts ≤ core'.readState.ts ∧
      core.appliedIndex ≤ core'.appliedIndex ∧ core'.appliedIndex = applied ∧
      core'.lastMergeIndex = core.lastMergeIndex ∧ core'.pause = core.pause ∧
      (∀ x ∈ core'.pendingItems, x ∈ core.pendingItems ∧ applied < x.idx) := by
  unfold Core.updateApplied at hu
  split at hu
  · cases hu
  obtain ⟨hsuffix, hafter, hkept⟩ := consume_spec applied core.readState h.increasing
  generalize consume applied core.readState core.pendingItems = res at hu hsuffix hafter hkept
  obtain ⟨toUpdate, pendingItems⟩ := res
  dsimp only at hu hsuffix hafter hkept
  have hpending : ∀ x ∈ pendingItems, x ∈ core.pendingItems ∧ applied < x.idx :=
    fun x hx => ⟨hsuffix.mem hx, hafter x hx⟩
  have hold : Justified received merges applied core.readState.ts :=
    h.justified.mono (List.Subset.refl _) (by omega) le_rfl
  have happlied := h.applied
  have hinv (readState : ReadState) (hj : Justified received merges applied readState.ts) :
      CoreInv { core with appliedIndex := applied, pendingItems, readState } received merges :=
    ⟨hj, fun x hx => h.pending x (hpending x hx).1, h.increasing.sublist hsuffix.sublist, h.merged, by dsimp only; omega⟩
  split at hu
  · rename_i hlt
    cases hu
    have hnew : Justified received merges applied toUpdate.ts := by
      rcases hkept with rfl | ⟨hmem, hidx⟩
      · exact hold
      · exact ((h.pending toUpdate hmem).mono (List.Subset.refl _) le_rfl le_rfl hidx).justified h.merged
    exact ⟨hinv toUpdate hnew, .inr rfl, hlt.le, by dsimp only; omega, rfl, rfl, rfl, hpending⟩
  · cases hu
    exact ⟨hinv _ hold, .inl ⟨rfl, le_rfl⟩, le_rfl, by dsimp only; omega, rfl, rfl, rfl, hpending⟩

theorem CoreInv.pushBack (capacity : Nat) {item : ReadState}
    (hitem : ReceivedIn received item.ts core.lastMergeIndex item.idx)
    (hlast : ∀ y ∈ core.pendingItems, y.idx < item.idx ∧ y.ts < item.ts) :
    CoreInv (core.pushBack capacity item) received merges := by
  have hkept : (if capacity ≤ core.pendingItems.length then everyOther core.pendingItems
      else core.pendingItems).Sublist core.pendingItems := by
    split
    · exact everyOther_sublist _
    · exact List.Sublist.refl _
  refine ⟨h.justified, ?_, ?_, h.merged, h.applied⟩
  · exact forall_mem_append.2 ⟨fun x hx => h.pending x (hkept.subset hx), forall_mem_singleton.2 hitem⟩
  · exact pairwise_append.2 ⟨h.increasing.sublist hkept, pairwise_singleton _ _,
      fun y hy => forall_mem_singleton.2 (hlast y (hkept.subset hy))⟩

omit h in
theorem Increasing.le_last (h : Increasing items)
    (hlast : items.getLast? = some prev) : ∀ y ∈ items, y.idx ≤ prev.idx ∧ y.ts ≤ prev.ts := by
  have hsplit : items.dropLast ++ [prev] = items := dropLast_append_getLast? prev hlast
  rw [← hsplit] at h ⊢
  refine forall_mem_append.2 ⟨fun y hy => ?_, forall_mem_singleton.2 ⟨le_rfl, le_rfl⟩⟩
  have := (pairwise_append.1 h).2.2 y hy prev (mem_singleton_self _)
  omega

theorem CoreInv.updateSafeTs {capacity idx : Nat} (hmem : ⟨idx, ts⟩ ∈ received)
    (hu : core.updateSafeTs capacity idx ts = (core', out)) :
    CoreInv core' received merges ∧ Publishes core core' out ∧ core'.appliedIndex = core.appliedIndex ∧
      core'.pause = core.pause := by
  have hsame : CoreInv core received merges ∧ Publishes core core none ∧ core.appliedIndex = core.appliedIndex ∧
      core.pause = core.pause := ⟨h, .inl ⟨rfl, le_rfl⟩, rfl, rfl⟩
  unfold Core.updateSafeTs at hu
  split at hu
  · cases hu; exact hsame
  rename_i hmerge
  have hitem : ∀ high, idx ≤ high → ReceivedIn received ts core.lastMergeIndex high :=
    fun high hhigh => ⟨⟨idx, ts⟩, hmem, le_rfl, not_lt.1 hmerge, hhigh⟩
  split at hu
  · rename_i happ
    split at hu
    · cases hu
      exact ⟨⟨(hitem _ happ).justified h.merged, h.pending, h.increasing, h.merged, h.applied⟩, .inr rfl, rfl, rfl⟩
    · cases hu; exact hsame
  · cases hlast : core.pendingItems.getLast? with
    | none =>
      rw [hlast] at hu
      cases hu
      have hnil : core.pendingItems = [] := getLast?_eq_none_iff.1 hlast
      refine ⟨h.pushBack capacity (hitem idx le_rfl) fun y hy => ?_, .inl ⟨rfl, le_rfl⟩, rfl, rfl⟩
      rw [hnil] at hy
      exact absurd hy not_mem_nil
    | some prevItem =>
      rw [hlast] at hu
      dsimp only at hu
      split at hu
      · cases hu; exact hsame
      rename_i hts
      split at hu
      · rename_i hidx
        cases hu
        refine ⟨⟨h.justified, ?_, h.increasing.dropLast_append hlast (not_le.1 hts), h.merged, h.applied⟩,
          .inl ⟨rfl, le_rfl⟩, rfl, rfl⟩
        exact forall_mem_append.2 ⟨fun x hx => h.pending x (dropLast_subset _ hx),
          forall_mem_singleton.2 (hitem prevItem.idx hidx)⟩
      · cases hu
        refine ⟨h.pushBack capacity (hitem idx le_rfl) fun y hy => ?_, .inl ⟨rfl, le_rfl⟩, rfl, rfl⟩
        have := h.increasing.le_last hlast y hy
        dsimp only
        omega

theorem CoreInv.mergeSafeTs {sourceSafeTs mergeIndex : Nat} {applied : Core × Option Nat}
    (hu : core.updateApplied mergeIndex = some applied)
    (hm : core.mergeSafeTs sourceSafeTs mergeIndex = some (core', out))
    (hclean : ∀ x ∈ core.pendingItems, mergeIndex < x.idx → ReceivedIn received x.ts mergeIndex x.idx) :
    CoreInv core' received (⟨mergeIndex, sourceSafeTs, applied.1.readState.ts⟩ :: merges) ∧ Publishes core core' out ∧
      core.appliedIndex ≤ core'.appliedIndex ∧ core'.pause = core.pause := by
  unfold Core.mergeSafeTs at hm
  rw [hu] at hm
  obtain ⟨core₁, out₁⟩ := applied
  obtain ⟨h₁, -, hts, happ, hidx, hlast, hpause, hpending⟩ := h.updateApplied hu
  cases hm
  have hlow := h.applied
  refine ⟨⟨fun hpos => ?_, fun x hx => ?_, h₁.increasing, forall_mem_cons.2 ⟨le_rfl, fun m hm => ?_⟩, hidx.ge⟩, ?_, happ,
    hpause⟩
  · obtain ⟨hrec, hmerges⟩ := h₁.justified.mono (List.Subset.refl _) le_rfl (min_le_right sourceSafeTs _) hpos
    exact ⟨hrec, forall_mem_cons.2 ⟨.inr le_rfl, hmerges⟩⟩
  · obtain ⟨hx, hlt⟩ := hpending x hx
    exact hclean x hx hlt
  · have := h₁.merged m hm
    dsimp only
    omega
  · by_cases hne : min sourceSafeTs core₁.readState.ts = core₁.readState.ts
    · rw [if_neg (not_not.2 hne)]
      exact .inl ⟨rfl, hts.trans hne.ge⟩
    rw [if_pos hne]
    exact .inr rfl

end

/-! ## Every run -/

/-- **The invariant of a history.**  What is published is at most the core's `safe_ts` unless the core is paused. -/
structure History.Inv (h : History) : Prop where
  core : CoreInv h.progress.core h.received h.merges
  justified : Justified h.received h.shown h.progress.core.appliedIndex h.progress.safeTs
  running : h.progress.core.pause = false → h.progress.safeTs ≤ h.progress.core.readState.ts ∧ h.shown = h.merges
  paused : h.paused = true → h.progress.core.pause = true ∧ h.progress.safeTs = 0

variable {h : History}

section

variable (hi : h.Inv)
include hi

theorem History.Inv.store {res : Core × Option Nat} {merges' shown' : List Merge} (hcore : CoreInv res.1 received' merges')
    (hpub : Publishes h.progress.core res.1 res.2) (hsub : h.received ⊆ received')
    (happ : h.progress.core.appliedIndex ≤ res.1.appliedIndex) (hpause : res.1.pause = h.progress.core.pause)
    (hshown : shown' = if h.progress.core.pause then h.shown else merges') :
    Inv ⟨h.progress.store res, received', merges', shown', h.paused⟩ := by
  unfold RegionReadProgress.store
  subst hshown
  cases hp : h.progress.core.pause with
  | true =>
    rw [hpause, hp]
    refine ⟨hcore, hi.justified.mono hsub happ le_rfl, fun hrun => ?_,
      fun hpaused => ⟨hpause.trans hp, (hi.paused hpaused).2⟩⟩
    rw [hpause, hp] at hrun
    cases hrun
  | false =>
    rw [hpause, hp]
    have hle : res.2.getD h.progress.safeTs ≤ res.1.readState.ts := by
      have hold := (hi.running hp).1
      rcases hpub with ⟨hnone, hup⟩ | hsome
      · rw [hnone]
        exact hold.trans hup
      · rw [hsome]; rfl
    refine ⟨hcore, hcore.justified.mono (List.Subset.refl _) le_rfl hle, fun _ => ⟨hle, rfl⟩, fun hpaused => ?_⟩
    rw [(hi.paused hpaused).1] at hp
    cases hp

theorem History.Inv.shown_eq : h.shown = if h.progress.core.pause then h.shown else h.merges := by
  split
  · rfl
  rename_i hp
  exact (hi.running (Bool.eq_false_iff.2 hp)).2

theorem History.Inv.receive (hsub : h.received ⊆ received') : Inv { h with received := received' } :=
  ⟨hi.core.receive hsub, hi.justified.mono hsub le_rfl le_rfl, hi.running, hi.paused⟩

theorem History.Inv.updateSafeTs {capacity applyIndex : Nat}
    (hsub : h.received ⊆ received') (hmem : ⟨applyIndex, ts⟩ ∈ received') :
    Inv { h with progress := h.progress.updateSafeTs capacity applyIndex ts, received := received' } := by
  have hrec := hi.receive hsub
  unfold RegionReadProgress.updateSafeTs
  split
  · exact hrec
  split
  · exact hrec
  obtain ⟨hcore, hpub, happ, hpause⟩ := hrec.core.updateSafeTs hmem
    (rfl : h.progress.core.updateSafeTs capacity applyIndex ts = _)
  exact hi.store hcore hpub hsub happ.ge hpause hi.shown_eq

theorem History.step_inv {h' : History} {c : Call} (hok : MergesCleanly h c) (hs : h.Step c h') :
    h'.Inv := by
  cases c with
  | updateSafeTs capacity applyIndex ts =>
    cases hs
    exact hi.updateSafeTs (subset_cons_self _ _) mem_cons_self
  | updateApplied applied =>
    obtain ⟨progress, hp, rfl⟩ := map_eq_some_iff.1 hs
    obtain ⟨res, hres, rfl⟩ := map_eq_some_iff.1 hp
    obtain ⟨hcore, hpub, -, happ, -, -, hpause, -⟩ := hi.core.updateApplied hres
    exact hi.store hcore hpub (List.Subset.refl _) happ hpause hi.shown_eq
  | consumeLeaderInfo capacity leaderInfo =>
    cases hs
    rw [RegionReadProgress.consumeLeaderInfo_eq]
    cases leaderInfo.readState with
    | none => exact hi
    | some rs => exact hi.updateSafeTs (subset_cons_self _ _) mem_cons_self
  | mergeSafeTs sourceSafeTs mergeIndex =>
    obtain ⟨applied, happlied, hs⟩ := bind_eq_some_iff.1 hs
    obtain ⟨progress, hp, rfl⟩ := map_eq_some_iff.1 hs
    obtain ⟨res, hres, rfl⟩ := map_eq_some_iff.1 hp
    obtain ⟨hcore, hpub, happ, hpause⟩ := hi.core.mergeSafeTs happlied hres hok
    exact hi.store hcore hpub (List.Subset.refl _) happ hpause rfl
  | updateLeaderInfo peerId term epoch =>
    cases hs
    exact { hi with core := { hi.core with } }
  | pause =>
    cases hs
    exact ⟨{ hi.core with }, fun h => absurd h (lt_irrefl 0), fun h => (nomatch h), fun _ => ⟨rfl, rfl⟩⟩
  | resume =>
    cases hs
    exact ⟨{ hi.core with }, hi.core.justified, fun _ => ⟨le_rfl, rfl⟩, nofun⟩
  | discard =>
    cases hs
    exact ⟨{ hi.core with }, hi.justified, fun h => (nomatch h), fun h => ⟨rfl, (hi.paused h).2⟩⟩

end

theorem History.inv_new (appliedIndex : Nat) (epoch : RegionEpoch) (isWitness : Bool) :
    (History.new appliedIndex epoch isWitness).Inv where
  core := ⟨fun h => absurd h (lt_irrefl 0), fun _ h => (nomatch h), .nil, fun _ h => (nomatch h), Nat.zero_le _⟩
  justified h := absurd h (lt_irrefl 0)
  running _ := ⟨le_rfl, rfl⟩
  paused h := ⟨h, rfl⟩

/-- **A published timestamp is justified.** -/
theorem justified_of_run {appliedIndex : Nat} {epoch : RegionEpoch} {isWitness : Bool} {calls : List Call} {h : History}
    (hrun : Run History.Step MergesCleanly (.new appliedIndex epoch isWitness) calls h) :
    Justified h.received h.shown h.progress.core.appliedIndex h.progress.safeTs ∧
      (h.progress.core.pause = false → h.shown = h.merges) ∧ Increasing h.progress.core.pendingItems ∧
      (h.paused = true → h.progress.safeTs = 0) := by
  have hi : h.Inv := hrun.invariant (fun _ _ _ hi hok hs => History.step_inv hi hok hs) (History.inv_new _ _ _)
  exact ⟨hi.justified, fun hp => (hi.running hp).2, hi.core.increasing, fun hp => (hi.paused hp).2⟩

theorem justified_of_run_merge : ∃ h, Run History.Step MergesCleanly (.new 1 ⟨1, 1⟩ false)
      [.updateSafeTs 4 1 10, .updateSafeTs 4 9 20, .mergeSafeTs 5 5, .updateApplied 9] h ∧ h.progress.safeTs = 20 ∧
      Justified h.received h.merges h.progress.core.appliedIndex 20 := by
  have hclean : ∀ x ∈ [(⟨9, 20⟩ : ReadState)], 5 < x.idx → ReceivedIn [⟨9, 20⟩, ⟨1, 10⟩] x.ts 5 x.idx := by
    intro x hx _
    rw [mem_singleton.1 hx]
    exact ⟨⟨9, 20⟩, mem_cons_self, by decide, by decide, by decide⟩
  refine Exists.imp (fun h (hh : Run _ _ _ _ h ∧ h.progress.safeTs = 20 ∧ h.progress.core.pause = false) =>
      ⟨hh.1, hh.2.1, ?_⟩)
    ⟨_, .cons trivial rfl (.cons trivial rfl (.cons hclean rfl (.cons trivial rfl (.nil _)))), rfl, rfl⟩
  obtain ⟨hj, hshown, -, -⟩ := justified_of_run hh.1
  exact hh.2.1 ▸ hshown hh.2.2 ▸ hj

theorem not_justified_of_mem {m : Merge} (hm : m ∈ merges) (hnone : ∀ x ∈ received, ¬ (s ≤ x.ts ∧ m.index ≤ x.idx))
    (hlt : min m.sourceTs m.targetTs < s) : ¬ Justified received merges applied s := by
  intro hj
  rcases (hj (Nat.zero_lt_of_lt hlt)).2 m hm with ⟨x, hx, hts, hlow, -⟩ | hle
  · exact hnone x hx ⟨hts, hlow⟩
  · exact absurd hle (not_le.2 hlt)

/-- **Where the published timestamp is not justified, or not zero**: an item from before a merge is folded into a
pending one from after it; after `discard` the core is paused and 10 stays published, also when a merge brings the
safe timestamp down to 5. -/
theorem not_justified : (∃ h, Run History.Step always (.new 1 ⟨1, 1⟩ false)
      [.updateSafeTs 4 1 10, .updateSafeTs 4 9 20, .updateSafeTs 4 3 30, .mergeSafeTs 5 5, .updateApplied 9] h ∧
      h.progress.safeTs = 30 ∧ ¬ Justified h.received h.merges h.progress.core.appliedIndex 30) ∧
    ∃ h, Run History.Step always (.new 1 ⟨1, 1⟩ false) [.updateSafeTs 4 1 10, .discard, .mergeSafeTs 5 5] h ∧
      h.progress.core.pause = true ∧ h.progress.safeTs = 10 ∧
      ¬ Justified h.received h.merges h.progress.core.appliedIndex 10 := by
  refine ⟨⟨_, .of_foldlM rfl, rfl, ?_⟩, ⟨_, .of_foldlM rfl, rfl, rfl, ?_⟩⟩
  all_goals exact not_justified_of_mem (m := ⟨5, 5, 10⟩) mem_cons_self (by decide) (by decide)

end ReadProgress
end Tikv
