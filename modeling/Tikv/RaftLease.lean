import Mathlib.Algebra.Group.Nat.Even
import Tikv.LibRun
/-!
# RaftLease — the leader's lease and its remote copies (`store::util`)

The lease of a leader is valid up to a bound, suspect during a leader transfer, or expired.  The read threads hold clones of
a remote lease: a cell with the bound packed into a `u64`, which is rounded down and is written again only when the bound
has moved by more than the drift.  No clone is ever ahead of the lease, and none lives on after a transfer or an expiry
(`remoteLease_sound`).  Times are nanoseconds of the monotonic clock; `none` is a panic.
-/
namespace Tikv
namespace Raft

open Lib List Option

inductive LeaseState
  | suspect | valid | expired
deriving DecidableEq, Repr

def timespecNsecShift : Nat := 20
def timespecSecShift : Nat := 10
def timespecNsecMask : Nat := (1 <<< timespecSecShift) - 1

def timespecToU64 (ts : Nat) : Option Nat :=
  let sec := ts / 10 ^ 9
  let nsec := ts % 10 ^ 9
  if sec < 1 <<< (64 - timespecSecShift) then some (sec <<< timespecSecShift ||| nsec >>> timespecNsecShift) else none

/-- `Timespec::new` asserts that there is less than a second of nanoseconds. -/
def u64ToTimespec (u : Nat) : Option Nat :=
  let sec := u >>> timespecSecShift
  let nsec := (u &&& timespecNsecMask) <<< timespecNsecShift
  if nsec < 10 ^ 9 then some (sec * 10 ^ 9 + nsec) else none

structure RemoteLease where
  expiredTime : Nat
  term : Nat
deriving DecidableEq, Repr

def RemoteLease.inspect (r : RemoteLease) (ts : Nat) : Option LeaseState :=
  (u64ToTimespec r.expiredTime).map fun expiredTime => if ts < expiredTime then .valid else .expired

/-- A lease with the cells of every remote lease it handed out; `remote` is the one it still holds. -/
structure Lease where
  /-- A suspect timestamp on the left, a valid one on the right. -/
  bound : Option (Nat ⊕ Nat)
  maxLease : Nat
  maxDrift : Nat
  lastUpdate : Nat
  remote : Option Nat
  cells : List RemoteLease
deriving DecidableEq, Repr

namespace Lease

def new (maxLease : Nat) : Lease := ⟨none, maxLease, maxLease / 3, 0, none, []⟩

def setRemote (l : Lease) (i expiredTime : Nat) : List RemoteLease := l.cells.modify i ({ · with expiredTime })

def renewBound (l : Lease) (bound : Nat) : Option (Nat ⊕ Nat) :=
  match l.bound with
  | some (.inl ts) | some (.inr ts) => if ts ≤ bound then some (.inr bound) else l.bound
  | none => some (.inr bound)

def renew (l : Lease) (sendTs : Nat) : Option Lease :=
  let l := { l with bound := l.renewBound (sendTs + l.maxLease) }
  match l.bound with
  | some (.inr bound) =>
    if (bound : Int) - l.lastUpdate > l.maxDrift then
      let l := { l with lastUpdate := bound }
      match l.remote with
      | some i => (timespecToU64 bound).map fun u => { l with cells := l.setRemote i u }
      | none => some l
    else some l
  | _ => some l

def expireRemoteLease (l : Lease) : Lease :=
  match l.remote with
  | some i => { l with remote := none, cells := l.setRemote i 0 }
  | none => l

def suspect (l : Lease) (sendTs : Nat) : Lease :=
  { l.expireRemoteLease with bound := some (.inl (sendTs + l.maxLease)) }

def inspect (l : Lease) (ts : Nat) : LeaseState :=
  match l.bound with
  | some (.inl _) => .suspect
  | some (.inr bound) => if ts < bound then .valid else .expired
  | none => .expired

def expire (l : Lease) : Lease := { l.expireRemoteLease with bound := none }

/-- A new remote lease when there is none; one of another term must have been expired. -/
def maybeNewRemoteLease (l : Lease) (term : Nat) : Option Lease :=
  match l.remote.bind (l.cells[·]?) with
  | some remote => if remote.term = term then some l else none
  | none =>
    let expiredTime := match l.bound with
      | some (.inr ts) => timespecToU64 ts
      | _ => some 0
    expiredTime.map fun expiredTime =>
      { l with remote := some l.cells.length, cells := l.cells ++ [⟨expiredTime, term⟩] }

end Lease

inductive LeaseOp
  | renew (sendTs : Nat) | suspect (sendTs : Nat) | expire | expireRemoteLease | maybeNewRemoteLease (term : Nat)
deriving DecidableEq, Repr

def Lease.step (l : Lease) : LeaseOp → Option Lease
  | .renew sendTs => l.renew sendTs
  | .suspect sendTs => some (l.suspect sendTs)
  | .expire => some l.expire
  | .expireRemoteLease => some l.expireRemoteLease
  | .maybeNewRemoteLease term => l.maybeNewRemoteLease term

theorem le_of_timespecToU64 {ts u : Nat} (h : timespecToU64 ts = some u) : ∃ t, u64ToTimespec u = some t ∧ t ≤ ts := by
  have hms : (ts % 10 ^ 9) >>> 20 < 2 ^ 10 := by rw [Nat.shiftRight_eq_div_pow]; omega
  unfold timespecToU64 at h
  dsimp only at h
  split at h
  · cases h
    have hsec : (ts / 10 ^ 9 * 2 ^ 10 + ts % 10 ^ 9 / 2 ^ 20) / 2 ^ 10 = ts / 10 ^ 9 := by omega
    have hnsec : (ts / 10 ^ 9 * 2 ^ 10 + ts % 10 ^ 9 / 2 ^ 20) % 2 ^ 10 = ts % 10 ^ 9 / 2 ^ 20 := by omega
    unfold u64ToTimespec timespecNsecMask timespecSecShift timespecNsecShift
    rw [← Nat.shiftLeft_add_eq_or_of_lt hms]
    simp only [Nat.shiftLeft_eq, one_mul, Nat.and_two_pow_sub_one_eq_mod]
    exact ⟨_, if_pos (by omega), by omega⟩
  · cases h

namespace Lease

variable {l l' : Lease} {op : LeaseOp}

theorem renewBound_of_valid {bound b : Nat} (h : l.bound = some (.inr b)) :
    ∃ b' ≥ b, l.renewBound bound = some (.inr b') := by
  unfold renewBound
  rw [h]
  by_cases hle : b ≤ bound
  · exact ⟨bound, hle, if_pos hle⟩
  · exact ⟨b, le_refl b, if_neg hle⟩

theorem renew_cases {sendTs : Nat} (h : l.renew sendTs = some l') :
    l'.remote = l.remote ∧ l'.bound = l.renewBound (sendTs + l.maxLease) ∧
    (l'.cells = l.cells ∨ ∃ i b u, l.remote = some i ∧ l'.bound = some (.inr b) ∧ timespecToU64 b = some u ∧
      l'.cells = l.setRemote i u) := by
  unfold renew at h
  dsimp only at h
  split at h
  · rename_i b hb
    split at h
    · split at h
      · rename_i i hi
        obtain ⟨u, hu, rfl⟩ := map_eq_some_iff.1 h
        exact ⟨rfl, rfl, .inr ⟨i, b, u, hi, hb, hu, rfl⟩⟩
      · cases h
        exact ⟨rfl, rfl, .inl rfl⟩
    · cases h
      exact ⟨rfl, rfl, .inl rfl⟩
  · cases h
    exact ⟨rfl, rfl, .inl rfl⟩

theorem maybeNewRemoteLease_cases {term : Nat} (h : l.maybeNewRemoteLease term = some l') :
    l' = l ∨ l.remote.bind (l.cells[·]?) = none ∧ ∃ u, (u = 0 ∨ ∃ b, l.bound = some (.inr b) ∧ timespecToU64 b = some u) ∧
      l' = { l with remote := some l.cells.length, cells := l.cells ++ [⟨u, term⟩] } := by
  unfold maybeNewRemoteLease at h
  split at h
  · split at h
    · exact .inl (some.inj h).symm
    · cases h
  · obtain ⟨u, hu, rfl⟩ := map_eq_some_iff.1 h
    refine .inr ⟨‹_›, u, ?_, rfl⟩
    split at hu
    · exact .inr ⟨_, ‹_›, hu⟩
    · exact .inl (some.inj hu).symm

/-- A cell is expired, or it is the lease's own and its time is within a valid bound. -/
def Behind (l : Lease) : Prop :=
  ∀ i r, l.cells[i]? = some r → r.expiredTime = 0 ∨
    l.remote = some i ∧ ∃ bound t, l.bound = some (.inr bound) ∧ u64ToTimespec r.expiredTime = some t ∧ t ≤ bound

variable {r : RemoteLease} {i : Nat}

theorem setRemote_getElem? {j u : Nat} (h : (l.setRemote i u)[j]? = some r) :
    i = j ∧ r.expiredTime = u ∨ i ≠ j ∧ l.cells[j]? = some r := by
  rw [setRemote, getElem?_modify] at h
  by_cases hij : i = j
  · obtain ⟨c, -, rfl⟩ := map_eq_some_iff.1 h
    exact .inl ⟨hij, by rw [if_pos hij]⟩
  · exact .inr ⟨hij, by simpa [hij] using h⟩

theorem Behind.expireRemoteLease (h : l.Behind) : l.expireRemoteLease.remote = none ∧
    l.expireRemoteLease.cells.length = l.cells.length ∧
    ∀ (i : Nat) r, l.expireRemoteLease.cells[i]? = some r → r.expiredTime = 0 := by
  unfold Lease.expireRemoteLease
  split
  · rename_i j hj
    refine ⟨rfl, length_modify _ _ _, fun i r hr => ?_⟩
    obtain ⟨-, hu⟩ | ⟨hij, hr⟩ := setRemote_getElem? hr
    · exact hu
    · refine (h i r hr).resolve_right fun hown => hij ?_
      exact some.inj (hj.symm.trans hown.1)
  · rename_i hnone
    exact ⟨hnone, rfl, fun i r hr => (h i r hr).resolve_right fun hown => by simp [hnone] at hown⟩

theorem Behind.step (h : l.Behind) (hstep : l.step op = some l') : l'.Behind := by
  intro i r hr
  cases op with
  | renew sendTs =>
    obtain ⟨hremote, hbound, hcells | ⟨j, b, u, hj, hb, hu, hcells⟩⟩ := renew_cases hstep
    · rw [hcells] at hr
      refine (h i r hr).imp_right fun ⟨hown, b, t, hb, ht, hle⟩ => ?_
      obtain ⟨b', hle', hb'⟩ := renewBound_of_valid hb
      exact ⟨hremote.trans hown, b', t, hbound.trans hb', ht, le_trans hle hle'⟩
    · rw [hcells] at hr
      obtain ⟨rfl, rfl⟩ | ⟨hij, hr⟩ := setRemote_getElem? hr
      · obtain ⟨t, ht, hle⟩ := le_of_timespecToU64 hu
        exact .inr ⟨hremote.trans hj, b, t, hb, ht, hle⟩
      · refine .inl ((h i r hr).resolve_right fun hown => hij ?_)
        exact some.inj (hj.symm.trans hown.1)
  | suspect | expire | expireRemoteLease =>
    cases hstep
    exact .inl (h.expireRemoteLease.2.2 i r hr)
  | maybeNewRemoteLease term =>
    obtain rfl | ⟨hfree, u, hu, rfl⟩ := maybeNewRemoteLease_cases hstep
    · exact h i r hr
    obtain hr | ⟨rfl, rfl⟩ : l.cells[i]? = some r ∨ l.cells.length = i ∧ ⟨u, term⟩ = r := by grind
    · refine .inl ((h i r hr).resolve_right fun hown => ?_)
      rw [hown.1, bind_some, hr] at hfree
      cases hfree
    · refine hu.imp_right fun ⟨b, hb, hu⟩ => ?_
      obtain ⟨t, ht, hle⟩ := le_of_timespecToU64 hu
      exact ⟨rfl, b, t, hb, ht, hle⟩

theorem released_step (h : l.remote ≠ some i ∧ l.cells[i]? = some r)
    (hstep : l.step op = some l') : l'.remote ≠ some i ∧ l'.cells[i]? = some r := by
  obtain ⟨hown, hr⟩ := h
  have hset {j u : Nat} (hj : l.remote = some j) : (l.setRemote j u)[i]? = some r := by
    rw [setRemote, getElem?_modify_ne, hr]
    rintro rfl
    exact hown hj
  have hexpire : l.expireRemoteLease.remote ≠ some i ∧ l.expireRemoteLease.cells[i]? = some r := by
    unfold Lease.expireRemoteLease
    split
    · exact ⟨nofun, hset ‹_›⟩
    · exact ⟨hown, hr⟩
  cases op with
  | renew sendTs =>
    obtain ⟨hremote, -, hcells | ⟨j, b, u, hj, -, -, hcells⟩⟩ := renew_cases hstep
    · rw [hremote, hcells]
      exact ⟨hown, hr⟩
    · rw [hremote, hcells]
      exact ⟨hown, hset hj⟩
  | suspect | expire | expireRemoteLease =>
    cases hstep
    exact hexpire
  | maybeNewRemoteLease term =>
    obtain rfl | ⟨-, u, -, rfl⟩ := maybeNewRemoteLease_cases hstep
    · exact ⟨hown, hr⟩
    · have hi := (List.getElem?_eq_some_iff.1 hr).1
      refine ⟨fun h => ?_, (getElem?_append_left hi).trans hr⟩
      cases h
      exact lt_irrefl _ hi

/-- **No clone is ahead of the lease**: at every moment of every run what a clone finds valid, so does the lease; and after a
`suspect` or an `expire` the clones handed out before find everything expired, whatever happens later. -/
theorem remoteLease_sound {maxLease : Nat} {ops : List LeaseOp}
    (h : Run (fun l op l' => Lease.step l op = some l') always (.new maxLease) ops l) :
    (∀ r ∈ l.cells, ∀ t, r.inspect t = some .valid → l.inspect t = .valid) ∧
    ∀ op l' ops' l'', (op = .expire ∨ ∃ ts, op = .suspect ts) → l.step op = some l' →
      Run (fun l op l' => Lease.step l op = some l') always l' ops' l'' →
      ∀ i < l.cells.length, ∃ r, l''.cells[i]? = some r ∧ ∀ t, r.inspect t = some .expired := by
  have hbehind : l.Behind := h.invariant (fun _ _ _ hb _ => hb.step) nofun
  constructor
  · intro r hr t ht
    obtain ⟨i, hi⟩ := getElem?_of_mem hr
    unfold RemoteLease.inspect at ht
    obtain h0 | ⟨-, b, e, hb, he, hle⟩ := hbehind i r hi
    · rw [h0] at ht
      cases ht
    · rw [he, map_some] at ht
      have hlt : t < e := by
        by_contra hlt
        rw [if_neg hlt] at ht
        cases ht
      rw [Lease.inspect, hb]
      exact if_pos (lt_of_lt_of_le hlt hle)
  · intro op l' ops' l'' hop hstep hrun i hi
    obtain ⟨hnone, hlen, hzero⟩ := hbehind.expireRemoteLease
    have hafter : l'.remote = l.expireRemoteLease.remote ∧ l'.cells = l.expireRemoteLease.cells := by
      obtain rfl | ⟨ts, rfl⟩ := hop <;> cases hstep <;> exact ⟨rfl, rfl⟩
    rw [← hafter.1] at hnone
    rw [← hafter.2] at hlen hzero
    have hr : l'.cells[i]? = some (l'.cells.get ⟨i, hlen ▸ hi⟩) := getElem?_eq_getElem _
    have hlast := hrun.invariant (I := fun l => l.remote ≠ some i ∧ l.cells[i]? = some _)
      (fun _ _ _ hr _ => released_step hr) ⟨by simp [hnone], hr⟩
    refine ⟨_, hlast.2, fun t => ?_⟩
    rw [RemoteLease.inspect, hzero i _ hr]
    rfl

/-- The clone of a three-second lease is valid after two seconds, and so is the lease. -/
theorem remoteLease_sound_renewed : ∃ l r, Run (fun l op l' => Lease.step l op = some l') always (.new (3 * 10 ^ 9))
    [.renew 0, .maybeNewRemoteLease 1] l ∧ r ∈ l.cells ∧ r.inspect (2 * 10 ^ 9) = some .valid ∧
      l.inspect (2 * 10 ^ 9) = .valid := by
  have hrun : Run (fun l op l' => Lease.step l op = some l') always (.new (3 * 10 ^ 9))
      [.renew 0, .maybeNewRemoteLease 1] _ := .of_foldlM rfl
  have hvalid : (⟨3072, 1⟩ : RemoteLease).inspect (2 * 10 ^ 9) = some .valid := by decide
  exact ⟨_, ⟨3072, 1⟩, hrun, by decide, hvalid, (remoteLease_sound hrun).1 _ (by decide) _ hvalid⟩

end Lease

end Raft
end Tikv
