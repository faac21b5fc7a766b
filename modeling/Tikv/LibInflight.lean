import Tikv.LibPatch
import Mathlib.Data.Set.Basic
/-!
# LibInflight — changes on their way to a store

A history of changes is issued in order, each into one of several channels, and lands in the store from there.  A channel
keeps the order of its changes, so what is on its way through it is one change.  While no change is issued to a key that
another channel changes, the last change to a key is the last of its channel, and what the history says of a key is in
the store or on its way (`Carries`).

However changes land, a key holds what it held or what one of those in flight puts there (`Writes`); so what a history
said of a key stays, as long as what is in flight agrees with it or was issued later (`Kept.writes`).
-/
namespace Lib
namespace Patch

open Function

variable {κ ν ι : Type}

/-- **The channels carry the changes `h` to the store `m`**: the last change of a channel to a key is the last of all,
and what `h` says of a key is in the store or on its way. -/
structure Carries (h : List (Patch κ ν)) (pending : ι → Patch κ ν) (m : Store κ ν) : Prop where
  latest : ∀ i k v, pending i k = some v → seqAll h k = some v
  landed : ∀ k v, seqAll h k = some v → m k = v ∨ ∃ i, pending i k ≠ none

def Writes (fly : Set (Patch κ ν)) (m m' : Store κ ν) : Prop := ∀ k, m' k = m k ∨ ∃ p ∈ fly, p k = some (m' k)

/-- **What `h` says of a key is in the store, or one of the changes issued after `h` put there what is.** -/
def Kept (h later : List (Patch κ ν)) (m : Store κ ν) : Prop :=
  ∀ k v, seqAll h k = some v → m k = v ∨ ∃ q ∈ later, q k = some (m k)

def Agrees (p : Patch κ ν) (h : List (Patch κ ν)) : Prop := ∀ k v w, p k = some v → seqAll h k = some w → v = w

variable {h new : List (Patch κ ν)} {k : κ} {m : Store κ ν}

theorem seqAll_append_of_some {v : Option ν} (g : List (Patch κ ν))
    (hv : seqAll h k = some v) : seqAll (g ++ h) k = some v := by
  rw [seqAll_append]
  unfold seq
  rw [hv]
  rfl

theorem seqAll_append_of_none (h : List (Patch κ ν)) (hn : seqAll new k = none) : seqAll (h ++ new) k = seqAll h k := by
  rw [seqAll_append]
  unfold seq
  rw [hn]
  rfl

theorem apart_seqAll {l l' : List (Patch κ ν)} (h : ∀ p ∈ l, ∀ q ∈ l', Apart p q) : Apart (seqAll l) (seqAll l') := by
  intro k
  by_cases hl : ∀ p ∈ l, p k = none
  · exact .inl (seqAll_eq_none.2 hl)
  obtain ⟨p, hp⟩ := not_forall.1 hl
  obtain ⟨hmem, hpk⟩ := Classical.not_imp.1 hp
  exact .inr (seqAll_eq_none.2 fun q hq => (h p hmem q hq k).resolve_left hpk)

/-! ## Channels -/

theorem carries_nil {pending : ι → Patch κ ν} (hp : ∀ i, pending i = skip) (m : Store κ ν) : Carries [] pending m := by
  refine ⟨fun i k v hk => ?_, nofun⟩
  rw [hp i] at hk
  cases hk

section

variable [DecidableEq ι] {pending : ι → Patch κ ν} {F R : Patch κ ν} (hc : Carries h pending m) (i : ι)
include hc

/-- **Changes are issued into a channel** while no other one changes their keys. -/
theorem Carries.issue (hapart : ∀ j, j ≠ i → Apart (pending j) (seqAll new)) :
    Carries (h ++ new) (update pending i (seq (pending i) (seqAll new))) m := by
  refine ⟨fun j k v hj => ?_, fun k v hv => ?_⟩
  · rw [seqAll_append]
    unfold seq
    rw [update_apply] at hj
    split at hj
    · unfold seq at hj
      cases hk : seqAll new k with
      | none =>
        rw [hk] at hj
        exact hc.latest i k v hj
      | some w => rwa [hk] at hj
    · rename_i hne
      have hnone : seqAll new k = none := (hapart j hne k).resolve_left fun hk => by rw [hk] at hj; cases hj
      rw [hnone]
      exact hc.latest j k v hj
  · -- the channel that got the changes has every key that it had
    have hmore : ∀ j, pending j k ≠ none → ∃ j, update pending i (seq (pending i) (seqAll new)) j k ≠ none := by
      intro j hj
      refine ⟨j, ?_⟩
      rw [update_apply]
      split
      · rename_i heq
        unfold seq
        rw [← heq]
        cases seqAll new k with
        | none => exact hj
        | some w => exact Option.some_ne_none w
      · exact hj
    cases hk : seqAll new k with
    | none =>
      rw [seqAll_append_of_none h hk] at hv
      exact (hc.landed k v hv).imp_right fun ⟨j, hj⟩ => hmore j hj
    | some w =>
      refine .inr ⟨i, ?_⟩
      rw [update_self]
      unfold seq
      rw [hk]
      exact Option.some_ne_none w

theorem Carries.land (hp : pending i = seq F R) : Carries h (update pending i R) (F.apply m) := by
  refine ⟨fun j k v hj => ?_, fun k v hv => ?_⟩
  · rw [update_apply] at hj
    split at hj
    · refine hc.latest i k v ?_
      rw [hp]
      unfold seq
      rw [hj]
      rfl
    · exact hc.latest j k v hj
  · by_cases hR : R k = none
    · have hpk : pending i k = F k := by
        rw [hp]
        unfold seq
        rw [hR]
        rfl
      cases hF : F k with
      | some w =>
        have := hc.latest i k w (hpk.trans hF)
        rw [hv] at this
        rw [apply, hF]
        exact .inl (Option.some.inj this).symm
      | none =>
        rw [apply, hF]
        rcases hc.landed k v hv with hm | ⟨j, hj⟩
        · exact .inl hm
        have hne : j ≠ i := by
          rintro rfl
          exact hj (hpk.trans hF)
        exact .inr ⟨j, by rwa [update_of_ne hne]⟩
    · exact .inr ⟨i, by rwa [update_self]⟩

omit [DecidableEq ι] i in
theorem Carries.elsewhere (hF : Apart F (seqAll h)) : Carries h pending (F.apply m) := by
  refine ⟨hc.latest, fun k v hv => ?_⟩
  have hnone : F k = none := (hF k).resolve_right fun hk => by rw [hk] at hv; cases hv
  rw [apply, hnone]
  exact hc.landed k v hv

end

/-! ## Landing -/

variable {fly : Set (Patch κ ν)} {m' m'' : Store κ ν}

theorem Writes.refl (fly : Set (Patch κ ν)) (m : Store κ ν) : Writes fly m m := fun _ => .inl rfl

theorem Writes.trans (hw : Writes fly m m') (hw' : Writes fly m' m'') : Writes fly m m'' := by
  intro k
  rcases hw' k with heq | hp
  · rw [heq]
    exact hw k
  · exact .inr hp

theorem Writes.foldl {α : Type} {f : Store κ ν → α → Store κ ν} : ∀ {l : List α},
    (∀ a ∈ l, ∀ m, Writes fly m (f m a)) → ∀ m, Writes fly m (l.foldl f m)
  | [], _, m => .refl fly m
  | _ :: _, hl, m => by
    obtain ⟨ha, hl⟩ := List.forall_mem_cons.1 hl
    exact (ha m).trans (Writes.foldl hl _)

theorem writes_seqAll {l : List (Patch κ ν)} (hl : ∀ p ∈ l, p ∈ fly) (m : Store κ ν) :
    Writes fly m ((seqAll l).apply m) := by
  intro k
  unfold apply
  cases hk : seqAll l k with
  | none => exact .inl rfl
  | some v =>
    obtain ⟨p, hp, hpk⟩ := exists_of_seqAll hk
    exact .inr ⟨p, hl p hp, hpk⟩

variable {g g' : List (Patch κ ν)} (hk : Kept h g m)
include hk

theorem Kept.later (hsub : ∀ q ∈ g, q ∈ g') : Kept h g' m :=
  fun k v hv => (hk k v hv).imp_right fun ⟨q, hq, hqk⟩ => ⟨q, hsub q hq, hqk⟩

/-- **What was kept is kept**, if what lands agrees with it or was issued after it. -/
theorem Kept.writes (hw : Writes fly m m') (hfly : ∀ p ∈ fly, p ∈ g ∨ Agrees p h) : Kept h g m' := by
  intro k v hv
  rcases hw k with heq | ⟨p, hp, hpk⟩
  · rw [heq]
    exact hk k v hv
  rcases hfly p hp with hlater | hagrees
  · exact .inr ⟨p, hlater, hpk⟩
  · exact .inl (hagrees k _ v hpk hv)

end Patch
end Lib
