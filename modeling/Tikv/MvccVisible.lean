import Tikv.MvccKey
/-!
# MvccVisible — what a read at a timestamp sees of the write records

A read at `ts` sees the newest PUT or DELETE at or below `ts`, and nothing of LOCK and Rollback records.  A version whose
gc fence is at or below `ts` counts as deleted.
-/
namespace Tikv
namespace Mvcc

open Lib

def latestData (v : Versions) (ts : Nat) : Option (Nat × Write) := v.find fun e => decide (e.1 ≤ ts) && e.2.isData

def visible (v : Versions) (ts : Nat) : Option (Nat × Write) :=
  (latestData v ts).filter fun e => e.2.writeType = .put && e.2.checkGcFence ts

def readAt (v : Versions) (ts : Nat) : Option (Nat × Nat × Option Bytes) :=
  (visible v ts).map fun e => (e.1, e.2.startTs, e.2.shortValue)

variable {w : Write}

theorem isData_of_put (h : w.writeType = .put) : w.isData = true := by
  unfold Write.isData
  rw [h]
  rfl

variable {v : Versions} {ts commitTs : Nat}

theorem latestData_eq_some :
    latestData v ts = some (commitTs, w) ↔ (commitTs, w) ∈ v.entries ∧ commitTs ≤ ts ∧ w.isData = true ∧
      ∀ e ∈ v.entries, e.1 ≤ ts → e.2.isData = true → e.1 ≤ commitTs := by
  unfold latestData
  rw [Chain.find_eq_some]
  simp [and_assoc]

theorem latestData_congr {v' : Versions} {ts' : Nat}
    (h : ∀ e, e.2.isData = true → (e ∈ v.entries ∧ e.1 ≤ ts ↔ e ∈ v'.entries ∧ e.1 ≤ ts')) :
    latestData v ts = latestData v' ts' := by
  apply Option.ext
  rintro ⟨t, w⟩
  simp only [latestData_eq_some]
  grind

theorem latestData_eq_none :
    latestData v ts = none ↔ ∀ e ∈ v.entries, e.1 ≤ ts → e.2.isData = false := by
  unfold latestData
  rw [Chain.find_eq_none]
  simp

theorem exists_latestData {e : Nat × Write} (he : e ∈ v.entries) (hle : e.1 ≤ ts) (hdata : e.2.isData = true) :
    ∃ d, latestData v ts = some d ∧ e.1 ≤ d.1 := by
  cases hd : latestData v ts with
  | none => exact absurd hdata (Bool.eq_false_iff.1 (latestData_eq_none.1 hd e he hle))
  | some d => exact ⟨d, rfl, (latestData_eq_some.1 hd).2.2.2 e he hle hdata⟩

theorem visible_eq_some : visible v ts = some (commitTs, w) ↔
      latestData v ts = some (commitTs, w) ∧ w.writeType = .put ∧ w.checkGcFence ts = true := by
  unfold visible
  simp

/-! ## Chains that read alike -/

/-- Every PUT and DELETE of `v` is in `v'`, with the same value and not fenced off where it is the latest. -/
def CarriesReads (v v' : Versions) : Prop :=
  ∀ commitTs w, (commitTs, w) ∈ v.entries → w.isData = true →
    ∃ w', (commitTs, w') ∈ v'.entries ∧ w'.writeType = w.writeType ∧ w'.startTs = w.startTs ∧
      w'.shortValue = w.shortValue ∧
      ∀ ts, latestData v ts = some (commitTs, w) → w.checkGcFence ts = true → w'.checkGcFence ts = true

theorem isData_congr {w' : Write} (h : w'.writeType = w.writeType) : w'.isData = w.isData := by
  unfold Write.isData
  rw [h]

variable {v' : Versions}

section

variable (h : CarriesReads v v')
include h

section

variable (h' : CarriesReads v' v)
include h'

theorem CarriesReads.latestData (hlatest : latestData v ts = some (commitTs, w)) :
    ∃ w', Mvcc.latestData v' ts = some (commitTs, w') ∧ w'.writeType = w.writeType ∧ w'.startTs = w.startTs ∧
      w'.shortValue = w.shortValue ∧ (w.checkGcFence ts = true → w'.checkGcFence ts = true) := by
  obtain ⟨hmem, hle, hdata, hmax⟩ := latestData_eq_some.1 hlatest
  obtain ⟨w', hmem', htype, hstart, hshort, hfence⟩ := h commitTs w hmem hdata
  refine ⟨w', latestData_eq_some.2 ⟨hmem', hle, (isData_congr htype).trans hdata, fun e he hets hedata => ?_⟩, htype,
    hstart, hshort, hfence ts hlatest⟩
  obtain ⟨w₁, hmem₁, htype₁, _⟩ := h' e.1 e.2 he hedata
  exact hmax (e.1, w₁) hmem₁ hets ((isData_congr htype₁).trans hedata)

theorem readAt_of_carriesReads {x : Nat × Nat × Option Bytes} (hx : readAt v ts = some x) : readAt v' ts = some x := by
  obtain ⟨⟨commitTs, w⟩, hvis, rfl⟩ := Option.map_eq_some_iff.1 hx
  obtain ⟨hlatest, hput, hfence⟩ := visible_eq_some.1 hvis
  obtain ⟨w', hlatest', htype, hstart, hshort, hfence'⟩ := h.latestData h' hlatest
  refine Option.map_eq_some_iff.2 ⟨(commitTs, w'), visible_eq_some.2 ⟨hlatest', htype.trans hput, hfence' hfence⟩, ?_⟩
  rw [hstart, hshort]

theorem readAt_congr (ts : Nat) :
    readAt v' ts = readAt v ts := by
  apply Option.ext
  intro x
  exact ⟨readAt_of_carriesReads h' h, readAt_of_carriesReads h h'⟩

end

end

end Mvcc
end Tikv
