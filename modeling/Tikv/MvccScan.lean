import Tikv.MvccBackward
import Tikv.MvccForward
/-!
# MvccScan — the scanners and the point getter read the same data

Over a snapshot with consistent records a forward scan, a backward scan and a point get of each user key all come down to
`readKey`, so under snapshot isolation their lists agree (`scans_agree`).
-/
namespace Tikv
namespace Mvcc

open Lib

def pointGets (cfg : ReadConfig) : NewerTsCheckState → UserKeys → List (Bytes × Except ReadError Bytes)
  | _, [] => []
  | newer, (key, k) :: ks =>
    (output key (pointGet cfg newer key k).1).toList ++ pointGets cfg (pointGet cfg newer key k).2 ks

theorem pointGets_eq {cfg : ReadConfig} (hiso : cfg.isolationLevel ≠ .rcCheckTs) :
    ∀ {ks : UserKeys}, (∀ x ∈ ks, Consistent x.2) → ∀ newer : NewerTsCheckState,
      pointGets cfg newer ks = ks.filterMap fun x => output x.1 (readKey cfg x.1 x.2)
  | [], _, _ => rfl
  | (key, k) :: ks, hks, newer => by
    have hrest := pointGets_eq hiso (fun x hx => hks x (List.mem_cons_of_mem _ hx)) (pointGet cfg newer key k).2
    rw [pointGets, pointGet_eq_readKey (hks _ List.mem_cons_self) hiso, hrest, List.filterMap_cons]
    cases output key (readKey cfg key k) <;> rfl

/-- **Forward scan, backward scan and point get read the same data.** -/
theorem scans_agree {cfg : ReadConfig} (hiso : cfg.isolationLevel = .si) (newer newer' : NewerTsCheckState) {s : Snapshot}
    (hs : ∀ x ∈ s.keys, Consistent x.2) (lower upper : Option Bytes) {n : Nat}
    (hn : (s.range lower upper).length ≤ n) :
    forwardScan cfg s lower upper n = (backwardScan cfg newer s lower upper n).reverse ∧
      forwardScan cfg s lower upper n = pointGets cfg newer' (s.range lower upper) := by
  have hne : cfg.isolationLevel ≠ .rcCheckTs := by rw [hiso]; decide
  have hrange : ∀ x ∈ s.range lower upper, Consistent x.2 := fun x hx => hs x (List.mem_of_mem_filter hx)
  rw [forwardScan_eq hne hs hn, backwardScan_eq hne hs newer hn, pointGets_eq hne hrange, List.reverse_reverse]
  exact ⟨rfl, rfl⟩

def readAtTen : ReadConfig := ⟨10, .si, false, [], []⟩

def lockedKey : KeyState :=
  ⟨some (.new .put [1] 7 3000 none 0 1 0 false), Chain.empty.insert 5 (.new .put 4 (some [5])), ∅⟩

def lockPastTwo : Write := ⟨.lock, 6, none, false, none, .exist 2 8, 0⟩

def skippedKey : KeyState :=
  ⟨none, (Chain.empty.insert 2 (.new .put 1 none)).insert 7 lockPastTwo, AList.insert 1 [2, 2] ∅⟩

theorem ascending_twoKeys : Ascending [([1], lockedKey), ([2], skippedKey)] := by
  unfold Ascending
  decide

def twoKeys : Snapshot := ⟨_, ascending_twoKeys⟩

theorem consistent_lockedKey : Consistent lockedKey := by
  have hdata : ∀ e ∈ lockedKey.writes.entries, e.2.isData = true := by decide
  have hshort : ∀ e ∈ lockedKey.writes.entries, e.2.shortValue ≠ none := by decide
  exact {
    commitTs_pos := by decide
    value := fun e he _ hnone => absurd hnone (hshort e he)
    exist := fun e he hno => absurd (hdata e he) (Bool.eq_false_iff.1 hno)
    notExist := fun e he hno => absurd (hdata e he) (Bool.eq_false_iff.1 hno)
    gcFence := fun e he hno => absurd (hdata e he) (Bool.eq_false_iff.1 hno) }

theorem consistent_skippedKey : Consistent skippedKey := by
  have hlock : ∀ e ∈ skippedKey.writes.entries, e.2.isData = false → e = (7, lockPastTwo) := by decide
  have hput : ∀ e ∈ skippedKey.writes.entries, e.2.writeType = .put → e = (2, .new .put 1 none) := by decide
  refine ⟨by decide, ?_, ?_, ?_, ?_⟩
  · intro e he htype _
    obtain rfl := hput e he htype
    exact ⟨[2, 2], rfl⟩
  · intro e he hno t n hlast
    obtain rfl := hlock e he hno
    cases hlast
    exact ⟨by decide, .inl ⟨.new .put 1 none, by decide, rfl, by decide⟩⟩
  · intro e he hno hlast
    obtain rfl := hlock e he hno
    cases hlast
  · intro e he hno f hf
    obtain rfl := hlock e he hno
    cases hf

theorem scans_agree_twoKeys : forwardScan readAtTen twoKeys none none 2 =
    [([1], .error (.keyIsLocked (.new .put [1] 7 3000 none 0 1 0 false))), ([2], .ok [2, 2])] ∧
    forwardScan readAtTen twoKeys none none 2 = (backwardScan readAtTen .notMetYet twoKeys none none 2).reverse ∧
    forwardScan readAtTen twoKeys none none 2 = pointGets readAtTen .unknown (twoKeys.range none none) := by
  refine ⟨by decide, scans_agree rfl .notMetYet .unknown ?_ none none (by decide)⟩
  exact List.forall_mem_cons.2 ⟨consistent_lockedKey, List.forall_mem_singleton.2 consistent_skippedKey⟩

end Mvcc
end Tikv
