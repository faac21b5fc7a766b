import Tikv.ResolvedTsResolver
/-!
# StorageTxnStatus — the transaction status cache (`txn_status_cache.rs`)

A transaction has an entry in the normal cache, in the large one, or in both, and `get` looks into the large one first.  Only
an `Ongoing` state with a useful `min_commit_ts` makes an entry in the large cache, and it does so without a look into the
normal one: after a final state there, it hides it.  An `Ongoing` state without one takes the place of a larger one.  What
`get` answers never goes back exactly where neither comes up (`gets_neverBack_iff`).

`none` is a failed assertion of the source.  Entries are never evicted here, so the times at which they are updated play no
part.
-/
namespace Tikv
namespace Resolve

open Lib

structure StatusCache where
  isEnabled : Bool
  normalCache : Map Nat TxnState
  largeTxnCache : Map Nat TxnState

/-- "don't update committed or rolled back txns" -/
def TxnState.updateBy (state : TxnState) : TxnState → Option TxnState
  | .ongoing minCommitTs =>
    match state with
    | .committed commitTs => if minCommitTs ≤ commitTs then some state else none
    | _ => some state
  | existing => some existing

/-- The normal cache path: what the two caches have of the transaction afterwards. -/
def upsertNormal (large normal : Option TxnState) (state : TxnState) : Option (Option TxnState × Option TxnState) := do
  let normal ← match normal with
    | none => some state
    | some existing => state.updateBy existing
  let large ← match large with
    | none => some none
    | some existing => (state.updateBy existing).map some
  some (large, some normal)

def upsertEntries (startTs : Nat) (large normal : Option TxnState) :
    TxnState → Option (Option TxnState × Option TxnState)
  | .ongoing minCommitTs =>
    if startTs < minCommitTs then
      match large with
      | none => some (some (.ongoing minCommitTs), normal)
      | some (.ongoing existing) => some (some (.ongoing (if existing < minCommitTs then minCommitTs else existing)), normal)
      | some existing => some (some existing, normal)
    else upsertNormal large normal (.ongoing minCommitTs)
  | state => upsertNormal large normal state

namespace StatusCache

def new (isEnabled : Bool) : StatusCache := ⟨isEnabled, ∅, ∅⟩

def upsert (c : StatusCache) (startTs : Nat) (state : TxnState) : Option StatusCache :=
  if c.isEnabled then
    (upsertEntries startTs (c.largeTxnCache.lookup startTs) (c.normalCache.lookup startTs) state).map fun entries =>
      { c with
        largeTxnCache := Map.setAt startTs entries.1 c.largeTxnCache
        normalCache := Map.setAt startTs entries.2 c.normalCache }
  else some c

def get (c : StatusCache) (startTs : Nat) : Option TxnState :=
  if c.isEnabled then (c.largeTxnCache.lookup startTs).or (c.normalCache.lookup startTs) else none

def gets (c : StatusCache) (startTs : Nat) : List TxnState → Option (List (Option TxnState))
  | [] => some [c.get startTs]
  | state :: states => (c.upsert startTs state).bind fun c' => (c'.gets startTs states).map (c.get startTs :: ·)

end StatusCache

def NotBack : Option TxnState → Option TxnState → Bool
  | none, _ => true
  | some (.ongoing m), some (.ongoing m') => decide (m ≤ m')
  | some (.ongoing _), none => false
  | some (.ongoing _), some _ => true
  | some final, later => decide (later = some final)

def TrueOf (outcome : Option TxnState) : TxnState → Prop
  | .ongoing minCommitTs => ∀ commitTs, outcome = some (.committed commitTs) → minCommitTs ≤ commitTs
  | final => outcome = some final

/-- **The upsert does not come too late**: an `Ongoing` state with a `min_commit_ts` above the start timestamp finds an entry
in the large cache, or nothing that is ahead of it in the normal one; another `Ongoing` state finds no larger one. -/
def InTime (startTs : Nat) (large normal : Option TxnState) : TxnState → Prop
  | .ongoing m =>
    if startTs < m then large = none → NotBack normal (some (.ongoing m)) = true
    else ∀ m', large.or normal = some (.ongoing m') → m' ≤ m
  | _ => True

def StatusCache.AllInTime (startTs : Nat) : StatusCache → List TxnState → Prop
  | _, [] => True
  | c, state :: states =>
    (c.isEnabled = true → InTime startTs (c.largeTxnCache.lookup startTs) (c.normalCache.lookup startTs) state) ∧
      ∀ c', c.upsert startTs state = some c' → c'.AllInTime startTs states

instance instTransNotBack : IsTrans (Option TxnState) fun a b => NotBack a b = true where
  trans a b c := by
    rcases a with _ | (m | _ | _) <;> rcases b with _ | (m' | _ | _) <;> rcases c with _ | (_ | _ | _) <;>
      simp_all [NotBack]
    omega

/-! ## One upsert -/

def TxnState.over (state : TxnState) : TxnState → TxnState
  | .ongoing _ => state
  | existing => existing

section

variable {startTs : Nat} {outcome large normal : Option TxnState} {state existing : TxnState}

theorem updateBy_of_true (he : TrueOf outcome existing) (hs : TrueOf outcome state) :
    state.updateBy existing = some (state.over existing) := by
  rcases existing with m | _ | _
  · rcases state with _ | c | _
    · rfl
    · exact if_pos (he c hs)
    · rfl
  · rfl
  · rfl

theorem over_of_true (he : TrueOf outcome existing) (hs : TrueOf outcome state) : TrueOf outcome (state.over existing) := by
  cases existing <;> assumption

section

variable (hlarge : ∀ e ∈ large, TrueOf outcome e)
include hlarge

section

variable (hnormal : ∀ e ∈ normal, TrueOf outcome e)
include hnormal

theorem upsertNormal_of_true (hs : TrueOf outcome state) :
    upsertNormal large normal state = some (large.map state.over, some (normal.elim state state.over)) := by
  have hup : ∀ e, TrueOf outcome e → state.updateBy e = some (state.over e) := fun e he => updateBy_of_true he hs
  unfold upsertNormal
  cases large <;> cases normal <;> simp_all

theorem upsertEntries_of_true (hs : TrueOf outcome state) : ∃ r, upsertEntries startTs large normal state = some r ∧
      (∀ e ∈ r.1, TrueOf outcome e) ∧ (∀ e ∈ r.2, TrueOf outcome e) ∧
      (NotBack (large.or normal) (r.1.or r.2) = true ↔ InTime startTs large normal state) := by
  by_cases hpath : ∃ m, state = .ongoing m ∧ startTs < m
  · obtain ⟨m, rfl, hlt⟩ := hpath
    rcases large with _ | (existing | _ | _)
    · exact ⟨_, if_pos hlt, by simpa using hs, hnormal, by simp [InTime, hlt]⟩
    · refine ⟨_, if_pos hlt, ?_, hnormal, ?_⟩
      · have he := hlarge _ rfl
        split <;> simpa
      · have hle : existing ≤ if existing < m then m else existing := by split <;> omega
        simp [InTime, hlt, NotBack, hle]
    all_goals exact ⟨_, if_pos hlt, hlarge, hnormal, by simp [InTime, NotBack]⟩
  · have hentries : upsertEntries startTs large normal state = upsertNormal large normal state := by
      cases state with
      | ongoing m => exact if_neg fun hlt => hpath ⟨m, rfl, hlt⟩
      | _ => rfl
    refine ⟨_, hentries.trans (upsertNormal_of_true hlarge hnormal hs), ?_, ?_, ?_⟩
    · rintro e he
      obtain ⟨x, hx, rfl⟩ := Option.map_eq_some_iff.1 he
      exact over_of_true (hlarge x hx) hs
    · rintro e ⟨⟩
      cases normal with
      | none => exact hs
      | some x => exact over_of_true (hnormal x rfl) hs
    · cases state with
      | ongoing m =>
        have hle : ¬ startTs < m := fun hlt => hpath ⟨m, rfl, hlt⟩
        rcases large with _ | (_ | _ | _) <;> rcases normal with _ | (_ | _ | _) <;>
          simp [InTime, hle, NotBack, TxnState.over]
      | _ =>
        rcases large with _ | (_ | _ | _) <;> rcases normal with _ | (_ | _ | _) <;> simp [InTime, NotBack, TxnState.over]

end

end

end

/-! ## Runs -/

namespace StatusCache

variable {c : StatusCache} {startTs : Nat} {outcome : Option TxnState}

def Truthful (c : StatusCache) (startTs : Nat) (outcome : Option TxnState) : Prop :=
  (∀ e ∈ c.largeTxnCache.lookup startTs, TrueOf outcome e) ∧ ∀ e ∈ c.normalCache.lookup startTs, TrueOf outcome e

theorem upsert_of_true {state : TxnState} (hc : c.Truthful startTs outcome) (hs : TrueOf outcome state) :
    ∃ c', c.upsert startTs state = some c' ∧ c'.Truthful startTs outcome ∧
      (NotBack (c.get startTs) (c'.get startTs) = true ↔ (c.isEnabled = true →
        InTime startTs (c.largeTxnCache.lookup startTs) (c.normalCache.lookup startTs) state)) := by
  unfold upsert get
  cases hen : c.isEnabled with
  | false => exact ⟨c, rfl, hc, by simp [NotBack]⟩
  | true =>
    obtain ⟨r, hr, hlarge, hnormal, hiff⟩ := @upsertEntries_of_true startTs _ _ _ _ hc.1 hc.2 hs
    refine ⟨_, by rw [hr]; rfl, ⟨?_, ?_⟩, ?_⟩
    · simpa [Map.lookup_setAt] using hlarge
    · simpa [Map.lookup_setAt] using hnormal
    · simpa [Map.lookup_setAt] using hiff

theorem gets_of_true : ∀ {states : List TxnState} {c : StatusCache}, c.Truthful startTs outcome →
    (∀ state ∈ states, TrueOf outcome state) → ∃ answers, c.gets startTs states = some answers ∧
      answers.head? = some (c.get startTs) ∧
      (answers.IsChain (fun a b => NotBack a b = true) ↔ c.AllInTime startTs states)
  | [], c, _, _ => ⟨_, rfl, rfl, by simp [AllInTime]⟩
  | state :: states, c, hc, hs => by
    obtain ⟨c', hup, hc', hstep⟩ := upsert_of_true hc (hs state List.mem_cons_self)
    obtain ⟨answers, hgets, hhead, hiff⟩ := gets_of_true hc' fun st hst => hs st (List.mem_cons_of_mem _ hst)
    obtain ⟨rest, rfl⟩ := List.head?_eq_some_iff.1 hhead
    refine ⟨c.get startTs :: c'.get startTs :: rest, by rw [gets, hup]; simp [hgets], rfl, ?_⟩
    rw [List.isChain_cons_cons, hstep, hiff, AllInTime, hup]
    simp

/-- **The answers of `get` never go back exactly when every upsert is in time**, whatever true states of one transaction are
upserted into a new cache. -/
theorem gets_neverBack_iff (isEnabled : Bool) {states : List TxnState} (h : ∀ state ∈ states, TrueOf outcome state) :
    ∃ answers, (new isEnabled).gets startTs states = some answers ∧
      (answers.Pairwise (fun a b => NotBack a b = true) ↔ (new isEnabled).AllInTime startTs states) := by
  have hnew : (new isEnabled).Truthful startTs outcome := ⟨nofun, nofun⟩
  obtain ⟨answers, hgets, -, hiff⟩ := gets_of_true hnew h
  exact ⟨answers, hgets, List.isChain_iff_pairwise.symm.trans hiff⟩

theorem gets_neverBack_largeThenCommitted :
    (new true).gets 10 [.ongoing 15, .ongoing 18, .committed 20] =
      some [none, some (.ongoing 15), some (.ongoing 18), some (.committed 20)] ∧
    (new true).AllInTime 10 [.ongoing 15, .ongoing 18, .committed 20] := by
  have h : ∀ state ∈ [.ongoing 15, .ongoing 18, .committed 20], TrueOf (some (.committed 20)) state := by simp [TrueOf]
  obtain ⟨answers, hgets, hiff⟩ := @gets_neverBack_iff 10 _ true _ h
  have hanswers : (new true).gets 10 [.ongoing 15, .ongoing 18, .committed 20] =
      some [none, some (.ongoing 15), some (.ongoing 18), some (.committed 20)] := by decide
  cases hgets.symm.trans hanswers
  exact ⟨hanswers, hiff.1 (by decide)⟩

/-- **A final answer goes back to `Ongoing`**, and a `min_commit_ts` goes down. -/
theorem gets_goBack : (new true).gets 10 [.committed 20, .ongoing 15] =
      some [none, some (.committed 20), some (.ongoing 15)] ∧
    (new true).gets 10 [.ongoing 15, .ongoing 10] = some [none, some (.ongoing 15), some (.ongoing 10)] := by
  decide

end StatusCache
end Resolve
end Tikv
