import Tikv.IngestFlush
import Tikv.LibRun
/-!
# IngestRanges — range deletes and puts through one batcher

A sequence of calls on a batcher means its operations in call order.  `flush` writes the pairs of its window first and
the range deletes after them, so a put that follows a covering range delete within one window is deleted.  The engine
after the last flush is the one of the call order exactly when each such put is covered by a later range delete as well
(`Unshadowed`).
-/
namespace Tikv
namespace Ingest

open List RangeDelete Option

open Lib (Bytes Patch Run stepOf)

inductive Call
  | addKv (kv : MvccKeyValue)
  | addDeleteRange (r : RangeDelete)
  | flush (env : FlushEnv)

def callStep (s : SstBatcher × Engine) : Call → SstBatcher × Engine
  | .addKv kv => (s.1.addKv kv, s.2)
  | .addDeleteRange r => (s.1.addDeleteRange r.startKey r.endKey r.ts, s.2)
  | .flush env => ((s.1.flush env s.2).1, (s.1.flush env s.2).2.1)

def CallOk (s : SstBatcher × Engine) : Call → Prop
  | .flush env => (∃ r, (s.1.flush env s.2).2.2 = .ok r) ∧ ∀ cf, env.deleteRangesCf cf = .ok ()
  | _ => True

def Call.kv? : Call → Option MvccKeyValue
  | addKv kv => some kv
  | _ => none

def Call.range? : Call → Option RangeDelete
  | addDeleteRange r => some r
  | _ => none

def Call.patch? : Call → Option EnginePatch
  | addKv kv => some kv.patch
  | addDeleteRange r => some r.patch
  | flush _ => none

def callKvs (calls : List Call) : List MvccKeyValue := calls.filterMap Call.kv?
def callRanges (calls : List Call) : List RangeDelete := calls.filterMap Call.range?

def inCallOrder (calls : List Call) : EnginePatch := Patch.seqAll (calls.filterMap Call.patch?)

def pendingRanges : List RangeDelete → List Call → List RangeDelete
  | rs, [] => rs
  | rs, .addKv _ :: calls => pendingRanges rs calls
  | rs, .addDeleteRange r :: calls => pendingRanges (rs ++ [r]) calls
  | _, .flush _ :: calls => pendingRanges [] calls

/-- **A put made while a buffered range delete covers its slot is covered by a later one.** -/
def Unshadowed (calls : List Call) : Prop :=
  ∀ pre kv post, calls = pre ++ .addKv kv :: post →
    (∃ r ∈ pendingRanges [] pre, r.covers kv.slot) → ∃ r ∈ callRanges post, r.covers kv.slot

/-! ## What the flushes write -/

/-- The changes in the order the flushes write them, `ks` and `rs` buffered before the calls. -/
def writeOrder : List MvccKeyValue → List RangeDelete → List Call → List EnginePatch
  | _, _, [] => []
  | ks, rs, .addKv kv :: calls => writeOrder (ks ++ [kv]) rs calls
  | ks, rs, .addDeleteRange r :: calls => writeOrder ks (rs ++ [r]) calls
  | ks, rs, .flush _ :: calls =>
    ks.map MvccKeyValue.patch ++ rs.map RangeDelete.patch ++ writeOrder [] [] calls

variable {calls : List Call}

theorem run_writeOrder {s t : SstBatcher × Engine} (h : Run (stepOf callStep) CallOk s calls t) :
    t.2 = (Patch.seqAll (writeOrder s.1.kvBuffer s.1.rangeBuffer calls)).apply s.2 := by
  induction h with
  | nil s => rfl
  | @cons s s' t c calls hok hstep _ ih =>
    rw [ih]
    cases c with
    | addKv kv | addDeleteRange r => rw [hstep]; rfl
    | flush env =>
      obtain ⟨⟨r, hr⟩, hdel⟩ := hok
      have hfl : s.1.flush env s.2 = ((s.1.flush env s.2).1, (s.1.flush env s.2).2.1, .ok r) :=
        Prod.ext rfl (Prod.ext rfl hr)
      obtain ⟨-, he, hk, hrg⟩ := SstBatcher.flush_ok hdel hfl
      rw [hstep, callStep, hk, hrg, he, writeOrder, Patch.seqAll_append, Patch.apply_seq]
      rfl

/-! ## Slot by slot -/

variable {s : Slot}

theorem seqAll_put_none {ks : List MvccKeyValue} (h : ∀ kv ∈ ks, kv.slot ≠ s) :
    Patch.seqAll (ks.map MvccKeyValue.patch) s = none :=
  Patch.seqAll_eq_none.2 (forall_mem_map.2 fun kv hkv => if_neg (h kv hkv).symm)

variable {kv : MvccKeyValue}

theorem seqAll_put_snoc (ks : List MvccKeyValue) (h : kv.slot ≠ s) :
    Patch.seqAll ((ks ++ [kv]).map MvccKeyValue.patch) s = Patch.seqAll (ks.map MvccKeyValue.patch) s := by
  have hkv : Patch.seqAll ([kv].map MvccKeyValue.patch) s = none := seqAll_put_none (by simpa using h)
  rw [map_append, Patch.seqAll_append, Patch.seq, hkv]
  rfl

theorem writeOrder_after {env : FlushEnv} : ∀ (calls : List Call) (ks : List MvccKeyValue)
    (rs : List RangeDelete), (∀ kv ∈ callKvs calls, kv.slot ≠ s) →
    Patch.seqAll (writeOrder ks rs (calls ++ [.flush env])) s =
      (Patch.seqAll ((rs ++ callRanges calls).map patch) s).or (Patch.seqAll (ks.map MvccKeyValue.patch) s)
  | [], ks, rs, _ => by
    rw [nil_append, writeOrder, writeOrder, append_nil, Patch.seqAll_append, callRanges, filterMap_nil, append_nil]
    rfl
  | .addKv kv :: calls, ks, rs, h => by
    obtain ⟨hkv, hcalls⟩ := forall_mem_cons.1 h
    rw [cons_append, writeOrder, writeOrder_after calls (ks ++ [kv]) rs hcalls, seqAll_put_snoc ks hkv]
    rfl
  | .addDeleteRange r :: calls, ks, rs, h => by
    rw [cons_append, writeOrder, writeOrder_after calls ks (rs ++ [r]) h, append_assoc]
    rfl
  | .flush env' :: calls, ks, rs, h => by
    rw [cons_append, writeOrder, Patch.seqAll_append, Patch.seq, writeOrder_after calls [] [] h, nil_append,
      Patch.seqAll_append, map_append, Patch.seqAll_append, Patch.seq]
    show or (or (Patch.seqAll ((callRanges calls).map patch) s) none) _ =
      or (or (Patch.seqAll ((callRanges calls).map patch) s) _) _
    rw [or_none, Option.or_assoc]

variable {post : List Call}

/-- **The only put on a slot is undone by the range deletes of its window, before or after it, and by later ones.** -/
theorem writeOrder_at_put {env : FlushEnv}
    (hpost : ∀ x ∈ callKvs post, x.slot ≠ kv.slot) : ∀ (pre : List Call) (ks : List MvccKeyValue)
    (rs : List RangeDelete), (∀ x ∈ ks, x.slot ≠ kv.slot) → (∀ x ∈ callKvs pre, x.slot ≠ kv.slot) →
    Patch.seqAll (writeOrder ks rs ((pre ++ .addKv kv :: post) ++ [.flush env])) kv.slot =
      (Patch.seqAll ((pendingRanges rs pre ++ callRanges post).map patch) kv.slot).or (some (some kv.value))
  | [], ks, rs, _, _ => by
    have hput : kv.patch kv.slot = some (some kv.value) := if_pos rfl
    have hlast : Patch.seqAll ((ks ++ [kv]).map MvccKeyValue.patch) kv.slot = some (some kv.value) := by
      rw [map_append, map_cons, Patch.seqAll_of_last _ (by rw [hput]; exact some_ne_none _) (by simp), hput]
    rw [nil_append, cons_append, writeOrder, writeOrder_after post (ks ++ [kv]) rs hpost, hlast]
    rfl
  | .addKv x :: pre, ks, rs, hks, h => by
    obtain ⟨hx, hpre⟩ := forall_mem_cons.1 h
    exact writeOrder_at_put hpost pre (ks ++ [x]) rs (forall_mem_append.2 ⟨hks, forall_mem_singleton.2 hx⟩) hpre
  | .addDeleteRange r :: pre, ks, rs, hks, h => writeOrder_at_put hpost pre ks (rs ++ [r]) hks h
  | .flush env' :: pre, ks, rs, _, h => by
    rw [cons_append, cons_append, writeOrder, Patch.seqAll_append, Patch.seq,
      writeOrder_at_put hpost pre [] [] (by simp) h, pendingRanges]
    cases Patch.seqAll ((pendingRanges [] pre ++ callRanges post).map patch) kv.slot <;> rfl

theorem inCallOrder_after : ∀ (calls : List Call), (∀ kv ∈ callKvs calls, kv.slot ≠ s) →
    inCallOrder calls s = Patch.seqAll ((callRanges calls).map patch) s
  | [], _ => rfl
  | .addKv kv :: calls, h => by
    obtain ⟨hkv, hcalls⟩ := forall_mem_cons.1 h
    have hput : kv.patch s = none := if_neg (Ne.symm hkv)
    show or (inCallOrder calls s) (kv.patch s) = _
    rw [inCallOrder_after calls hcalls, hput, or_none]
    rfl
  | .addDeleteRange r :: calls, h => by
    show or (inCallOrder calls s) (r.patch s) = _
    rw [inCallOrder_after calls h]
    rfl
  | .flush _ :: calls, h => inCallOrder_after calls h

theorem inCallOrder_at_put (pre : List Call)
    (hpost : ∀ x ∈ callKvs post, x.slot ≠ kv.slot) : inCallOrder (pre ++ .addKv kv :: post) kv.slot =
      (Patch.seqAll ((callRanges post).map patch) kv.slot).or (some (some kv.value)) := by
  have hput : kv.patch kv.slot = some (some kv.value) := if_pos rfl
  unfold inCallOrder
  rw [filterMap_append, Patch.seqAll_append]
  show or (or (inCallOrder post kv.slot) (kv.patch kv.slot)) _ = _
  rw [inCallOrder_after post hpost, hput]
  cases Patch.seqAll ((callRanges post).map patch) kv.slot <;> rfl

theorem seqAll_ranges : ∀ (rs : List RangeDelete), Patch.seqAll (rs.map patch) s =
    bif rs.any (fun r => r.covers s) then some none else none
  | [] => rfl
  | r :: rs => by
    show or (Patch.seqAll (rs.map patch) s) (bif r.covers s then some none else none) = _
    rw [seqAll_ranges rs, any_cons]
    cases r.covers s <;> cases rs.any (fun r => r.covers s) <;> rfl

/-! ## The whole sequence -/

theorem exists_split_of_mem_callKvs (h : kv ∈ callKvs calls) :
    ∃ pre post, calls = pre ++ .addKv kv :: post := by
  obtain ⟨c, hc, hkv⟩ := mem_filterMap.1 h
  obtain ⟨pre, post, hsplit⟩ := append_of_mem hc
  cases c with
  | addKv x => cases hkv; exact ⟨pre, post, hsplit⟩
  | addDeleteRange r | flush env => cases hkv

theorem slots_of_nodup {pre : List Call} (h : ((callKvs (pre ++ .addKv kv :: post)).map MvccKeyValue.slot).Nodup) :
    (∀ x ∈ callKvs pre, x.slot ≠ kv.slot) ∧ ∀ x ∈ callKvs post, x.slot ≠ kv.slot := by
  unfold callKvs at h
  rw [filterMap_append, filterMap_cons, map_append, nodup_append'] at h
  refine ⟨fun x hx heq => ?_, fun x hx heq => ?_⟩
  · exact h.2.2 (mem_map_of_mem hx) (heq ▸ mem_cons_self)
  · exact (nodup_cons.1 h.2.1).1 (heq ▸ mem_map_of_mem hx)

/-- **Calls that end with a flush, their flushes successful and their pairs of distinct slots, leave the engine of the
call order exactly when no put is shadowed** by a range delete of its window. -/
theorem flushed_eq_inCallOrder_iff {maxKvBufferSize maxRangeBufferSize now : Nat} {e e' : Engine} {b' : SstBatcher}
    {calls : List Call} {env : FlushEnv} (hnd : ((callKvs calls).map MvccKeyValue.slot).Nodup)
    (hrun : Run (stepOf callStep) CallOk (SstBatcher.new maxKvBufferSize maxRangeBufferSize now, e)
      (calls ++ [.flush env]) (b', e')) :
    e' = (inCallOrder calls).apply e ↔ Unshadowed calls := by
  have he' : e' = (Patch.seqAll (writeOrder [] [] (calls ++ [.flush env]))).apply e := run_writeOrder hrun
  constructor
  · intro heq pre kv post hsplit hpend
    obtain ⟨hpre, hpost⟩ := slots_of_nodup (hsplit ▸ hnd)
    by_contra hno
    have hlater : (callRanges post).any (fun r => r.covers kv.slot) = false :=
      any_eq_false.2 fun r hr hcov => hno ⟨r, hr, hcov⟩
    have hwindow : (pendingRanges [] pre ++ callRanges post).any (fun r => r.covers kv.slot) = true := by
      rw [any_append, any_eq_true.2 hpend, Bool.true_or]
    have hval := congrFun (he'.symm.trans heq) kv.slot
    unfold Patch.apply at hval
    rw [hsplit, writeOrder_at_put hpost pre [] [] (by simp) hpre, inCallOrder_at_put pre hpost, seqAll_ranges,
      seqAll_ranges, hlater, hwindow] at hval
    cases hval
  · intro hun
    rw [he']
    funext s
    unfold Patch.apply
    congr 1
    by_cases hs : ∃ kv ∈ callKvs calls, kv.slot = s
    · obtain ⟨kv, hkv, rfl⟩ := hs
      obtain ⟨pre, post, hsplit⟩ := exists_split_of_mem_callKvs hkv
      obtain ⟨hpre, hpost⟩ := slots_of_nodup (hsplit ▸ hnd)
      have hcov := hun pre kv post hsplit
      rw [hsplit, writeOrder_at_put hpost pre [] [] (by simp) hpre, inCallOrder_at_put pre hpost, seqAll_ranges,
        seqAll_ranges, any_append]
      cases hpend : (pendingRanges [] pre).any (fun r => r.covers kv.slot) with
      | false => rfl
      | true => rw [any_eq_true.2 (hcov (any_eq_true.1 hpend))]; rfl
    · have hno : ∀ kv ∈ callKvs calls, kv.slot ≠ s := fun kv hkv heq => hs ⟨kv, hkv, heq⟩
      rw [writeOrder_after calls [] [] hno, inCallOrder_after calls hno]
      exact or_none

def insertNextWindow : List Call :=
  [.addDeleteRange ⟨[97], [98], 7⟩, .flush (.ideal 1), .addKv ⟨[97, 1], [5], .write⟩]

theorem flushed_eq_inCallOrder_next_window :
    ((insertNextWindow ++ [Call.flush (.ideal 2)]).foldl callStep (SstBatcher.new 64 64 0, fun _ => some [0])).2 =
      (inCallOrder insertNextWindow).apply (fun _ => some [0]) ↔ Unshadowed insertNextWindow :=
  flushed_eq_inCallOrder_iff (nodup_singleton _)
    (.cons trivial rfl (.cons ⟨⟨_, rfl⟩, fun _ => rfl⟩ rfl (.cons trivial rfl
      (.cons ⟨⟨_, rfl⟩, fun _ => rfl⟩ rfl (.nil _)))))

def insertSameWindow : List Call := [.addDeleteRange ⟨[97], [98], 7⟩, .addKv ⟨[97, 1], [5], .write⟩]

/-- **The insert is lost**, though its slot is distinct and every call succeeds. -/
theorem flushed_ne_inCallOrder_same_window : ∃ b' e',
    Run (stepOf callStep) CallOk (SstBatcher.new 64 64 0, fun _ => none) (insertSameWindow ++ [.flush (.ideal 1)])
      (b', e') ∧
    ((callKvs insertSameWindow).map MvccKeyValue.slot).Nodup ∧
    e' ≠ (inCallOrder insertSameWindow).apply (fun _ => none) := by
  refine ⟨_, _, .cons trivial rfl (.cons trivial rfl (.cons ⟨⟨_, rfl⟩, fun _ => rfl⟩ rfl (.nil _))),
    nodup_singleton _, fun heq => ?_⟩
  have hslot := congrFun heq (.write, [97, 1])
  revert hslot
  decide

end Ingest
end Tikv
