import Tikv.IngestSstBatcher
import Mathlib.Data.List.Induction
import Mathlib.Data.List.TakeWhile
/-!
# IngestFlush — what a flush does to the engine

A flush that succeeds applies the buffered pairs and then the buffered range deletes (`SstBatcher.flush_ok`): the order
the groups are walked in and the sorting inside a group are not seen, because no slot is buffered twice.  Where every
call outside works, it succeeds exactly then (`SstBatcher.flush_of_works`); a slot buffered twice keeps its whole column
family out of the engine (`SstBatcher.flush_of_repeat`).
-/
namespace Tikv
namespace Ingest

open List MvccKeyValue

open Lib (Bytes Patch)

/-! ## What a group holds -/

def MvccKeyValue.slot (kv : MvccKeyValue) : Slot := (kv.cf, kv.key)

def MvccKeyValue.patch (kv : MvccKeyValue) : EnginePatch := Patch.put kv.slot kv.value

variable (kv : MvccKeyValue)

theorem pushGroup_perm : ∀ gs : List CfGroup,
    ((pushGroup kv gs).flatMap Prod.snd).Perm (gs.flatMap Prod.snd ++ [kv])
  | [] => by simp [pushGroup]
  | (cf, kvs) :: gs => by
    unfold pushGroup
    split
    · simp only [flatMap_cons, append_assoc]
      exact List.Perm.append_left kvs perm_append_comm
    simp only [flatMap_cons, append_assoc]
    exact List.Perm.append_left kvs (pushGroup_perm gs)

theorem pushGroup_cf : ∀ {gs : List CfGroup}, (∀ g ∈ gs, ∀ x ∈ g.2, x.cf = g.1) →
    ∀ g ∈ pushGroup kv gs, ∀ x ∈ g.2, x.cf = g.1
  | [], _ => by simp [pushGroup]
  | (cf, kvs) :: gs, h => by
    obtain ⟨hhd, htl⟩ := forall_mem_cons.1 h
    unfold pushGroup
    split
    · rename_i hcf
      exact forall_mem_cons.2 ⟨forall_mem_append.2 ⟨hhd, forall_mem_singleton.2 hcf.symm⟩, htl⟩
    · exact forall_mem_cons.2 ⟨hhd, pushGroup_cf htl⟩

variable {cf : Cf}

theorem mem_pushGroup_fst : ∀ {gs : List CfGroup},
    cf ∈ (pushGroup kv gs).map Prod.fst → cf = kv.cf ∨ cf ∈ gs.map Prod.fst
  | [], h => .inl (mem_singleton.1 h)
  | (c, kvs) :: gs, h => by
    unfold pushGroup at h
    split at h
    · exact .inr h
    rcases mem_cons.1 h with rfl | h
    · exact .inr mem_cons_self
    · exact (mem_pushGroup_fst h).imp_right (mem_cons_of_mem c)

theorem pushGroup_nodup : ∀ {gs : List CfGroup}, (gs.map Prod.fst).Nodup →
    ((pushGroup kv gs).map Prod.fst).Nodup
  | [], _ => nodup_singleton _
  | (c, kvs) :: gs, h => by
    obtain ⟨hc, hgs⟩ := nodup_cons.1 h
    unfold pushGroup
    split
    · exact h
    rename_i hne
    refine nodup_cons.2 ⟨fun hmem => ?_, pushGroup_nodup hgs⟩
    rcases mem_pushGroup_fst kv hmem with hk | hk
    · exact hne hk
    · exact hc hk

theorem pushGroup_ne_nil : ∀ {gs : List CfGroup}, (∀ g ∈ gs, g.2 ≠ []) → ∀ g ∈ pushGroup kv gs, g.2 ≠ []
  | [], _ => by simp [pushGroup]
  | (cf, kvs) :: gs, h => by
    obtain ⟨hhd, htl⟩ := forall_mem_cons.1 h
    unfold pushGroup
    split
    · exact forall_mem_cons.2 ⟨by simp, htl⟩
    · exact forall_mem_cons.2 ⟨hhd, pushGroup_ne_nil htl⟩

variable (env : FlushEnv) (kvs : List MvccKeyValue)

theorem groupByCf_spec : ((groupByCf kvs).flatMap Prod.snd).Perm kvs ∧ (∀ g ∈ groupByCf kvs, ∀ x ∈ g.2, x.cf = g.1) ∧
      ((groupByCf kvs).map Prod.fst).Nodup ∧ ∀ g ∈ groupByCf kvs, g.2 ≠ [] := by
  induction kvs using List.reverseRecOn with
  | nil => simp [groupByCf]
  | append_singleton l kv ih =>
    obtain ⟨hperm, hcf, hnd, hne⟩ := ih
    have hpush : groupByCf (l ++ [kv]) = pushGroup kv (groupByCf l) := foldl_append
    rw [hpush]
    exact ⟨(pushGroup_perm kv _).trans (hperm.append_right [kv]), pushGroup_cf kv hcf, pushGroup_nodup kv hnd,
      pushGroup_ne_nil kv hne⟩

/-- **A list of groups as `flush` walks it**: of one column family each, no family twice. -/
structure Grouped (gs : List CfGroup) : Prop where
  cf : ∀ g ∈ gs, ∀ x ∈ g.2, x.cf = g.1
  nodup : (gs.map Prod.fst).Nodup

theorem order_groupByCf_grouped : Grouped (env.order (groupByCf kvs)) := by
  obtain ⟨-, hcf, hnd, -⟩ := groupByCf_spec kvs
  have hp := env.order_perm (groupByCf kvs)
  exact ⟨fun g hg => hcf g (hp.mem_iff.1 hg), (hp.map Prod.fst).nodup_iff.2 hnd⟩

theorem order_groupByCf_perm : ((env.order (groupByCf kvs)).flatMap Prod.snd).Perm kvs :=
  ((env.order_perm (groupByCf kvs)).flatMap_right Prod.snd).trans (groupByCf_spec kvs).1

theorem order_groupByCf_ne_nil : ∀ g ∈ env.order (groupByCf kvs), g.2 ≠ [] :=
  fun g hg => (groupByCf_spec kvs).2.2.2 g ((env.order_perm _).mem_iff.1 hg)

variable {g : CfGroup}

theorem Grouped.tail {gs : List CfGroup} (h : Grouped (g :: gs)) : Grouped gs :=
  ⟨fun x hx => h.cf x (mem_cons_of_mem g hx), (nodup_cons.1 h.nodup).2⟩

theorem group_map_slot (h : ∀ x ∈ g.2, x.cf = g.1) :
    g.2.map slot = (g.2.map key).map (fun k => (g.1, k)) := by
  rw [map_map]
  refine map_congr_left fun x hx => ?_
  rw [slot, h x hx]
  rfl

theorem group_nodup_iff (h : ∀ x ∈ g.2, x.cf = g.1) :
    (g.2.map slot).Nodup ↔ (g.2.map key).Nodup := by
  rw [group_map_slot h]
  exact nodup_map_iff fun a b hab => (Prod.mk.injEq .. ▸ hab).2

theorem Grouped.nodup_slots_iff : ∀ {gs : List CfGroup}, Grouped gs →
    (((gs.flatMap Prod.snd).map slot).Nodup ↔ ∀ g ∈ gs, (g.2.map key).Nodup)
  | [], _ => by simp
  | g :: gs, h => by
    have hg := h.cf g mem_cons_self
    rw [flatMap_cons, map_append, nodup_append', group_nodup_iff hg, h.tail.nodup_slots_iff, forall_mem_cons]
    refine ⟨fun hh => ⟨hh.1, hh.2.1⟩, fun hh => ⟨hh.1, hh.2, fun s hs hs' => ?_⟩⟩
    -- a slot of both would give a later group the family of this one
    obtain ⟨x, hx, rfl⟩ := mem_map.1 hs
    obtain ⟨y, hy, hxy⟩ := mem_map.1 hs'
    obtain ⟨g', hg', hy'⟩ := mem_flatMap.1 hy
    have hcf : g'.1 = g.1 := by
      rw [← h.cf g' (mem_cons_of_mem g hg') y hy', ← hg x hx]
      exact congrArg Prod.fst hxy
    exact (nodup_cons.1 h.nodup).1 (hcf ▸ mem_map_of_mem hg')


/-! ## What ingesting a group does -/

/-- Every call of the flush is answered: RocksDB, the file system and PD work. -/
structure FlushEnv.Works (env : FlushEnv) : Prop where
  build : ∀ cf, env.build cf = .ok ()
  put : ∀ cf, env.put cf = .ok ()
  finishRead : ∀ cf, env.finishRead cf = .ok ()
  readToEnd : ∀ cf, env.readToEnd cf = .ok ()
  getRegionInfo : ∀ k, ∃ regionId, env.getRegionInfo k = .ok regionId
  fsWrite : ∀ cf, env.fsWrite cf = .ok ()
  ingestExternalFileCf : ∀ cf, env.ingestExternalFileCf cf = .ok ()
  deleteRangesCf : ∀ cf, env.deleteRangesCf cf = .ok ()

def FlushEnv.ideal (now : Nat) : FlushEnv where
  order := id
  order_perm := List.Perm.refl
  now := now
  build _ := .ok ()
  put _ := .ok ()
  outOfOrder := "keys must be added in strict ascending order"
  finishRead _ := .ok ()
  readToEnd _ := .ok ()
  fileSize _ := 1
  fileSize_pos _ := Nat.one_pos
  getRegionInfo _ := .ok 1
  fsWrite _ := .ok ()
  ingestExternalFileCf _ := .ok ()
  deleteRangesCf _ := .ok ()

theorem FlushEnv.ideal_works (now : Nat) : (FlushEnv.ideal now).Works :=
  ⟨fun _ => rfl, fun _ => rfl, fun _ => rfl, fun _ => rfl, fun _ => ⟨1, rfl⟩, fun _ => rfl, fun _ => rfl, fun _ => rfl⟩

theorem sortByKey_perm : (sortByKey kvs).Perm kvs := perm_insertionSort _ kvs

theorem sortByKey_pairwise : (sortByKey kvs).Pairwise (fun a b => a.key ≤ b.key) := by
  exact pairwise_insertionSort _ kvs

theorem putAll_eq_ok (cf : Cf) : ∀ (kvs : List MvccKeyValue) (last : Option Bytes),
    putAll env cf last kvs = .ok () ↔
      (kvs ≠ [] → env.put cf = .ok ()) ∧ (last.toList ++ kvs.map key).Pairwise (· < ·)
  | [], last => by cases last <;> simp [putAll]
  | kv :: kvs, last => by
    have hlast : (last.toList ++ kv.key :: kvs.map key).Pairwise (· < ·) ↔
        last.all (fun k => decide (k < kv.key)) = true ∧ (kv.key :: kvs.map key).Pairwise (· < ·) := by
      cases last with
      | none => simp
      | some k =>
        simp only [Option.all_some, decide_eq_true_eq]
        refine ⟨fun h => ⟨rel_of_pairwise_cons h mem_cons_self, (pairwise_cons.1 h).2⟩, fun ⟨hk, h⟩ => ?_⟩
        exact pairwise_cons.2 ⟨forall_mem_cons.2 ⟨hk, fun x hx => hk.trans (rel_of_pairwise_cons h hx)⟩, h⟩
    unfold putAll
    rw [map_cons, hlast]
    split
    · rename_i hl
      cases hput : env.put cf with
      | error e => simp
      | ok u => simp [hl, putAll_eq_ok cf kvs, hput]
    · rename_i hl
      simp [hl]

theorem sorted_lt_iff_nodup : ((sortByKey kvs).map key).Pairwise (· < ·) ↔ (kvs.map key).Nodup := by
  have hp : ((sortByKey kvs).map key).Perm (kvs.map key) := (sortByKey_perm kvs).map _
  have hle : ((sortByKey kvs).map key).Pairwise (· ≤ ·) := pairwise_map.2 (sortByKey_pairwise kvs)
  rw [← hp.nodup_iff]
  constructor
  · exact fun h => h.imp ne_of_lt
  · exact fun h => (List.Pairwise.and hle h).imp fun hab => lt_of_le_of_ne hab.1 hab.2

variable {env kvs} {sst : SstFile}

theorem buildSst_eq_ok : buildSst env cf kvs = .ok sst ↔ env.build cf = .ok () ∧ putAll env cf none kvs = .ok () ∧
    env.finishRead cf = .ok () ∧ env.readToEnd cf = .ok () ∧
      sst = ⟨kvs.map (fun kv => (kv.key, kv.value)), env.fileSize cf⟩ := by
  unfold buildSst
  cases env.build cf <;> cases putAll env cf none kvs <;> cases env.finishRead cf <;> cases env.readToEnd cf <;>
    simp [eq_comm]

/-- **Every call that is made for a group is answered**, and no key is met twice. -/
structure Goes (env : FlushEnv) (g : CfGroup) : Prop where
  build : env.build g.1 = .ok ()
  nodup : (g.2.map MvccKeyValue.key).Nodup
  put : g.2 ≠ [] → env.put g.1 = .ok ()
  finishRead : env.finishRead g.1 = .ok ()
  readToEnd : env.readToEnd g.1 = .ok ()
  region : ∃ regionId, env.getRegionInfo ((sortByKey g.2).head?.elim [] (fun kv => kv.key)) = .ok regionId
  fsWrite : env.fsWrite g.1 = .ok ()
  ingest : env.ingestExternalFileCf g.1 = .ok ()

theorem Goes.of_works (henv : env.Works) (h : (g.2.map key).Nodup) : Goes env g :=
  ⟨henv.build _, h, fun _ => henv.put _, henv.finishRead _, henv.readToEnd _, henv.getRegionInfo _, henv.fsWrite _,
    henv.ingestExternalFileCf _⟩

theorem putAll_sortByKey : putAll env cf none (sortByKey kvs) = .ok () ↔
    (kvs ≠ [] → env.put cf = .ok ()) ∧ (kvs.map key).Nodup := by
  have hnil : sortByKey kvs = [] ↔ kvs = [] := by
    rw [← length_eq_zero_iff, (sortByKey_perm kvs).length_eq, length_eq_zero_iff]
  rw [putAll_eq_ok, ← sorted_lt_iff_nodup, Ne, hnil]
  rfl

variable {k : Bytes} {e e' : Engine}

theorem ingestSst_cases (hsize : sst.size ≠ 0) (k : Bytes) (e : Engine) (cf : Cf) :
    (∃ r, env.getRegionInfo k = .ok r ∧ env.fsWrite cf = .ok () ∧ env.ingestExternalFileCf cf = .ok () ∧
      ingestSst env sst k cf e = ((sst.patch cf).apply e, .ok r)) ∨
    ¬ ((∃ r, env.getRegionInfo k = .ok r) ∧ env.fsWrite cf = .ok () ∧ env.ingestExternalFileCf cf = .ok ()) ∧
      ∃ err, ingestSst env sst k cf e = (e, .error err) := by
  unfold ingestSst
  rw [if_neg hsize]
  cases env.getRegionInfo k <;> cases env.fsWrite cf <;> cases env.ingestExternalFileCf cf <;> simp

theorem pairwise_apart_of_nodup (h : (kvs.map slot).Nodup) :
    (kvs.map patch).Pairwise Patch.Apart := by
  refine pairwise_map.2 ((pairwise_map.1 h).imp fun {a b} hab s => ?_)
  by_cases hs : s = a.slot
  · exact .inr (if_neg fun hb => hab (hs.symm.trans hb))
  · exact .inl (if_neg hs)

theorem nodup_of_pairwise_apart (h : (kvs.map patch).Pairwise Patch.Apart) : (kvs.map slot).Nodup := by
  refine pairwise_map.2 ((pairwise_map.1 h).imp fun {a b} hab hs => ?_)
  rcases hab a.slot with h | h
  · cases (if_pos rfl).symm.trans h
  · cases (if_pos hs).symm.trans h

theorem ingestGroup_cases (hg : ∀ x ∈ g.2, x.cf = g.1) (e : Engine) :
    (Goes env g ∧ ∃ r, ingestGroup env g e = ((Patch.seqAll (g.2.map patch)).apply e, .ok r)) ∨
      ¬ Goes env g ∧ ∃ err, ingestGroup env g e = (e, .error err) := by
  unfold ingestGroup
  cases hsst : buildSst env g.1 (sortByKey g.2) with
  | error err =>
    refine .inr ⟨fun h => ?_, err, rfl⟩
    cases hsst.symm.trans (buildSst_eq_ok.2 ⟨h.build, putAll_sortByKey.2 ⟨h.put, h.nodup⟩, h.finishRead, h.readToEnd, rfl⟩)
  | ok sst =>
    obtain ⟨hbuild, hput, hfinish, hread, rfl⟩ := buildSst_eq_ok.1 hsst
    obtain ⟨hput, hnd⟩ := putAll_sortByKey.1 hput
    have hmap : (sortByKey g.2).map ((fun p : Bytes × Bytes => Patch.put (g.1, p.1) p.2) ∘
        fun kv => (kv.key, kv.value)) = (sortByKey g.2).map patch := by
      refine map_congr_left fun x hx => ?_
      show Patch.put (g.1, x.key) x.value = Patch.put (x.cf, x.key) x.value
      rw [hg x ((sortByKey_perm g.2).mem_iff.1 hx)]
    have hsize : (⟨(sortByKey g.2).map fun kv => (kv.key, kv.value), env.fileSize g.1⟩ : SstFile).size ≠ 0 :=
      ne_of_gt (env.fileSize_pos g.1)
    rcases ingestSst_cases hsize ((sortByKey g.2).head?.elim [] fun kv => kv.key) e g.1
      with ⟨r, hregion, hwrite, hingest, heq⟩ | ⟨hnot, err, heq⟩
    · refine .inl ⟨⟨hbuild, hnd, hput, hfinish, hread, ⟨r, hregion⟩, hwrite, hingest⟩, (r, env.fileSize g.1), ?_⟩
      dsimp only
      rw [heq, SstFile.patch, map_map, hmap, Patch.seqAll_perm ((sortByKey_perm g.2).map patch).symm]
      exact pairwise_apart_of_nodup ((group_nodup_iff hg).2 hnd)
    · dsimp only
      rw [heq]
      exact .inr ⟨fun h => hnot ⟨h.region, h.fsWrite, h.ingest⟩, err, rfl⟩

/-! ## What the loop over the groups does -/

def firstKey (g : CfGroup) : Bytes := (sortByKey g.2).head?.elim [] MvccKeyValue.key

/-- **Whether every call that is made for a group goes through.**  The SST writer takes no key twice. -/
def FlushEnv.accepts (env : FlushEnv) (g : CfGroup) : Bool :=
  (env.build g.1).isOk && decide (g.2.map MvccKeyValue.key).Nodup && (env.put g.1).isOk && (env.finishRead g.1).isOk &&
    (env.readToEnd g.1).isOk && (env.getRegionInfo (firstKey g)).isOk && (env.fsWrite g.1).isOk &&
    (env.ingestExternalFileCf g.1).isOk

theorem isOk_iff {α : Type} {x : Except String α} : x.isOk = true ↔ ∃ a, x = .ok a := by
  cases x with
  | error | ok => simp [Except.toBool]

theorem isOk_unit {x : Except String Unit} : x.isOk = true ↔ x = .ok () :=
  isOk_iff.trans ⟨fun ⟨_, h⟩ => h, fun h => ⟨(), h⟩⟩

theorem accepts_iff (hne : g.2 ≠ []) : env.accepts g = true ↔ Goes env g := by
  unfold FlushEnv.accepts
  simp only [Bool.and_eq_true, isOk_unit, decide_eq_true_eq, and_assoc]
  rw [isOk_iff]
  exact ⟨fun ⟨hbuild, hnd, hput, hfinish, hread, hregion, hwrite, hingest⟩ =>
      ⟨hbuild, hnd, fun _ => hput, hfinish, hread, hregion, hwrite, hingest⟩,
    fun h => ⟨h.build, h.nodup, h.put hne, h.finishRead, h.readToEnd, h.region, h.fsWrite, h.ingest⟩⟩

/-- **The loop ingests the groups before the first that is refused**, and fails there. -/
theorem ingestGroups_spec : ∀ {gs : List CfGroup}, Grouped gs → (∀ g ∈ gs, g.2 ≠ []) →
    ∀ (e : Engine) (acc : Nat × Nat),
    (ingestGroups env gs e acc).1 =
        (Patch.seqAll (((gs.takeWhile env.accepts).flatMap Prod.snd).map patch)).apply e ∧
      ((ingestGroups env gs e acc).2.isOk = true ↔ gs.dropWhile env.accepts = [])
  | [], _, _, e, acc => ⟨rfl, iff_of_true rfl rfl⟩
  | g :: gs, hgs, hne, e, acc => by
    obtain ⟨hg, hrest⟩ := forall_mem_cons.1 hne
    unfold ingestGroups
    rcases ingestGroup_cases (hgs.cf g mem_cons_self) e with ⟨hgoes, r, hing⟩ | ⟨hnot, err, hing⟩
    · have hacc := (accepts_iff hg).2 hgoes
      rw [hing, takeWhile_cons_of_pos hacc, dropWhile_cons_of_pos hacc, flatMap_cons, map_append, Patch.seqAll_append,
        Patch.apply_seq]
      exact ingestGroups_spec hgs.tail hrest _ _
    · have hacc := mt (accepts_iff hg).1 hnot
      rw [hing, takeWhile_cons_of_neg hacc, dropWhile_cons_of_neg hacc]
      exact ⟨rfl, iff_of_false nofun nofun⟩

/-! ## What a flush does -/

def RangeDelete.covers (r : RangeDelete) (s : Slot) : Bool :=
  (s.1 == .default || s.1 == .write || s.1 == .lock) && decide (r.startKey ≤ s.2) && decide (s.2 < r.endKey)

def RangeDelete.patch (r : RangeDelete) : EnginePatch := Patch.erase r.covers

variable (henv : ∀ cf, env.deleteRangesCf cf = .ok ())

include henv in
theorem applyDeleteRange_eq (r : RangeDelete) (e : Engine) :
    applyDeleteRange env r.startKey r.endKey e = r.patch.apply e := by
  unfold applyDeleteRange
  simp only [henv, foldl_cons, foldl_nil]
  funext s
  unfold Patch.apply eraseRange RangeDelete.patch Patch.erase RangeDelete.covers
  dsimp only
  cases s.1 == Cf.default <;> cases s.1 == Cf.write <;> cases s.1 == Cf.lock <;>
    cases decide (r.startKey ≤ s.2) <;> cases decide (s.2 < r.endKey) <;> rfl

/-- **What the buffers stand for**: the pairs, then the range deletes. -/
def SstBatcher.patches (b : SstBatcher) : List EnginePatch :=
  b.kvBuffer.map MvccKeyValue.patch ++ b.rangeBuffer.map RangeDelete.patch

include henv in
theorem foldl_applyDeleteRange :
    ∀ (rs : List RangeDelete) (e : Engine), rs.foldl (fun e r => applyDeleteRange env r.startKey r.endKey e) e =
      (Patch.seqAll (rs.map RangeDelete.patch)).apply e
  | [], _ => rfl
  | r :: rs, e => by
    rw [foldl_cons, foldl_applyDeleteRange rs, applyDeleteRange_eq henv, map_cons, Patch.seqAll_cons,
      Patch.apply_seq]

variable {b : SstBatcher}

theorem nodup_of_accepts (hg : g ∈ env.order (groupByCf kvs)) (h : env.accepts g = true) :
    (g.2.map key).Nodup :=
  ((accepts_iff (order_groupByCf_ne_nil env kvs g hg)).1 h).nodup

def FlushEnv.unwritten (env : FlushEnv) (kvs : List MvccKeyValue) : List CfGroup :=
  (env.order (groupByCf kvs)).dropWhile env.accepts

def FlushEnv.written (env : FlushEnv) (kvs : List MvccKeyValue) : List MvccKeyValue :=
  ((env.order (groupByCf kvs)).takeWhile env.accepts).flatMap Prod.snd

variable (env kvs) in
theorem ingestGroups_order (e : Engine) : (ingestGroups env (env.order (groupByCf kvs)) e (0, 0)).1 =
        (Patch.seqAll ((env.written kvs).map patch)).apply e ∧
      ((ingestGroups env (env.order (groupByCf kvs)) e (0, 0)).2.isOk = true ↔ env.unwritten kvs = []) :=
  ingestGroups_spec (order_groupByCf_grouped env kvs) (order_groupByCf_ne_nil env kvs) e (0, 0)

include henv in
/-- **A flush that succeeds has ingested the buffers and emptied them**, and no slot was buffered twice. -/
theorem SstBatcher.flush_ok {b' : SstBatcher} {r : FlushResult} (h : b.flush env e = (b', e', .ok r)) :
    (b.kvBuffer.map slot).Nodup ∧ e' = (Patch.seqAll b.patches).apply e ∧
      b'.kvBuffer = [] ∧ b'.rangeBuffer = [] := by
  unfold flush at h
  split at h
  · rename_i hempty
    simp only [Bool.and_eq_true, List.isEmpty_iff] at hempty
    cases h
    unfold patches
    rw [hempty.1, hempty.2]
    exact ⟨List.nodup_nil, rfl, rfl, rfl⟩
  · split at h
    · cases h
    rename_i e₁ regionId totalBytes hing
    have hgr := order_groupByCf_grouped env b.kvBuffer
    have hperm := order_groupByCf_perm env b.kvBuffer
    obtain ⟨he₁, hok⟩ := ingestGroups_order env b.kvBuffer e
    rw [hing] at he₁ hok
    have hall := dropWhile_eq_nil_iff.1 (hok.1 rfl)
    rw [FlushEnv.written, takeWhile_eq_self_iff.2 hall] at he₁
    change e₁ = _ at he₁
    have hslots := hgr.nodup_slots_iff.2 fun g hg => nodup_of_accepts hg (hall g hg)
    cases h
    refine ⟨(hperm.map _).nodup_iff.1 hslots, ?_, rfl, rfl⟩
    rw [foldl_applyDeleteRange henv, he₁, ← Patch.apply_seq, patches, Patch.seqAll_append,
      Patch.seqAll_perm (hperm.map patch) (pairwise_apart_of_nodup hslots)]

theorem Grouped.count_slot {s : Slot} : ∀ {gs : List CfGroup}, Grouped gs → ∀ {g : CfGroup}, g ∈ gs → g.1 = s.1 →
    ((gs.flatMap Prod.snd).map slot).count s = (g.2.map slot).count s
  | [], _, g, hg, _ => by cases hg
  | a :: gs, h, g, hg, hs => by
    rw [flatMap_cons, map_append, count_append]
    obtain ⟨ha, hnd⟩ := nodup_cons.1 h.nodup
    -- a group of another family does not meet the slot
    have hother : ∀ g' ∈ a :: gs, g'.1 ≠ s.1 → (g'.2.map slot).count s = 0 := by
      intro g' hg' hne
      refine count_eq_zero.2 fun hmem => ?_
      obtain ⟨x, hx, rfl⟩ := mem_map.1 hmem
      exact hne (h.cf g' hg' x hx).symm
    rcases mem_cons.1 hg with rfl | hg
    · have hrest : ((gs.flatMap Prod.snd).map slot).count s = 0 := by
        refine count_eq_zero.2 fun hmem => ?_
        obtain ⟨x, hx, rfl⟩ := mem_map.1 hmem
        obtain ⟨g', hg', hx'⟩ := mem_flatMap.1 hx
        refine ha (hs ▸ ?_)
        rw [slot, h.cf g' (mem_cons_of_mem _ hg') x hx']
        exact mem_map_of_mem hg'
      rw [hrest, add_zero]
    · have hne : a.1 ≠ s.1 := fun heq => ha (by rw [heq, ← hs]; exact mem_map_of_mem hg)
      rw [hother a mem_cons_self hne, zero_add, h.tail.count_slot hg hs]

theorem SstBatcher.flush_of_repeat (env : FlushEnv) (hr : b.rangeBuffer = []) {s : Slot}
    (hs : 1 < (b.kvBuffer.map slot).count s) (e : Engine) : (b.flush env e).2.1 s = e s := by
  have hgr := order_groupByCf_grouped env b.kvBuffer
  have hperm := (order_groupByCf_perm env b.kvBuffer).map slot
  have hkeep : (ingestGroups env (env.order (groupByCf b.kvBuffer)) e (0, 0)).1 s = e s := by
    rw [(ingestGroups_order env b.kvBuffer e).1]
    refine Patch.apply_of_none (forall_mem_map.2 fun x hx => ?_) e
    refine if_neg ?_
    rintro rfl
    obtain ⟨g, hg, hx⟩ := mem_flatMap.1 hx
    have hmem := (takeWhile_sublist _).subset hg
    have hcount := hgr.count_slot (s := x.slot) hmem (hgr.cf g hmem x hx).symm
    rw [hperm.count_eq] at hcount
    have hnd := nodup_of_accepts hmem (mem_takeWhile_imp hg)
    have := nodup_iff_count_le_one.1 ((group_nodup_iff (hgr.cf g hmem)).2 hnd) x.slot
    omega
  unfold flush
  split
  · rfl
  split
  · rename_i e' err hing
    rw [hing] at hkeep
    exact hkeep
  · rename_i e' regionId totalBytes hing
    rw [hing] at hkeep
    rw [hr]
    exact hkeep

theorem SstBatcher.flush_of_works (henv : env.Works)
    (h : (b.kvBuffer.map slot).Nodup) (e : Engine) : ∃ b' e' r, b.flush env e = (b', e', .ok r) := by
  unfold flush
  split
  · exact ⟨_, _, _, rfl⟩
  have hnd := (order_groupByCf_grouped env b.kvBuffer).nodup_slots_iff.1
    (((order_groupByCf_perm env b.kvBuffer).map _).nodup_iff.2 h)
  have hok := (ingestGroups_order env b.kvBuffer e).2.2 (dropWhile_eq_nil_iff.2 fun g hg =>
    (accepts_iff (order_groupByCf_ne_nil env b.kvBuffer g hg)).2 (.of_works henv (hnd g hg)))
  split
  · rename_i e' err hing
    rw [hing] at hok
    cases hok
  · exact ⟨_, _, _, rfl⟩

end Ingest
end Tikv
