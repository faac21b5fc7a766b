import Tikv.CompactMigration
/-!
# CompactRetire — a migration retires only what was compacted

`EditOk` is what an edit owes its metadata file: what it deletes was compacted, and it marks the file only if every log
file, or every data file, is retired.  The edits of a run are so (`editOk_toEdit`), since spans that cover a physical
file are all of its log files, and what the run does not load is retired already (`retired_of_unseen`).  Hence along
every run no data file is skipped without having been compacted (`sound_of_run`).
-/
namespace Tikv
namespace Compact

open Lib List MetaEditFilters

/-! ## What an edit owes -/

def MetaEdit.Retires (em : MetaEdit) (id : LogFileId) : Prop :=
  id.name ∈ em.deletePhysicalFiles ∨ ∃ d ∈ em.deleteLogicalFiles, d.path = id.name ∧ id.span ∈ d.spans

def Retired (migs : List Migration) (file : MetaFile) (id : LogFileId) : Prop :=
  ∃ em, EditedBy migs file.name em ∧ em.Retires id

/-- **An edit that retires only what is `done`**, and marks the metadata file only if all of it is retired. -/
structure EditOk (done : LogFileId → Prop) (migs : List Migration) (file : MetaFile) (em : MetaEdit) : Prop where
  physical : ∀ name ∈ em.deletePhysicalFiles, ∃ p ∈ file.physicalFiles, p.name = name ∧ ∀ f ∈ p.files, done f.id
  spans : ∀ d ∈ em.deleteLogicalFiles, ∀ span ∈ d.spans,
    ∃ f ∈ file.logs, f.id = ⟨d.path, span.offset, span.length⟩ ∧ done f.id
  destructSelf : em.destructSelf = true → ∀ f ∈ file.logs, Retired migs file f.id
  allDataFilesCompacted : em.allDataFilesCompacted = true → ∀ f ∈ file.logs, f.isMeta = false → Retired migs file f.id

def EditsOk (done : LogFileId → Prop) (metas : List MetaFile) (migs edits : List Migration) : Prop :=
  ∀ mig ∈ edits, ∀ em ∈ mig.editMeta, ∃ file ∈ metas, file.name = em.path ∧ EditOk done migs file em

variable {migs : List Migration} {file : MetaFile} {id : LogFileId} (new : List Migration)

theorem Retired.append (h : Retired migs file id) : Retired (migs ++ new) file id := by
  obtain ⟨em, ⟨⟨mig, hmig, hem⟩, hpath⟩, hr⟩ := h
  exact ⟨em, ⟨⟨mig, mem_append_left _ hmig, hem⟩, hpath⟩, hr⟩

variable {em : MetaEdit}

theorem EditOk.mono {done done' : LogFileId → Prop} (h : EditOk done migs file em) (hdone : ∀ id, done id → done' id) :
    EditOk done' (migs ++ new) file em where
  physical name hn := by
    obtain ⟨p, hp, hpn, hall⟩ := h.physical name hn
    exact ⟨p, hp, hpn, fun f hf => hdone _ (hall f hf)⟩
  spans d hd span hspan := by
    obtain ⟨f, hf, hid, hdn⟩ := h.spans d hd span hspan
    exact ⟨f, hf, hid, hdone _ hdn⟩
  destructSelf hd f hf := (h.destructSelf hd f hf).append new
  allDataFilesCompacted hd f hf hm := (h.allDataFilesCompacted hd f hf hm).append new

/-! ## What a run loads -/

variable {m m' : MetaFile} {p p' : PhysicalLogFile} {f : LogFile} (filters : MetaEditFilters)

theorem kept_or_named (migs : List Migration) (hp : p ∈ m.physicalFiles) (hf : f ∈ p.files) :
    (∃ p' ∈ ((fromMigrations migs).applyTo m).physicalFiles, p'.name = p.name ∧ f ∈ p'.files) ∨
      ∃ em, EditedBy migs m.name em ∧ em.Names f.id := by
  unfold applyTo
  cases hl : (fromMigrations migs).lookup m.name with
  | none => exact .inl ⟨p, hp, rfl, hf⟩
  | some edit =>
    cases hr : edit.shouldRetain f.id with
    | false => exact .inr (named_of_not_retained hl hr)
    | true =>
      have hkept : f ∈ p.files.filter fun f => edit.shouldRetain f.id := mem_filter.2 ⟨hf, hr⟩
      refine .inl ⟨{ p with files := p.files.filter fun f => edit.shouldRetain f.id }, mem_filter.2 ⟨?_, ?_⟩, rfl,
        hkept⟩
      · exact mem_map.2 ⟨p, hp, rfl⟩
      · rw [Bool.not_eq_true', isEmpty_eq_false_iff]
        exact ne_nil_of_mem hkept

theorem physical_of_applyTo {filters : MetaEditFilters} (hp' : p' ∈ (filters.applyTo m).physicalFiles) :
    ∃ p ∈ m.physicalFiles, p'.name = p.name ∧ p'.size = p.size ∧ p'.files.Sublist p.files := by
  unfold applyTo at hp'
  cases hl : filters.lookup m.name with
  | none =>
    rw [hl] at hp'
    exact ⟨p', hp', rfl, rfl, List.Sublist.refl _⟩
  | some edit =>
    rw [hl] at hp'
    obtain ⟨p, hp, rfl⟩ := mem_map.1 (mem_filter.1 hp').1
    exact ⟨p, hp, rfl, rfl, filter_sublist⟩

theorem name_applyTo (m : MetaFile) : (filters.applyTo m).name = m.name := by
  unfold applyTo
  cases filters.lookup m.name with
  | none | some => rfl

theorem logs_applyTo_sublist (m : MetaFile) : (filters.applyTo m).logs.Sublist m.logs := by
  unfold applyTo
  cases filters.lookup m.name with
  | none => exact List.Sublist.refl _
  | some edit =>
    show ((filter _ (map _ m.physicalFiles)).flatMap _).Sublist (m.physicalFiles.flatMap _)
    induction m.physicalFiles with
    | nil => exact List.Sublist.refl _
    | cons p ps ih =>
      rw [map_cons]
      rw [filter_cons]
      split
      · exact filter_sublist.append ih
      · exact ih.trans (sublist_append_right _ _)

theorem logs_load_sublist : ∀ metas : List MetaFile,
    ((load filters metas).flatMap (·.logs)).Sublist (metas.flatMap (·.logs))
  | [] => List.Sublist.refl _
  | m :: metas => by
    have ih := logs_load_sublist metas
    unfold load at ih ⊢
    rw [filter_cons]
    split
    · exact (logs_applyTo_sublist filters m).append ih
    · exact ih.trans (sublist_append_right _ _)

/-! ## Log files by name and offset -/

section Archived

variable {metas : List MetaFile} (hc : Concatenated metas) (hn : NonEmpty metas) (hm : m ∈ metas)
include hc hm

theorem Concatenated.file_eq (hm' : m' ∈ metas) (h : m.name = m'.name) : m = m' :=
  inj_on_of_nodup_map hc.names hm hm' h

theorem Concatenated.physical_eq (hm' : m' ∈ metas) (hp : p ∈ m.physicalFiles) (hp' : p' ∈ m'.physicalFiles)
    (h : p.name = p'.name) : p = p' :=
  inj_on_of_nodup_map hc.physical (mem_flatMap.2 ⟨m, hm, hp⟩) (mem_flatMap.2 ⟨m', hm', hp'⟩) h

theorem Concatenated.mem_of_name (hm' : m' ∈ metas) (hf : f ∈ m.logs) (hp : p ∈ m'.physicalFiles)
    (h : f.id.name = p.name) : f ∈ p.files := by
  obtain ⟨p', hp', hf'⟩ := mem_flatMap.1 hf
  have hname := ((hc.files m hm p' hp').bounds.2 f hf').1
  exact hc.physical_eq hm hm' hp' hp (hname.symm.trans h) ▸ hf'

include hn in
theorem Concatenated.id_eq (hm' : m' ∈ metas) {g : LogFile} (hf : f ∈ m.logs) (hg : g ∈ m'.logs)
    (hname : f.id.name = g.id.name) (hoff : f.id.offset = g.id.offset) : f.id = g.id := by
  obtain ⟨p, hp, hg'⟩ := mem_flatMap.1 hg
  have hcat := hc.files m' hm' p hp
  have hf' := hc.mem_of_name hm hm' hf hp (hname.trans (hcat.bounds.2 g hg').1)
  have hnodup := hcat.nodup_offset fun x hx => hn m' hm' x (mem_flatMap.2 ⟨p, hp, hx⟩)
  exact congrArg _ (inj_on_of_nodup_map hnodup hf' hg' hoff)

omit hm in
include hn in
theorem Concatenated.nodup : ((metas.flatMap (·.logs)).map (·.id)).Nodup := by
  have hassoc : (metas.flatMap (·.logs)).map (·.id) =
      (metas.flatMap (·.physicalFiles)).flatMap fun p => p.files.map (·.id) := by
    rw [map_flatMap, flatMap_assoc]
    exact congrArg (metas.flatMap ·) (funext fun m => map_flatMap)
  rw [hassoc, nodup_flatMap]
  constructor
  · intro p hp
    obtain ⟨m, hm, hp⟩ := mem_flatMap.1 hp
    have hnodup := (hc.files m hm p hp).nodup_offset fun x hx => hn m hm x (mem_flatMap.2 ⟨p, hp, hx⟩)
    exact .of_map (·.offset) (by rwa [map_map])
  · -- ids of physical files with different names differ in their names
    refine (pairwise_map.1 hc.physical).imp_of_mem fun {p p'} hp hp' hne id hid hid' => hne ?_
    obtain ⟨m, hm, hp⟩ := mem_flatMap.1 hp
    obtain ⟨m', hm', hp'⟩ := mem_flatMap.1 hp'
    obtain ⟨f, hf, rfl⟩ := mem_map.1 hid
    obtain ⟨g, hg, heq⟩ := mem_map.1 hid'
    exact ((hc.files m hm p hp).bounds.2 f hf).1.symm.trans
      ((congrArg LogFileId.name heq.symm).trans ((hc.files m' hm' p' hp').bounds.2 g hg).1)

/-! ## What a run does not load is retired -/

variable {done : LogFileId → Prop} {migs : List Migration} (hok : EditsOk done metas migs migs)
  (hf : f ∈ m.logs)
include hok

theorem editOk_of_editedBy (h : EditedBy migs m.name em) : EditOk done migs m em := by
  obtain ⟨⟨mig, hmig, hem⟩, hpath⟩ := h
  obtain ⟨file, hfile, hname, hedit⟩ := hok mig hmig em hem
  exact hc.file_eq hfile hm (hname.trans hpath) ▸ hedit

include hf

include hn in
theorem retired_of_named (hem : EditedBy migs m.name em) (hnames : em.Names f.id) : Retired migs m f.id := by
  refine ⟨em, hem, ?_⟩
  rcases hnames with hphysical | ⟨d, hd, hpath, span, hspan, hoff⟩
  · exact .inl hphysical
  obtain ⟨g, hg, hgid, -⟩ := (editOk_of_editedBy hc hm hok hem).spans d hd span hspan
  have hsame : f.id = g.id := by
    refine hc.id_eq hn hm hm hf hg ?_ ?_
    · rw [hgid]; exact hpath.symm
    · rw [hgid]; exact hoff.symm
  refine .inr ⟨d, hd, hpath, ?_⟩
  rw [hsame, hgid]
  exact hspan

theorem done_of_retired (h : Retired migs m f.id) : done f.id := by
  obtain ⟨em, hem, hr⟩ := h
  have hedit := editOk_of_editedBy hc hm hok hem
  rcases hr with hphysical | ⟨d, hd, hpath, hspan⟩
  · obtain ⟨p, hp, hname, hall⟩ := hedit.physical _ hphysical
    exact hall f (hc.mem_of_name hm hm hf hp hname.symm)
  obtain ⟨g, -, hgid, hdone⟩ := hedit.spans d hd _ hspan
  have hsame : g.id = f.id := hgid.trans (by rw [hpath]; rfl)
  exact hsame ▸ hdone

include hn in
theorem retired_of_unseen (hdata : f.isMeta = false) (hun : f ∉ (load (fromMigrations migs) metas).flatMap (·.logs)) :
    Retired migs m f.id := by
  cases hskip : (fromMigrations migs).shouldFullySkip m.name with
  | true =>
    obtain ⟨em, hem, hmark⟩ := marked_of_shouldFullySkip hskip
    have hedit := editOk_of_editedBy hc hm hok hem
    exact hmark.elim (hedit.destructSelf · f hf) (hedit.allDataFilesCompacted · f hf hdata)
  | false =>
    obtain ⟨p, hp, hfp⟩ := mem_flatMap.1 hf
    rcases kept_or_named migs hp hfp with ⟨p', hp', -, hfp'⟩ | ⟨em, hem, hnames⟩
    · refine absurd (mem_flatMap.2 ⟨_, mem_map.2 ⟨m, mem_filter.2 ⟨hm, ?_⟩, rfl⟩, ?_⟩) hun
      · rw [hskip]; rfl
      · exact mem_flatMap.2 ⟨p', hp', hfp'⟩
    · exact retired_of_named hc hn hm hok hf hem hnames

end Archived

/-! ## The edits of a run -/

structure Expires (input : LogFileId → Prop) (file : MetaFile) (seen : List PhysicalLogFile) (r : ExpiringFilesOfMeta) :
    Prop where
  metaPath : r.metaPath = file.name
  logs : ∀ name ∈ r.logs, ∃ p ∈ file.physicalFiles, p.name = name ∧ ∀ f ∈ p.files, input f.id
  spans : ∀ name x, r.spansOfFile.lookup name = some x → ∀ span ∈ x.1,
    ∃ f ∈ file.logs, f.id = ⟨name, span.offset, span.length⟩ ∧ input f.id
  destructSelf : r.destructSelf = true → ∀ p ∈ seen, p.name ∈ r.logs
  allDataFilesCompacted : r.allDataFilesCompacted = true →
    ∀ p ∈ seen, p.name ∈ r.logs ∨ ∀ f ∈ p.files, f.isMeta = true

section Expiring

variable {metas : List MetaFile} (hc : Concatenated metas) (hn : NonEmpty metas) {input : LogFileId → Prop}
  (hin : ∀ id, input id → ∃ m ∈ metas, ∃ f ∈ m.logs, f.id = id) {b : CompactionRunInfoBuilder}
  (hb : FilesOk input b.files) {file : MetaFile} (hfile : file ∈ metas) {p : PhysicalLogFile}
  (hp : p ∈ file.physicalFiles)

include hc hin hb hfile hp in
theorem span_of_physical {ids : List LogFileId} (hl : b.files.lookup p.name = some ids) :
    ∀ id ∈ ids, (∃ f ∈ p.files, f.id = id) ∧ id.name = p.name ∧ input id := by
  intro id hid
  obtain ⟨hname, hinput⟩ := (hb _ ids hl).2 id hid
  obtain ⟨m, hm, f, hf, rfl⟩ := hin id hinput
  exact ⟨⟨f, hc.mem_of_name hm hfile hf hp hname, rfl⟩, hname, hinput⟩

include hc hn hin hb hfile hp in
theorem fullCovers_spec {p' : PhysicalLogFile} (hname : p'.name = p.name) (hsize : p'.size = p.size) :
    ∃ full, b.fullCovers p' = some full ∧ (full = true → ∀ f ∈ p.files, input f.id) := by
  unfold CompactionRunInfoBuilder.fullCovers
  rw [hname, hsize]
  cases hl : b.files.lookup p.name with
  | none => exact ⟨false, rfl, nofun⟩
  | some ids =>
    have hcat := hc.files file hfile p hp
    have hspans := span_of_physical hc hin hb hfile hp hl
    have hne : coversFrom p.size 0 ids ≠ none := by
      refine coversFrom_ne_none (Nat.zero_le _) fun id hid => ?_
      obtain ⟨f, hf, rfl⟩ := (hspans id hid).1
      exact (hcat.bounds.2 f hf).2.2
    obtain ⟨full, hfull⟩ := Option.ne_none_iff_exists'.1 hne
    refine ⟨full, hfull, fun htrue f hf => ?_⟩
    have hmem := mem_of_coversFrom hcat (fun x hx => hn file hfile x (mem_flatMap.2 ⟨p, hp, hx⟩)) (hb _ ids hl).1
      (fun id hid => (hspans id hid).1) (htrue ▸ hfull) f hf
    exact (hspans _ hmem).2.2

include hc hn hin hb hfile hp in
theorem Expires.expiringFile {seen : List PhysicalLogFile} {r : ExpiringFilesOfMeta}
    (h : Expires input file seen r) {p' : PhysicalLogFile} (hname : p'.name = p.name) (hsize : p'.size = p.size) :
    ∃ r', b.expiringFile r p' = some r' ∧ Expires input file (seen ++ [p']) r' := by
  obtain ⟨full, hfull, hcovered⟩ := fullCovers_spec hc hn hin hb hfile hp hname hsize
  unfold CompactionRunInfoBuilder.expiringFile
  rw [hfull, Option.map_some]
  refine ⟨_, rfl, ?_⟩
  cases full with
  | true =>
    refine ⟨h.metaPath, forall_mem_append.2 ⟨h.logs, forall_mem_singleton.2 ?_⟩, h.spans, fun hd => ?_, fun hd => ?_⟩
    · exact ⟨p, hp, hname.symm, hcovered rfl⟩
    · exact forall_mem_append.2 ⟨fun q hq => mem_append_left _ (h.destructSelf hd q hq),
        forall_mem_singleton.2 mem_concat_self⟩
    · exact forall_mem_append.2 ⟨fun q hq => (h.allDataFilesCompacted hd q hq).imp_left (mem_append_left _),
        forall_mem_singleton.2 (.inl mem_concat_self)⟩
  | false =>
    rw [if_neg Bool.false_ne_true]
    refine ⟨h.metaPath, h.logs, fun name x hx span hspan => ?_, fun hd => (nomatch hd), fun hd => ?_⟩
    · cases hl : b.files.lookup p'.name with
      | none =>
        rw [hl] at hx
        exact h.spans name x hx span hspan
      | some ids =>
        rw [hl] at hx
        rcases Map.lookup_insert_cases hx with ⟨heq, rfl⟩ | hx
        · rcases mem_append.1 hspan with hspan | hspan
          · cases hold : r.spansOfFile.lookup p'.name with
            | none => rw [hold] at hspan; cases hspan
            | some old => rw [hold] at hspan; exact h.spans name old (heq ▸ hold) span hspan
          · obtain ⟨id, hid, rfl⟩ := mem_map.1 hspan
            obtain ⟨⟨f, hf, hfid⟩, hidname, hinput⟩ := span_of_physical hc hin hb hfile hp (hname ▸ hl) id hid
            refine ⟨f, mem_flatMap.2 ⟨p, hp, hf⟩, ?_, hfid ▸ hinput⟩
            rw [hfid, heq, hname, ← hidname]
            rfl
        · exact h.spans name x hx span hspan
    · split at hd
      · cases hd
      rename_i hany
      refine forall_mem_append.2 ⟨h.allDataFilesCompacted hd, forall_mem_singleton.2 (.inr fun f hf => ?_)⟩
      cases hmeta : f.isMeta with
      | true => rfl
      | false => exact absurd (any_eq_true.2 ⟨f, hf, by rw [hmeta]; rfl⟩) hany

include hc hn hin hb hfile in
theorem Expires.foldlM : ∀ {ps : List PhysicalLogFile} {seen : List PhysicalLogFile} {r : ExpiringFilesOfMeta},
    Expires input file seen r →
    (∀ p' ∈ ps, ∃ p ∈ file.physicalFiles, p'.name = p.name ∧ p'.size = p.size ∧ p'.files.Sublist p.files) →
    ∃ r', ps.foldlM b.expiringFile r = some r' ∧ Expires input file (seen ++ ps) r'
  | [], seen, r, h, _ => ⟨r, rfl, (append_nil seen).symm ▸ h⟩
  | p' :: ps, seen, r, h, hps => by
    obtain ⟨p, hp, hname, hsize, -⟩ := hps p' mem_cons_self
    obtain ⟨r₁, hr₁, h₁⟩ := h.expiringFile hc hn hin hb hfile hp hname hsize
    obtain ⟨r₂, hr₂, h₂⟩ := Expires.foldlM h₁ fun q hq => hps q (mem_cons_of_mem _ hq)
    refine ⟨r₂, ?_, ?_⟩
    · rw [foldlM_cons, hr₁]
      exact hr₂
    · rw [append_assoc] at h₂
      exact h₂

include hc hn hin hb hfile in
theorem expires_expiring (filters : MetaEditFilters) : ∃ r, b.expiring (filters.applyTo file) = some r ∧
      Expires input file (filters.applyTo file).physicalFiles r := by
  have hinit : Expires input file [] ⟨(filters.applyTo file).name, [], true, true, ∅⟩ :=
    ⟨name_applyTo filters file, fun _ h => (nomatch h), fun _ _ h => (nomatch h), fun _ _ h => (nomatch h), nofun⟩
  exact hinit.foldlM hc hn hin hb hfile fun p' hp' => physical_of_applyTo hp'

end Expiring

section Written

variable {metas : List MetaFile} (hc : Concatenated metas) (hn : NonEmpty metas) {done : LogFileId → Prop}
  {migs : List Migration} (hok : EditsOk done metas migs migs)

include hc hn hok in
theorem editOk_toEdit {file : MetaFile} (hfile : file ∈ metas) {input : LogFileId → Prop} {r : ExpiringFilesOfMeta}
    (h : Expires input file ((fromMigrations migs).applyTo file).physicalFiles r) {mig : Migration}
    (hr : r.toEdit ∈ mig.editMeta) : EditOk input (migs ++ [mig]) file r.toEdit := by
  have hedited : EditedBy (migs ++ [mig]) file.name r.toEdit :=
    ⟨⟨mig, mem_append_right _ (mem_singleton.2 rfl), hr⟩, h.metaPath⟩
  -- a log file of a physical file that is covered is retired by this edit, and one that is not loaded by another
  have hgone : ∀ f ∈ file.logs,
      (∃ p' ∈ ((fromMigrations migs).applyTo file).physicalFiles, p'.name = f.id.name ∧ f ∈ p'.files) ∨
        Retired (migs ++ [mig]) file f.id := by
    intro f hf
    obtain ⟨p, hp, hfp⟩ := mem_flatMap.1 hf
    rcases kept_or_named migs hp hfp with ⟨p', hp', hname, hfp'⟩ | ⟨em, hem, hnames⟩
    · exact .inl ⟨p', hp', hname.trans ((hc.files file hfile p hp).bounds.2 f hfp).1.symm, hfp'⟩
    · exact .inr ((retired_of_named hc hn hfile hok hf hem hnames).append [mig])
  refine ⟨h.logs, fun d hd span hspan => ?_, fun hd f hf => ?_, fun hd f hf hdata => ?_⟩
  · obtain ⟨x, hx, rfl⟩ := mem_map.1 hd
    exact h.spans x.1 x.2 (Map.mem_entries.1 hx) span hspan
  · rcases hgone f hf with ⟨p', hp', hname, -⟩ | hret
    · exact ⟨r.toEdit, hedited, .inl (hname ▸ h.destructSelf hd p' hp')⟩
    · exact hret
  · rcases hgone f hf with ⟨p', hp', hname, hfp'⟩ | hret
    · rcases h.allDataFilesCompacted hd p' hp' with hlog | hmeta
      · exact ⟨r.toEdit, hedited, .inl (hname ▸ hlog)⟩
      rw [hmeta f hfp'] at hdata
      cases hdata
    · exact hret

end Written

theorem mapM_some {α β : Type} {f : α → Option β} {P : α → β → Prop} : ∀ {l : List α},
    (∀ x ∈ l, ∃ y, f x = some y ∧ P x y) → ∃ ys, l.mapM f = some ys ∧ ∀ y ∈ ys, ∃ x ∈ l, P x y
  | [], _ => ⟨[], rfl, nofun⟩
  | x :: l, h => by
    obtain ⟨y, hy, hP⟩ := h x mem_cons_self
    obtain ⟨ys, hys, hall⟩ := mapM_some fun z hz => h z (mem_cons_of_mem _ hz)
    refine ⟨y :: ys, ?_, forall_mem_cons.2 ⟨⟨x, mem_cons_self, hP⟩, fun z hz => ?_⟩⟩
    · rw [mapM_cons, hy, hys]
      rfl
    · obtain ⟨w, hw, hPw⟩ := hall z hz
      exact ⟨w, mem_cons_of_mem _ hw, hPw⟩

/-! ## Every run -/

def Archives (s : Archive) (ev : Event) : Prop := Concatenated (s.metas ++ ev.added)

def ArchivesNonEmpty (s : Archive) (ev : Event) : Prop := Archives s ev ∧ NonEmpty (s.metas ++ ev.added)

structure Archive.RetiresCompacted (s : Archive) : Prop where
  concatenated : Concatenated s.metas
  nonEmpty : NonEmpty s.metas
  edits : EditsOk (· ∈ s.compacted) s.metas s.migs s.migs

/-- **What a run of the compaction owes**: `s'` is the state after it. -/
structure Sound (s : Archive) (e : Execution) (s' : Archive) : Prop where
  /-- each data file in the range that was not retired is an input once -/
  once : ∀ m ∈ s.metas, ∀ f ∈ m.logs, f.isMeta = false → e.fromTs ≤ f.maxTs → f.minTs ≤ e.untilTs →
    ¬ Retired s.migs m f.id → ((s.subcompactions e).map fun c => occurs f.id c.inputs).sum = 1
  /-- the inputs of a subcompaction are of one region, table, column family and type -/
  grouped : ∀ c ∈ s.subcompactions e, ∀ i ∈ c.inputs, ∃ m ∈ s.metas, ∃ f ∈ m.logs,
    toInput f = i ∧ f.isMeta = false ∧ SubcompactionCollectKey.byFile f = c.subcKey
  /-- the migration retires only inputs of finished subcompactions -/
  edits : ∃ new, s'.migs = s.migs ++ new ∧ EditsOk (InputOf (s.finished e)) s'.metas s'.migs new
  /-- what a later run does not see was compacted -/
  unseen : ∀ m ∈ s'.metas, ∀ f ∈ m.logs, f.isMeta = false →
    f ∉ (load (MetaEditFilters.fromMigrations s'.migs) s'.metas).flatMap (·.logs) → f.id ∈ s'.compacted

variable {added : List MetaFile}

theorem EditsOk.mono {done done' : LogFileId → Prop} {metas : List MetaFile} {edits : List Migration}
    (h : EditsOk done metas migs edits) (hdone : ∀ id, done id → done' id) (added : List MetaFile) :
    EditsOk done' (metas ++ added) (migs ++ new) edits := by
  intro mig hmig em hem
  obtain ⟨file, hfile, hname, hedit⟩ := h mig hmig em hem
  exact ⟨file, mem_append_left _ hfile, hname, hedit.mono new hdone⟩

variable (s : Archive) (e : Execution)

theorem input_of_subcompactions : ∀ c ∈ s.subcompactions e, ∀ i ∈ c.inputs,
    ∃ m ∈ s.metas, ∃ f ∈ m.logs, toInput f = i ∧ f.isMeta = false ∧ SubcompactionCollectKey.byFile f = c.subcKey := by
  refine collect_of_taken (P := fun key i => ∃ m ∈ s.metas, ∃ f ∈ m.logs,
    toInput f = i ∧ f.isMeta = false ∧ SubcompactionCollectKey.byFile f = key) fun f hf hskip => ?_
  have hf' := (logs_load_sublist _ s.metas).subset hf
  obtain ⟨m, hm, hfm⟩ := mem_flatMap.1 hf'
  refine ⟨m, hm, f, hfm, rfl, ?_, rfl⟩
  cases hmeta : f.isMeta with
  | false => rfl
  | true =>
    unfold CollectSubcompactionConfig.skips at hskip
    rw [hmeta] at hskip
    cases hskip

theorem mem_of_inputOf (h : InputOf (s.finished e) id) : ∃ m ∈ s.metas, ∃ f ∈ m.logs, f.id = id := by
  obtain ⟨c, hc, i, hi, rfl⟩ := h
  obtain ⟨m, hm, f, hf, rfl, -⟩ := input_of_subcompactions s e c (mem_filter.1 hc).1 i hi
  exact ⟨m, hm, f, hf, rfl⟩

variable {s}

section

variable (h : s.RetiresCompacted)
include h

theorem Archive.RetiresCompacted.once {m : MetaFile} (hm : m ∈ s.metas) {f : LogFile} (hf : f ∈ m.logs)
    (hdata : f.isMeta = false) (hfrom : e.fromTs ≤ f.maxTs) (huntil : f.minTs ≤ e.untilTs)
    (hret : ¬ Retired s.migs m f.id) : ((s.subcompactions e).map fun c => occurs f.id c.inputs).sum = 1 := by
  unfold Archive.subcompactions
  rw [count_collect]
  have hsub := (filter_sublist (p := fun g => !e.cfg.skips g)).trans
    (logs_load_sublist (.fromMigrations s.migs) s.metas)
  refine count_eq_one_of_mem ((h.concatenated.nodup h.nonEmpty).sublist (hsub.map _)) (mem_map.2 ⟨f, ?_, rfl⟩)
  refine mem_filter.2 ⟨?_, ?_⟩
  · by_contra hun
    exact hret (retired_of_unseen h.concatenated h.nonEmpty hm h.edits hf hdata hun)
  · have hskip : e.cfg.skips f = false := by
      unfold CollectSubcompactionConfig.skips
      rw [hdata, Bool.false_or, Bool.or_eq_false_iff, decide_eq_false_iff_not, decide_eq_false_iff_not]
      exact ⟨not_lt.2 hfrom, not_lt.2 huntil⟩
    rw [hskip]
    rfl

section

variable (hc : Concatenated (s.metas ++ added)) (hn : NonEmpty (s.metas ++ added))
include hc hn

theorem Archive.RetiresCompacted.writeMigration :
    ∃ new, s.writeMigration e (s.metas ++ added) = some new ∧
      EditsOk (InputOf (s.finished e)) (s.metas ++ added) (s.migs ++ new) new := by
  unfold Archive.writeMigration
  split
  · exact ⟨[], rfl, nofun⟩
  have hok : EditsOk (· ∈ s.compacted) (s.metas ++ added) s.migs s.migs := by
    have := h.edits.mono [] (fun _ => id) added
    rwa [append_nil] at this
  have hin : ∀ id, InputOf (s.finished e) id → ∃ m ∈ s.metas ++ added, ∃ f ∈ m.logs, f.id = id := by
    intro id hid
    obtain ⟨m, hm, hf⟩ := mem_of_inputOf s e hid
    exact ⟨m, mem_append_left _ hm, hf⟩
  have hexp : ∀ m' ∈ load (.fromMigrations s.migs) (s.metas ++ added), ∃ r, (s.runInfo e).expiring m' = some r ∧
      ∃ file ∈ s.metas ++ added, Expires (InputOf (s.finished e)) file
        ((fromMigrations s.migs).applyTo file).physicalFiles r := by
    intro m' hm'
    obtain ⟨file, hfile, rfl⟩ := mem_map.1 hm'
    have hfile := (mem_filter.1 hfile).1
    obtain ⟨r, hr, hexp⟩ := expires_expiring hc hn hin (filesOk_runInfo s e) hfile _
    exact ⟨r, hr, file, hfile, hexp⟩
  obtain ⟨rs, hrs, hall⟩ := mapM_some hexp
  rw [hrs]
  refine ⟨_, rfl, fun mig hmig em hem => ?_⟩
  rw [mem_singleton.1 hmig] at hem
  obtain ⟨r, hr, rfl⟩ := mem_map.1 hem
  obtain ⟨-, -, file, hfile, hexp⟩ := hall r (mem_filter.1 hr).1
  exact ⟨file, hfile, hexp.metaPath.symm, editOk_toEdit hc hn hok hfile hexp hem⟩

/-- **One run of the compaction** does what it owes, and keeps what the next relies on. -/
theorem Archive.RetiresCompacted.runPrepared :
    ∃ s', s.runPrepared e added = some s' ∧ s'.RetiresCompacted ∧ Sound s e s' := by
  obtain ⟨new, hnew, hedits⟩ := h.writeMigration e hc hn
  unfold Archive.runPrepared
  rw [hnew]
  refine ⟨_, rfl, ?_⟩
  have hok : EditsOk (· ∈ (s.finished e).flatMap (fun c => c.inputs.map (·.id)) ++ s.compacted) (s.metas ++ added)
      (s.migs ++ new) (s.migs ++ new) := by
    intro mig hmig em hem
    rcases mem_append.1 hmig with hmig | hmig
    · exact h.edits.mono new (fun _ => mem_append_right _) added mig hmig em hem
    obtain ⟨file, hfile, hname, hedit⟩ := hedits mig hmig em hem
    refine ⟨file, hfile, hname, ?_⟩
    rw [← append_nil (s.migs ++ new)]
    refine hedit.mono [] fun id hid => mem_append_left _ ?_
    obtain ⟨c, hcs, i, hi, hid⟩ := hid
    exact mem_flatMap.2 ⟨c, hcs, mem_map.2 ⟨i, hi, hid⟩⟩
  refine ⟨⟨hc, hn, hok⟩, fun m hm f hf => h.once e hm hf, input_of_subcompactions s e, ⟨new, rfl, hedits⟩, ?_⟩
  exact fun m hm f hf hdata hun => done_of_retired hc hm hok hf (retired_of_unseen hc hn hm hok hf hdata hun)

end

theorem Archive.RetiresCompacted.step {s' : Archive} {ev : Event} (hev : ArchivesNonEmpty s ev)
    (hstep : s.Step ev s') : s'.RetiresCompacted := by
  cases ev with
  | flush file =>
    cases hstep
    have hedits := h.edits.mono [] (fun _ => id) [file]
    rw [append_nil] at hedits
    exact ⟨hev.1, hev.2, hedits⟩
  | compact e added =>
    obtain ⟨s'', hs'', hok, -⟩ := h.runPrepared e hev.1 hev.2
    have hsame : s'' = s' := Option.some.inj (hs''.symm.trans hstep)
    exact hsame ▸ hok

end

def Archive.empty : Archive := ⟨[], [], []⟩

theorem retiresCompacted_empty : Archive.empty.RetiresCompacted where
  concatenated := ⟨fun _ h => (nomatch h), nodup_nil, nodup_nil⟩
  nonEmpty := nofun
  edits := nofun

/-- **A compaction retires only what it compacted**, after every run in which no log file is empty. -/
theorem sound_of_run {l : List Event} {s : Archive} (hrun : Run Archive.Step ArchivesNonEmpty .empty l s)
    (e : Execution) (added : List MetaFile) (hev : ArchivesNonEmpty s (.compact e added)) :
    ∃ s', s.runPrepared e added = some s' ∧ Sound s e s' := by
  have hok : s.RetiresCompacted := hrun.invariant (fun _ _ _ h hev hstep => h.step hev hstep) retiresCompacted_empty
  obtain ⟨s', hs', -, hsound⟩ := hok.runPrepared e hev.1 hev.2
  exact ⟨s', hs', hsound⟩

/-! ## Two log files of a physical file -/

def logOf (offset length ts : Nat) : LogFile :=
  ⟨⟨[112], offset, length⟩, 100, 1, 0, 1, [], ts, ts, none, none, none, false, .put, 1⟩

def metaOf (first second : Nat) : MetaFile :=
  ⟨[109], [⟨first + second, [112], [logOf 0 first 5, logOf first second 20]⟩]⟩

def upTo (ts : Nat) : Execution := ⟨0, ts, 1000, fun _ => none⟩

def compactedTo10 (first second : Nat) : Archive :=
  ⟨[metaOf first second],
    [⟨[⟨[109], [], [⟨[112], [⟨0, first⟩], first + second⟩], false, false⟩], [⟨5, 5, 0, 10⟩]⟩], [⟨[112], 0, first⟩]⟩

theorem concatenated_metaOf (first second : Nat) : Concatenated [metaOf first second] where
  files m hm p hp := by
    cases mem_singleton.1 hm
    cases mem_singleton.1 hp
    exact ⟨rfl, rfl, rfl, (zero_add first).symm, congrArg (· + second) (zero_add first)⟩
  names := nodup_singleton _
  physical := nodup_singleton _

theorem sound_of_run_two : ∃ s', (compactedTo10 4 6).runPrepared (upTo 30) [] = some s' ∧
    Sound (compactedTo10 4 6) (upTo 30) s' := by
  have hne : NonEmpty [metaOf 4 6] := by
    unfold NonEmpty
    decide
  have hev : ArchivesNonEmpty .empty (.flush (metaOf 4 6)) := ⟨concatenated_metaOf 4 6, hne⟩
  have hrun : Run Archive.Step ArchivesNonEmpty .empty [.flush (metaOf 4 6), .compact (upTo 10) []]
      (compactedTo10 4 6) :=
    .cons hev rfl (.cons ⟨concatenated_metaOf 4 6, hne⟩ (by rfl) (.nil _))
  exact sound_of_run hrun (upTo 30) [] ⟨concatenated_metaOf 4 6, hne⟩

/-- **An empty log file hides the one behind it**: the run that retires it retires its offset, and the data file that
begins there is not seen by any later run, though it was never compacted. -/
theorem not_once : ∃ l s, Run Archive.Step Archives .empty l s ∧ ∃ m ∈ s.metas, ∃ f ∈ m.logs, f.isMeta = false ∧
    ¬ Retired s.migs m f.id ∧ f.id ∉ s.compacted ∧
    f ∉ (load (MetaEditFilters.fromMigrations s.migs) s.metas).flatMap (·.logs) ∧
    (upTo 30).fromTs ≤ f.maxTs ∧ f.minTs ≤ (upTo 30).untilTs ∧
    ((s.subcompactions (upTo 30)).map fun c => occurs f.id c.inputs).sum = 0 := by
  have hrun : Run Archive.Step Archives .empty [.flush (metaOf 0 6), .compact (upTo 10) []] (compactedTo10 0 6) :=
    .cons (concatenated_metaOf 0 6) rfl (.cons (concatenated_metaOf 0 6) (by rfl) (.nil _))
  refine ⟨_, _, hrun, metaOf 0 6, mem_singleton.2 rfl, logOf 0 6 20, by decide, rfl, ?_, by decide, by decide,
    by decide, by decide, by decide⟩
  rintro ⟨em, ⟨⟨mig, hmig, hem⟩, -⟩, hr⟩
  cases mem_singleton.1 hmig
  cases mem_singleton.1 hem
  rcases hr with hr | ⟨d, hd, -, hspan⟩
  · cases hr
  cases mem_singleton.1 hd
  cases mem_singleton.1 hspan

end Compact
end Tikv
