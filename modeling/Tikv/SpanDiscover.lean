import Tikv.SpanRegistry
import Tikv.LibRun
import Mathlib.Data.Nat.Digits.Defs
/-!
# SpanDiscover — tables found by polling DDL jobs (`span_ctl/resolver.rs`)

`discoverNewSpans` asks the source for its newest DDL job and, when that is new, for its tables.  The job is noted before
the tables are known, and the polls before the first job only add tables.  In a run where the tables are known at every
new job, and none seen earlier is gone at the first, what is noted is never ahead of the tables (`discovered_of_run`).
-/
namespace Tikv
namespace Span

open Lib

def decimal (n : Nat) : Bytes :=
  if n = 0 then [0x30] else (Nat.digits 10 n).reverse.map fun d => UInt8.ofNat (48 + d)

def formatKeyPrefix (tableId : Int) : Bytes :=
  [0x74, 0x5f] ++ ((if tableId < 0 then [0x2d] else []) ++ (decimal tableId.natAbs ++ [0x5f]))

def formatKeyEnd (tableId : Int) : Bytes := formatKeyPrefix ((tableId + 1).bmod (2 ^ 64))

def makeSpanForTable (tableId : Int) : ReplicationSpan :=
  .new tableId (formatKeyPrefix tableId) (formatKeyEnd tableId)

structure Discovery where
  registry : SpanRegistry
  lastSeenDdlJobId : Int
  tableCache : Map Int String

/-- What the source answers to the two queries of a poll; `none` is a query that fails. -/
structure Poll where
  maxDdlJobId : Option Int
  currentTables : Option (List (Int × String))

def Poll.currentMax (p : Poll) : Int := p.maxDdlJobId.getD 0

namespace Discovery

def new : Discovery := ⟨.new, 0, ∅⟩

def create (d : Discovery) (table : Int × String) : Discovery :=
  { d with
    registry := d.registry.upsertSpan (makeSpanForTable table.1)
    tableCache := d.tableCache.insert table.1 table.2 }

def drop (d : Discovery) (tableId : Int) : Discovery :=
  { d with registry := (d.registry.removeSpan tableId).1, tableCache := AList.erase tableId d.tableCache }

def diff (d : Discovery) (current : List (Int × String)) : Discovery × List (Int × String) :=
  let cached := d.tableCache.keys
  let created := current.filter fun t => decide (t.1 ∉ cached)
  (created.foldl create ((cached.filter fun t => decide (t ∉ current.map Prod.fst)).foldl drop d), created)

def discoverNewSpans (d : Discovery) (p : Poll) : Discovery × List ReplicationSpan :=
  if d.lastSeenDdlJobId = 0 then
    match p.currentTables with
    | none => (d, [])
    | some current =>
      ({ current.foldl create d with lastSeenDdlJobId := p.currentMax }, current.map fun t => makeSpanForTable t.1)
  else if p.currentMax ≤ d.lastSeenDdlJobId then (d, [])
  else
    -- the job is noted first, and stays noted when the tables cannot be read
    let d := { d with lastSeenDdlJobId := p.currentMax }
    match p.currentTables with
    | none => (d, [])
    | some current => ((d.diff current).1, (d.diff current).2.map fun t => makeSpanForTable t.1)

def poll (d : Discovery) (p : Poll) : Discovery := (d.discoverNewSpans p).1

end Discovery

/-! ## The source -/

structure Source where
  finished : Nat → Int → Prop
  tables : Nat → Set Int
  finished_mono : ∀ {t t' job}, t ≤ t' → finished t job → finished t' job

/-- The newest job is read at one moment and the tables at the same or a later one. -/
def Source.Answers (src : Source) (p : Poll) : Prop :=
  ∃ t t', t ≤ t' ∧ (∀ job, p.maxDdlJobId = some job → 0 < job → src.finished t job) ∧
    ∀ current, p.currentTables = some current → ∀ id, id ∈ current.map Prod.fst ↔ id ∈ src.tables t'

namespace Discovery

/-- Cache and spans are the source's tables at a moment when the noted job is finished. -/
def Current (src : Source) (d : Discovery) : Prop :=
  0 < d.lastSeenDdlJobId → ∃ t, src.finished t d.lastSeenDdlJobId ∧
    ∀ id, (id ∈ d.tableCache ↔ id ∈ src.tables t) ∧ (id ∈ d.registry.spans ↔ id ∈ src.tables t)

/-- A poll that notes a job reads the tables, and at the first job no table seen before it is gone. -/
def ReadsTables (d : Discovery) (p : Poll) : Prop :=
  d.lastSeenDdlJobId < p.currentMax → 0 < p.currentMax →
    if d.lastSeenDdlJobId = 0 then
      ∀ current, p.currentTables = some current → ∀ id ∈ d.tableCache, id ∈ current.map Prod.fst
    else p.currentTables ≠ none

def Matched (d : Discovery) : Prop := ∀ id, id ∈ d.tableCache ↔ id ∈ d.registry.spans

variable {d : Discovery} {src : Source} {p : Poll} {id : Int}

theorem Matched.create (h : d.Matched) (table : Int × String) : (d.create table).Matched := fun id => by
  have hid := h id
  simp [Discovery.create, SpanRegistry.upsertSpan, makeSpanForTable, ReplicationSpan.new, hid]

theorem mem_spans_drop (tableId : Int) :
    id ∈ (d.drop tableId).registry.spans ↔ id ≠ tableId ∧ id ∈ d.registry.spans := by
  simp only [drop, SpanRegistry.removeSpan]
  cases hspan : d.registry.spans.lookup tableId with
  | none =>
    refine ⟨fun h => ⟨?_, h⟩, And.right⟩
    rintro rfl
    exact AList.lookup_eq_none.1 hspan h
  | some span => exact AList.mem_erase

theorem Matched.drop (h : d.Matched) (tableId : Int) : (d.drop tableId).Matched := fun id => by
  rw [mem_spans_drop, ← h id]
  exact AList.mem_erase

variable (tables current : List (Int × String))

theorem mem_creates : id ∈ (tables.foldl create d).tableCache ↔ id ∈ tables.map Prod.fst ∨ id ∈ d.tableCache := by
  induction tables generalizing d with
  | nil => simp
  | cons table tables ih =>
    rw [List.foldl_cons, ih]
    simp [create, or_assoc, or_left_comm]

theorem mem_drops (tableIds : List Int) :
    id ∈ (tableIds.foldl drop d).tableCache ↔ id ∉ tableIds ∧ id ∈ d.tableCache := by
  induction tableIds generalizing d with
  | nil => simp
  | cons tableId tableIds ih =>
    rw [List.foldl_cons, ih]
    simp [drop, and_assoc, and_left_comm]

theorem mem_diff : id ∈ (d.diff current).1.tableCache ↔ id ∈ current.map Prod.fst := by
  simp only [diff, mem_creates, mem_drops]
  by_cases hid : id ∈ d.tableCache <;> simp [← AList.mem_keys, hid]

theorem lastSeen_diff : (d.diff current).1.lastSeenDdlJobId = d.lastSeenDdlJobId :=
  let Same (d' : Discovery) : Prop := d'.lastSeenDdlJobId = d.lastSeenDdlJobId
  List.foldlRecOn (motive := Same) _ create (List.foldlRecOn (motive := Same) _ drop rfl fun _ h _ _ => h) fun _ h _ _ => h

theorem Matched.creates (h : d.Matched) : (tables.foldl Discovery.create d).Matched :=
  List.foldlRecOn _ _ h fun _ hd _ _ => hd.create _

theorem Matched.diff (h : d.Matched) : (d.diff current).1.Matched :=
  Matched.creates _ (List.foldlRecOn _ _ h fun _ hd _ _ => hd.drop _)

theorem current_of_read (hmatched : d.Matched) (hanswers : src.Answers p) (hseen : d.lastSeenDdlJobId = p.currentMax)
    {current : List (Int × String)} (hread : p.currentTables = some current)
    (hcache : 0 < p.currentMax → ∀ id, id ∈ d.tableCache ↔ id ∈ current.map Prod.fst) : d.Current src := by
  obtain ⟨t, t', ht, hjob, htables⟩ := hanswers
  intro hpos
  rw [hseen] at hpos ⊢
  obtain ⟨job, hmax⟩ : ∃ job, p.maxDdlJobId = some job := by
    cases hmax : p.maxDdlJobId with
    | none => simp [Poll.currentMax, hmax] at hpos
    | some job => exact ⟨job, rfl⟩
  have hnow : p.currentMax = job := by simp [Poll.currentMax, hmax]
  refine ⟨t', src.finished_mono ht (hnow ▸ hjob job hmax (hnow ▸ hpos)), fun id => ?_⟩
  have hid := (hcache hpos id).trans (htables current hread id)
  exact ⟨hid, (hmatched id).symm.trans hid⟩

theorem poll_current (h : d.Matched ∧ d.Current src) (hanswers : src.Answers p) (hreads : d.ReadsTables p) :
    (d.poll p).Matched ∧ (d.poll p).Current src := by
  obtain ⟨hmatched, hcurrent⟩ := h
  unfold poll discoverNewSpans
  split
  · rename_i hzero
    cases hread : p.currentTables with
    | none => exact ⟨hmatched, hcurrent⟩
    | some current =>
      have hcreates : Matched { current.foldl create d with lastSeenDdlJobId := p.currentMax } := hmatched.creates current
      refine ⟨hcreates, current_of_read hcreates hanswers rfl hread fun hpos id => ?_⟩
      have hkeeps := hreads (hzero ▸ hpos) hpos
      rw [if_pos hzero] at hkeeps
      exact (mem_creates current).trans (or_iff_left_of_imp (hkeeps current hread id))
  · rename_i hzero
    split
    · exact ⟨hmatched, hcurrent⟩
    rename_i hle
    cases hread : p.currentTables with
    | none =>
      -- the job is noted and the tables are not read, so the job is no positive one
      refine ⟨hmatched, fun hpos => absurd hread ?_⟩
      have hreads := hreads (not_le.1 hle) hpos
      rwa [if_neg hzero] at hreads
    | some current =>
      have hnoted : Matched { d with lastSeenDdlJobId := p.currentMax } := hmatched
      refine ⟨hnoted.diff current, current_of_read (hnoted.diff current) hanswers (lastSeen_diff current) hread ?_⟩
      exact fun _ _ => mem_diff current

/-- **No change is lost where the tables are read**: in a run whose polls the source answers, and of which each that notes
a job reads the tables, the cache and the spans are always those of a moment when the noted job is finished. -/
theorem discovered_of_run (src : Source) (l : List Poll) (d : Discovery)
    (h : Run (stepOf poll) (fun d p => src.Answers p ∧ d.ReadsTables p) new l d) : d.Current src := by
  refine (Run.invariant (I := fun d => d.Matched ∧ d.Current src) ?_ h ⟨fun id => ?_, ?_⟩).2
  · rintro s p s' hs ⟨hanswers, hreads⟩ rfl
    exact poll_current hs hanswers hreads
  · simp [new, SpanRegistry.new]
  · intro hpos
    simp [new] at hpos

def twoJobs : Source where
  finished t job := job = 5 ∨ job = 6 ∧ 1 ≤ t
  tables t := {id | id = 1 ∨ id = 2 ∧ 1 ≤ t}
  finished_mono ht h := h.imp_right fun ⟨h, h1⟩ => ⟨h, h1.trans ht⟩

def firstPoll : Poll := ⟨some 5, some [(1, "a")]⟩

theorem twoJobs_firstPoll : twoJobs.Answers firstPoll := by
  refine ⟨0, 0, le_rfl, ?_, ?_⟩
  · rintro job hjob -
    exact .inl (Option.some.inj hjob).symm
  · rintro current hcurrent id
    obtain rfl := Option.some.inj hcurrent
    simp [twoJobs]

/-- Job 6 is noted by a poll that cannot read the tables, and table 2 is never found. -/
theorem newJob_unread :
    ∃ d, Run (stepOf poll) (fun _ p => twoJobs.Answers p) new [firstPoll, ⟨some 6, none⟩] d ∧ ¬ d.Current twoJobs := by
  refine ⟨_, .cons twoJobs_firstPoll rfl (.cons ⟨1, 1, le_rfl, ?_, nofun⟩ rfl (.nil _)), fun h => ?_⟩
  · rintro job hjob -
    exact .inr ⟨(Option.some.inj hjob).symm, le_rfl⟩
  · obtain ⟨t, hfinished, htables⟩ := h (by decide)
    have ht : 1 ≤ t := (hfinished.resolve_left (by decide)).2
    exact absurd ((htables 2).1.2 (.inr ⟨rfl, ht⟩)) (by decide)

def secondPoll : Poll := ⟨some 6, some [(1, "a"), (2, "b")]⟩

theorem discovered_secondPoll : ((new.poll firstPoll).poll secondPoll).lastSeenDdlJobId = 6 ∧
    2 ∈ ((new.poll firstPoll).poll secondPoll).tableCache ∧ ((new.poll firstPoll).poll secondPoll).Current twoJobs := by
  refine ⟨rfl, by decide, discovered_of_run twoJobs [firstPoll, secondPoll] _
    (.cons ⟨twoJobs_firstPoll, fun _ _ => ?_⟩ rfl (.cons ⟨⟨1, 1, le_rfl, ?_, ?_⟩, fun _ _ => ?_⟩ rfl (.nil _)))⟩
  · simp [new]
  · rintro job hjob -
    exact .inr ⟨(Option.some.inj hjob).symm, le_rfl⟩
  · rintro current hcurrent id
    obtain rfl := Option.some.inj hcurrent
    simp [twoJobs]
  · exact Option.some_ne_none _

end Discovery
end Span
end Tikv
