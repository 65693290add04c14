import NimbusVault.Linearizable
import NimbusVault.Lib.Csv
import NimbusVault.Lib.Kv
import NimbusVault.Lib.Text

/-!
# HistoryTracer — from a run to the checker's verdict

`HistoryTracer` writes one CSV row for every operation of a run, `load_history` reads the rows back
into one history for every chunk, and `check_history` counts the verdicts.  The rows have no `data`
column, which is where the loader looks for the values: it finds none.  So the checker accepts every
recorded run, but for operations at the same instant, and `accepts_recorded_sound` says what is left of
its verdict.
-/

namespace NimbusVault

open Lib

/-! ### The tracer -/

structure OpRecord where
  type : OpType
  chunkId : Str
  startUs : UInt64
  latencyUs : UInt64
  ok : Bool
  bytes : UInt64
  tier : Str
  deriving DecidableEq

/-- The contents of the file, if it could be opened, and the records in memory. -/
structure HistoryTracer where
  file : Option Str
  records : List OpRecord := []

def opToStr : OpType → Str
  | .put => "PUT".toList
  | .get => "GET".toList
  | .delete => "DELETE".toList

def columns : List Str :=
  ["timestamp_us", "op_type", "chunk_id", "latency_us", "ok", "bytes", "tier"].map String.toList

namespace HistoryTracer

/-- The constructor, for a file that can be opened. -/
def opened : HistoryTracer := { file := some (Csv.line columns) }

def record (t : HistoryTracer) (r : OpRecord) : HistoryTracer where
  file := t.file.map (· ++ Csv.line [Text.decimal r.startUs.toNat, opToStr r.type, r.chunkId,
    Text.decimal r.latencyUs.toNat, if r.ok then ['1'] else ['0'], Text.decimal r.bytes.toNat, r.tier])
  records := t.records ++ [r]

def recordTierChange (t : HistoryTracer) (chunkId fromTier toTier : Str) (tsUs : UInt64) :
    HistoryTracer :=
  { t with file := t.file.map (· ++ Csv.line [Text.decimal tsUs.toNat, "TIER_CHANGE".toList, chunkId,
    ['0'], ['1'], ['0'], fromTier ++ "->".toList ++ toTier]) }

end HistoryTracer

/-! ### The loader and its report -/

def parseOpType (s : Option Str) : Option OpType :=
  if s = some "PUT".toList then some .put
  else if s = some "GET".toList then some .get
  else if s = some "DELETE".toList then some .delete
  else none

/-- The histories by chunk id.  `⊥` is the key `None`, of rows without that cell. -/
abbrev Histories := Kv (WithBot Str) (List Op)

def appendOp (op : Op) (ops : Option (List Op)) : Option (List Op) := some (ops.getD [] ++ [op])

/-- One row; `none` where `int` raises. -/
def loadRow (header : List Str) (history : Histories) (row : List Str) : Option Histories :=
  let cell (key default : String) := Csv.cell header row key.toList default.toList
  match parseOpType (cell "op_type" "") with
  | none => some history
  | some opType => do
    let chunkId : WithBot Str := cell "chunk_id" ""
    let startUs ← (cell "timestamp_us" "0").bind Text.pyInt
    let latency ← (cell "latency_us" "0").bind Text.pyInt
    let ok := cell "ok" "1" = some ['1']
    -- a missing cell is `None`, which the checker takes for no value, as it does the empty text
    let value := (cell "data" "").getD []
    some (history.alter chunkId (appendOp ⟨startUs, startUs + latency, opType, value, ok⟩))

def loadHistory (text : Str) : Option Histories := do
  let rows ← Csv.readAll text
  (Csv.dictRows rows).foldlM (loadRow (rows.headD [])) Kv.empty

structure CheckCounts where
  passed : ℕ := 0
  failed : ℕ := 0
  skipped : ℕ := 0
  deriving DecidableEq

/-- A history with more operations than the limit is skipped. -/
def Skipped (maxOps : Option ℤ) (ops : List Op) : Prop := ∃ m ∈ maxOps, m < ops.length

instance (maxOps : Option ℤ) (ops : List Op) : Decidable (Skipped maxOps ops) :=
  match maxOps with
  | none => .isFalse fun ⟨_, h, _⟩ => by simp at h
  | some m => decidable_of_iff (m < ops.length) (by simp [Skipped])

def countChunk (maxOps : Option ℤ) (c : CheckCounts) (ops : List Op) : CheckCounts :=
  if Skipped maxOps ops then { c with skipped := c.skipped + 1 }
  else if isLinearizableRegister ops then { c with passed := c.passed + 1 }
  else { c with failed := c.failed + 1 }

/-- The report; `none` where the key `None` cannot be sorted among the others. -/
def checkHistory (history : Histories) (maxOps : Option ℤ) : Option CheckCounts :=
  if 2 ≤ history.entries.length ∧ ⊥ ∈ history.keys then none
  else some ((history.entries.map Prod.snd).foldl (countChunk maxOps) {})

/-- The verdict on a CSV file: "LINEARIZABLE". -/
def reportsLinearizable (maxOps : Option ℤ) (text : Str) : Bool :=
  ((loadHistory text).bind (checkHistory · maxOps)).any (·.failed = 0)

/-! ### Recorded runs -/

/-- An operation of a run, with the data that it wrote or returned. -/
structure TracedOp where
  opType : OpType
  chunkId : Str
  startUs : UInt64
  latencyUs : UInt64
  ok : Bool
  data : Str
  tier : Str
  deriving DecidableEq

inductive TracerEvent
  | op (o : TracedOp)
  | tierChange (chunkId fromTier toTier : Str) (tsUs : UInt64)
  deriving DecidableEq

/-- What is recorded of an operation: the number of its bytes, not the bytes. -/
def TracedOp.toRecord (o : TracedOp) : OpRecord :=
  ⟨o.opType, o.chunkId, o.startUs, o.latencyUs, o.ok, UInt64.ofNat o.data.length, o.tier⟩

/-- The operation as it happened. -/
def TracedOp.toOp (o : TracedOp) : Op :=
  ⟨o.startUs.toNat, o.startUs.toNat + o.latencyUs.toNat, o.opType, o.data, o.ok⟩

def TracerEvent.trace (t : HistoryTracer) : TracerEvent → HistoryTracer
  | .op o => t.record o.toRecord
  | .tierChange chunkId fromTier toTier tsUs => t.recordTierChange chunkId fromTier toTier tsUs

/-- The ids and tiers in the run need no quotes in a CSV file. -/
def TracerEvent.Plain : TracerEvent → Prop
  | .op o => Csv.Plain o.chunkId ∧ Csv.Plain o.tier
  | .tierChange chunkId fromTier toTier _ =>
    Csv.Plain chunkId ∧ Csv.Plain (fromTier ++ "->".toList ++ toTier)

def recordedCsv (run : List TracerEvent) : Str :=
  ((run.foldl TracerEvent.trace .opened).file).getD []

def TracerEvent.op? : TracerEvent → Option TracedOp
  | .op o => some o
  | .tierChange .. => none

/-- The operations of the run on one chunk. -/
def chunkOps (run : List TracerEvent) (chunkId : Str) : List Op :=
  ((run.filterMap TracerEvent.op?).filter (·.chunkId = chunkId)).map TracedOp.toOp

/-- The run was linearizable, chunk by chunk. -/
def RunLinearizable (run : List TracerEvent) : Prop := ∀ chunkId, Linearizable (chunkOps run chunkId)

/-! ### What the loader reads of a recorded run -/

/-- The cells of an event's row. -/
def TracerEvent.row : TracerEvent → List Str
  | .op o => [Text.decimal o.startUs.toNat, opToStr o.opType, o.chunkId,
      Text.decimal o.latencyUs.toNat, if o.ok then ['1'] else ['0'],
      Text.decimal (UInt64.ofNat o.data.length).toNat, o.tier]
  | .tierChange chunkId fromTier toTier tsUs => [Text.decimal tsUs.toNat, "TIER_CHANGE".toList, chunkId,
      ['0'], ['1'], ['0'], fromTier ++ "->".toList ++ toTier]

variable {run : List TracerEvent} {e : TracerEvent} {o : TracedOp} {chunkId : Str}

/-- Every event adds its row to the file. -/
theorem trace_file (t : HistoryTracer) (e : TracerEvent) :
    (e.trace t).file = t.file.map (· ++ Csv.line e.row) := by
  cases e <;> rfl

theorem recordedCsv_eq (run : List TracerEvent) :
    recordedCsv run = (columns :: run.map TracerEvent.row).flatMap Csv.line := by
  have hfile : ∀ (run : List TracerEvent) (t : HistoryTracer) (text : Str), t.file = some text →
      (run.foldl TracerEvent.trace t).file =
        some (text ++ (run.map TracerEvent.row).flatMap Csv.line) := by
    intro run
    induction run with
    | nil => intro t text h; simpa using h
    | cons e run ih =>
      intro t text h
      have htrace : (e.trace t).file = some (text ++ Csv.line e.row) := by rw [trace_file, h]; rfl
      rw [List.foldl_cons, ih _ _ htrace]
      simp
  rw [recordedCsv, hfile run _ _ rfl]
  rfl

theorem plain_decimal (v : UInt64) : Csv.Plain (Text.decimal v.toNat) := by
  refine ⟨?_, fun c hc => ?_⟩
  · have hlen : (Text.decimal v.toNat).length ≤ 20 :=
      (Nat.length_toDigits_le_iff (by decide) (by decide)).mpr (lt_of_lt_of_le v.toNat_lt (by norm_num))
    exact hlen.trans (by decide)
  · have hd := Text.isDigit_of_mem_decimal hc
    refine ⟨?_, ?_, ?_, ?_⟩ <;> rintro rfl <;> simp at hd

theorem plain_row (h : e.Plain) : ∀ f ∈ e.row, Csv.Plain f := by
  cases e with
  | op o =>
    have htype : Csv.Plain (opToStr o.opType) := by cases o.opType <;> decide
    have hok : Csv.Plain (if o.ok then ['1'] else ['0']) := by split_ifs <;> decide
    intro f hf
    simp only [TracerEvent.row, List.mem_cons, List.not_mem_nil, or_false] at hf
    rcases hf with rfl | rfl | rfl | rfl | rfl | rfl | rfl
    · exact plain_decimal _
    · exact htype
    · exact h.1
    · exact plain_decimal _
    · exact hok
    · exact plain_decimal _
    · exact h.2
  | tierChange chunkId fromTier toTier tsUs =>
    intro f hf
    simp only [TracerEvent.row, List.mem_cons, List.not_mem_nil, or_false] at hf
    rcases hf with rfl | rfl | rfl | rfl | rfl | rfl | rfl
    · exact plain_decimal _
    · decide
    · exact h.1
    · decide
    · decide
    · decide
    · exact h.2

/-- The operation as the loader sees it: without its data. -/
def TracedOp.loaded (o : TracedOp) : Op := { o.toOp with value := [] }

def addEvent (history : Histories) (e : TracerEvent) : Histories :=
  e.op?.elim history fun o => history.alter (o.chunkId : WithBot Str) (appendOp o.loaded)

theorem parseOpType_opToStr (t : OpType) : parseOpType (some (opToStr t)) = some t := by
  cases t <;> decide

/-- **One row**: the loader finds everything but the data. -/
theorem loadRow_row (history : Histories) (e : TracerEvent) :
    loadRow columns history e.row = some (addEvent history e) := by
  cases e with
  | op o =>
    have htype : Csv.cell columns (TracerEvent.op o).row "op_type".toList "".toList =
        some (opToStr o.opType) := rfl
    have hchunk : Csv.cell columns (TracerEvent.op o).row "chunk_id".toList "".toList =
        some o.chunkId := rfl
    have hstart : Csv.cell columns (TracerEvent.op o).row "timestamp_us".toList "0".toList =
        some (Text.decimal o.startUs.toNat) := rfl
    have hlatency : Csv.cell columns (TracerEvent.op o).row "latency_us".toList "0".toList =
        some (Text.decimal o.latencyUs.toNat) := rfl
    have hok : Csv.cell columns (TracerEvent.op o).row "ok".toList "1".toList =
        some (if o.ok then ['1'] else ['0']) := rfl
    have hdata : Csv.cell columns (TracerEvent.op o).row "data".toList "".toList = some [] := rfl
    unfold loadRow
    simp only [htype, hchunk, hstart, hlatency, hok, hdata, parseOpType_opToStr]
    simp only [Option.bind_some, Text.pyInt_decimal, Option.bind_eq_bind, Option.getD_some]
    have hval : decide (some (if o.ok then ['1'] else ['0']) = some ['1']) = o.ok := by
      cases o.ok <;> decide
    rw [hval]
    rfl
  | tierChange chunkId fromTier toTier tsUs => rfl

/-- **The whole file**: a recorded run is loaded event by event. -/
theorem loadHistory_recorded (h : ∀ e ∈ run, e.Plain) :
    loadHistory (recordedCsv run) = some (run.foldl addEvent Kv.empty) := by
  have hlen : ∀ e : TracerEvent, e.row.length = 7 := fun e => by cases e <;> rfl
  have hread : Csv.readAll (recordedCsv run) = some (columns :: run.map TracerEvent.row) := by
    rw [recordedCsv_eq]
    refine Csv.readAll_lines fun fs hfs => ?_
    rcases List.mem_cons.mp hfs with rfl | hfs
    · exact ⟨by decide, by decide⟩
    · obtain ⟨e, he, rfl⟩ := List.mem_map.mp hfs
      exact ⟨by rw [hlen]; decide, plain_row (h e he)⟩
  have hrows : Csv.dictRows (columns :: run.map TracerEvent.row) = run.map TracerEvent.row := by
    refine List.filter_eq_self.mpr fun fs hfs => ?_
    obtain ⟨e, -, rfl⟩ := List.mem_map.mp hfs
    have hne : e.row ≠ [] := List.ne_nil_of_length_pos (by rw [hlen]; decide)
    simpa using hne
  have hfold : ∀ (run : List TracerEvent) (history : Histories),
      (run.map TracerEvent.row).foldlM (loadRow columns) history =
        some (run.foldl addEvent history) := by
    intro run
    induction run with
    | nil => exact fun _ => rfl
    | cons e run ih =>
      intro history
      rw [List.map_cons, List.foldlM_cons, loadRow_row, Option.bind_eq_bind, Option.bind_some, ih]
      rfl
  simp only [loadHistory, hread, Option.bind_eq_bind, Option.bind_some, hrows, List.headD_cons]
  exact hfold run Kv.empty

/-! ### The verdict on a recorded run -/

/-- The operations on one chunk as loaded. -/
def loadedOps (run : List TracerEvent) (chunkId : Str) : List Op :=
  ((run.filterMap TracerEvent.op?).filter (·.chunkId = chunkId)).map TracedOp.loaded

theorem foldl_addEvent (run : List TracerEvent) (history : Histories) : run.foldl addEvent history =
    (run.filterMap TracerEvent.op?).foldl
      (fun m o => m.alter (o.chunkId : WithBot Str) (appendOp o.loaded)) history := by
  induction run generalizing history with
  | nil => rfl
  | cons e run ih =>
    rw [List.foldl_cons, ih]
    cases e <;> rfl

theorem foldl_appendOp (os : List TracedOp) (ops : List Op) :
    os.foldl (fun v o => appendOp o.loaded v) (some ops) = some (ops ++ os.map TracedOp.loaded) := by
  induction os generalizing ops with
  | nil => simp
  | cons o os ih =>
    rw [List.foldl_cons, appendOp, ih]
    simp

theorem foldl_appendOp_none (os : List TracedOp) :
    os.foldl (fun v o => appendOp o.loaded v) none =
      if os = [] then none else some (os.map TracedOp.loaded) := by
  cases os with
  | nil => rfl
  | cons o os => exact foldl_appendOp os [o.loaded]

/-- What is loaded of a run, chunk by chunk. -/
theorem get_loaded (run : List TracerEvent) (k : WithBot Str) (ops : List Op) :
    (run.foldl addEvent Kv.empty).get k = some ops ↔
      ∃ chunkId : Str, k = chunkId ∧ ops = loadedOps run chunkId ∧ ops ≠ [] := by
  let p : TracedOp → Bool := fun o => (o.chunkId : WithBot Str) = k
  have hget := @Kv.get_foldl_alter _ _ _ TracedOp (fun o => (o.chunkId : WithBot Str))
    (fun o => appendOp o.loaded) k p (fun _ => decide_eq_true_iff) (run.filterMap TracerEvent.op?)
    Kv.empty
  rw [foldl_addEvent, hget, Kv.get_empty, foldl_appendOp_none]
  induction k using WithBot.recBotCoe with
  | bot =>
    have hnone : (run.filterMap TracerEvent.op?).filter p = [] := by simp [p]
    rw [if_pos hnone]
    simp
  | coe chunkId =>
    have hp : p = fun o => decide (o.chunkId = chunkId) := by
      funext o
      simp [p]
    rw [hp]
    constructor
    · intro h
      split_ifs at h with hnil
      obtain rfl := Option.some.inj h
      exact ⟨chunkId, rfl, rfl, by simpa using hnil⟩
    · rintro ⟨c, hc, rfl, hne⟩
      obtain rfl := WithBot.coe_injective hc
      rw [if_neg fun hnil => hne (by rw [loadedOps, hnil]; rfl)]
      rfl

/-- Nothing fails exactly when every history that is not skipped is accepted. -/
theorem failed_countChunk (maxOps : Option ℤ) (histories : List (List Op)) :
    ∀ c : CheckCounts, (histories.foldl (countChunk maxOps) c).failed = 0 ↔
      c.failed = 0 ∧ ∀ ops ∈ histories, ¬ Skipped maxOps ops → isLinearizableRegister ops = true := by
  induction histories with
  | nil => simp
  | cons ops histories ih =>
    intro c
    rw [List.foldl_cons, ih, List.forall_mem_cons, ← and_assoc]
    refine and_congr_left fun _ => ?_
    unfold countChunk
    split_ifs with hskip hlin
    · simp [hskip]
    · simp [hlin]
    · simp [hskip, hlin]

/-- The loader finds no data, so that only operations at the same instant can fail the check. -/
theorem accepts_loaded (run : List TracerEvent) (chunkId : Str) :
    isLinearizableRegister (loadedOps run chunkId) = true ↔
      (chunkOps run chunkId).Pairwise fun a b => ¬ Simultaneous a b := by
  rw [isLinearizableRegister_of_empty]
  · rw [loadedOps, chunkOps, List.pairwise_map, List.pairwise_map]
    rfl
  · intro op hop
    obtain ⟨o, -, rfl⟩ := List.mem_map.mp hop
    show (o.startUs.toNat : ℤ) ≤ o.startUs.toNat + o.latencyUs.toNat
    omega
  · intro op hop
    obtain ⟨o, -, rfl⟩ := List.mem_map.mp hop
    rfl

/-- **The verdict on a recorded run** does not depend on the data. -/
theorem reportsLinearizable_recorded (maxOps : Option ℤ) (h : ∀ e ∈ run, e.Plain) :
    reportsLinearizable maxOps (recordedCsv run) = true ↔ ∀ chunkId,
      ¬ Skipped maxOps (chunkOps run chunkId) →
        (chunkOps run chunkId).Pairwise fun a b => ¬ Simultaneous a b := by
  have hbot : ⊥ ∉ (run.foldl addEvent Kv.empty).keys := by
    intro hmem
    obtain ⟨ops, hops⟩ := Kv.mem_keys.mp hmem
    obtain ⟨c, hc, -⟩ := (get_loaded run ⊥ ops).mp hops
    exact absurd hc WithBot.bot_ne_coe
  have hskip : ∀ chunkId, Skipped maxOps (loadedOps run chunkId) ↔
      Skipped maxOps (chunkOps run chunkId) := fun c => by simp [Skipped, loadedOps, chunkOps]
  rw [reportsLinearizable, loadHistory_recorded h, Option.bind_some, checkHistory,
    if_neg fun hn => hbot hn.2]
  simp only [Option.any_some, decide_eq_true_eq, failed_countChunk, true_and]
  constructor
  · intro hall chunkId hs
    rw [← accepts_loaded]
    by_cases hne : loadedOps run chunkId = []
    · rw [hne]
      rfl
    · have hget := (get_loaded run chunkId _).mpr ⟨chunkId, rfl, rfl, hne⟩
      exact hall _ (Kv.mem_values.mpr ⟨_, hget⟩) fun hn => hs ((hskip chunkId).mp hn)
  · intro hall ops hops hs
    obtain ⟨k, hget⟩ := Kv.mem_values.mp hops
    obtain ⟨c, rfl, rfl, -⟩ := (get_loaded run k ops).mp hget
    exact (accepts_loaded run c).mpr (hall c fun hn => hs ((hskip c).mpr hn))

/-- Real time says what every `GET` of the run read, and no two operations on a chunk are at one
instant; or a chunk that is not skipped has two operations at one instant. -/
def RunDecided (maxOps : Option ℤ) (run : List TracerEvent) : Prop :=
  (∀ chunkId, Decided (chunkOps run chunkId) ∧
    (chunkOps run chunkId).Pairwise fun a b => ¬ Simultaneous a b) ∨
  ∃ chunkId, ¬ Skipped maxOps (chunkOps run chunkId) ∧
    ¬ (chunkOps run chunkId).Pairwise fun a b => ¬ Simultaneous a b

theorem startUs_le_endUs (run : List TracerEvent) (chunkId : Str) :
    ∀ op ∈ chunkOps run chunkId, op.startUs ≤ op.endUs := by
  intro op hop
  obtain ⟨o, -, rfl⟩ := List.mem_map.mp hop
  show (o.startUs.toNat : ℤ) ≤ o.startUs.toNat + o.latencyUs.toNat
  omega

/-- **What acceptance is worth.**  An accepted history is linearizable when it is settled, that is,
when no order of it lets the checker be lenient; a run reported as linearizable was so when real time
decides it, or else a chunk of it fails the check. -/
theorem accepts_recorded_sound (maxOps : Option ℤ) (run : List TracerEvent)
    (h : ∀ e ∈ run, e.Plain) :
    (∀ ops, (Settled ops ∨ ¬ ops.Pairwise fun a b => ¬ Simultaneous a b) →
      isLinearizableRegister ops = true → Linearizable ops) ∧
    (∀ ops : List Op, (∀ op ∈ ops, op.startUs ≤ op.endUs) →
      (ops.Pairwise fun a b => ¬ Simultaneous a b) → (Settled ops ↔ NeverLenient ops)) ∧
    (RunDecided maxOps run →
      reportsLinearizable maxOps (recordedCsv run) = true → RunLinearizable run) := by
  refine ⟨fun _ => accepts_sound, fun _ => settled_iff, ?_⟩
  rw [reportsLinearizable_recorded maxOps h]
  rintro (hall | ⟨chunkId, hs, hbad⟩) hverdict
  · intro chunkId
    obtain ⟨hd, hapart⟩ := hall chunkId
    exact hd.linearizable (startUs_le_endUs run chunkId) hapart
  · exact absurd (hverdict chunkId hs) hbad

/-! ### Runs that read what was written, and what was not -/

/-- `a` is written, and `v` is read. -/
def putThenGet (v : Str) : List TracerEvent :=
  [.op ⟨.put, ['c'], 0, 1, true, ['a'], []⟩, .op ⟨.get, ['c'], 2, 1, true, v, []⟩]

theorem putThenGet_plain (v : Str) : ∀ e ∈ putThenGet v, e.Plain := by
  intro e he
  simp only [putThenGet, List.mem_cons, List.not_mem_nil, or_false] at he
  have hchunk : Csv.Plain ['c'] := by decide
  have htier : Csv.Plain [] := by decide
  rcases he with rfl | rfl <;> exact ⟨hchunk, htier⟩

/-- A `PUT` of `a`, and a `GET` of `v` behind it. -/
def putGet (v : Str) : List Op := [⟨0, 1, .put, ['a'], true⟩, ⟨2, 3, .get, v, true⟩]

theorem chunkOps_putThenGet (v chunkId : Str) :
    chunkOps (putThenGet v) chunkId = if chunkId = ['c'] then putGet v else [] := by
  by_cases hc : chunkId = ['c']
  · subst hc
    rfl
  · have hc' : ¬ ['c'] = chunkId := fun he => hc he.symm
    simp [chunkOps, putThenGet, TracerEvent.op?, hc, hc']

theorem putGet_apart (v : Str) : (putGet v).Pairwise fun a b => ¬ Simultaneous a b := by
  refine List.pairwise_pair.mpr fun hs => ?_
  have hstart : (0 : ℤ) = 2 := hs.2.2
  omega

theorem putThenGet_reported (v : Str) :
    reportsLinearizable (some 20) (recordedCsv (putThenGet v)) = true := by
  refine (reportsLinearizable_recorded _ (putThenGet_plain v)).mpr fun chunkId _ => ?_
  rw [chunkOps_putThenGet]
  split_ifs
  · exact putGet_apart v
  · exact .nil

theorem putGet_decided : Decided (putGet ['a']) := by
  intro g hg hget
  simp only [putGet, List.mem_cons, List.not_mem_nil, or_false] at hg
  rcases hg with rfl | rfl
  · exact absurd hget.2 (by decide)
  · exact .inl (by decide)

theorem putThenGet_decided : RunDecided (some 20) (putThenGet ['a']) := by
  refine .inl fun chunkId => ?_
  rw [chunkOps_putThenGet]
  split_ifs
  · exact ⟨putGet_decided, putGet_apart _⟩
  · exact ⟨fun g hg => by simp at hg, .nil⟩

theorem putGet_settled : Settled (putGet ['a']) where
  puts := by decide
  set g hg hget hv := by
    simp only [putGet, List.mem_cons, List.not_mem_nil, or_false] at hg
    rcases hg with rfl | rfl
    · exact absurd hget.2 (by decide)
    · unfold SetBefore
      decide
  unset g hg hget hv := by
    simp only [putGet, List.mem_cons, List.not_mem_nil, or_false] at hg
    rcases hg with rfl | rfl
    · exact absurd hget.2 (by decide)
    · simp at hv

theorem putGet_accepted {v : Str} (hv : v = [] ∨ v = ['a']) :
    isLinearizableRegister (putGet v) = true := by
  refine isLinearizableRegister_iff.mpr ⟨putGet v, ⟨.refl _, ?_⟩, ?_⟩
  · exact List.pairwise_pair.mpr (by unfold realTimeBefore; simp)
  · rcases hv with rfl | rfl <;> rfl

theorem accepts_recorded_sound_read :
    Linearizable (putGet ['a']) ∧ NeverLenient (putGet ['a']) ∧ RunLinearizable (putThenGet ['a']) := by
  obtain ⟨hops, hsettled, hrun⟩ :=
    accepts_recorded_sound (some 20) (putThenGet ['a']) (putThenGet_plain _)
  exact ⟨hops _ (.inl putGet_settled) (putGet_accepted (.inr rfl)),
    (hsettled _ (by decide) (putGet_apart _)).mp putGet_settled,
    hrun putThenGet_decided (putThenGet_reported _)⟩

/-- The history passes with the read's data left out, and the run passes with it. -/
theorem wrong_read_accepted :
    (¬ ∀ ops, isLinearizableRegister ops = true → Linearizable ops) ∧
    ¬ ∀ (maxOps : Option ℤ) (run : List TracerEvent), (∀ e ∈ run, e.Plain) →
      reportsLinearizable maxOps (recordedCsv run) = true → RunLinearizable run := by
  constructor
  · intro h
    exact not_linearizable_pair ⟨rfl, rfl⟩ ⟨rfl, rfl⟩ (by decide) (by decide)
      (h (putGet []) (putGet_accepted (.inl rfl)))
  · intro h
    have hrun := h _ _ (putThenGet_plain ['b']) (putThenGet_reported _) ['c']
    exact not_linearizable_pair ⟨rfl, rfl⟩ ⟨rfl, rfl⟩ (by decide) (by decide) hrun

end NimbusVault
