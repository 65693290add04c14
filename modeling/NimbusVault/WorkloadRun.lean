import NimbusVault.HistoryStats
import NimbusVault.Lib.Machine
import NimbusVault.Workload

/-!
# WorkloadRun — what a workload leaves behind

`WorkloadGen::run` puts every chunk once without a record, shares the operations out among its
threads, and waits for them.  A thread picks a chunk, begins a put or a get, and records it when the
call has returned; the threads interleave as they like, and what the calls return is up to the
cluster.  However that goes, a finished run has recorded as many operations as it was configured for,
its file is loaded back record by record (`workload_recorded`), and its summary is exact
(`workload_summary`).
-/

namespace NimbusVault

open Lib Lib.Binary64 Lib.Percentile

/-- The members that `run` and its threads read besides those of the picks. -/
structure RunConfig extends WorkloadConfig where
  numOps : Int32 := 10000
  chunkSizeKb : Int32 := 4
  writeRatio : Float.Model := .ofScientific 3 (-1)
  threads : Int32 := 4

namespace RunConfig

/-- `std::max(1, cfg_.threads)`. -/
def workers (cfg : RunConfig) : Int32 := if 1 < cfg.threads then cfg.threads else 1

/-- The operations of the thread `t`. -/
def opsOf (cfg : RunConfig) (t : ℕ) : Int32 :=
  let base := cfg.numOps / cfg.workers
  let rem := cfg.numOps % cfg.workers
  base + (if Int32.ofNat t < rem then 1 else 0)

/-- The size of the payload of a put. -/
def payloadSize (cfg : RunConfig) : UInt64 := UInt64.ofNat cfg.chunkSizeKb.toInt.toNat * 1024

end RunConfig

/-! ### The machine -/

/-- A call that a thread waits for. -/
structure WorkerCall where
  write : Bool
  chunk : Str
  tier : Str
  startUs : UInt64

/-- A thread: the turns that its loop has left, and the call of the present one. -/
structure Worker where
  left : ℕ
  call : Option WorkerCall := none

/-- `unfilled` are the chunks that have not been put yet. -/
structure RunState where
  unfilled : List Str
  workers : List Worker
  tracer : HistoryTracer

inductive RunStep
  | fill
  | begin (t : ℕ) (pick op : Draws) (startUs : UInt64)
  | returned (t : ℕ) (ok : Bool) (size latencyUs : UInt64)

namespace RunState

/-- The start of `run`; `none` where the payload is too long for a string. -/
def start (cfg : RunConfig) (w : WorkloadGen) (tracer : HistoryTracer) : Option RunState :=
  if cfg.chunkSizeKb < 0 then none
  else some {
    unfilled := w.chunkIds
    workers := (List.range cfg.workers.toInt.toNat).map fun t => { left := (cfg.opsOf t).toInt.toNat }
    tracer }

section Step

variable (pow : Float.Model → Float.Model → Float.Model) (cfg : RunConfig) (w : WorkloadGen)

def step (s : RunState) : RunStep → Option RunState
  | .fill =>
    match s.unfilled with
    | [] => none
    | _ :: rest => some { s with unfilled := rest }
  | .begin t pick op startUs =>
    if s.unfilled ≠ [] then none
    else match s.workers[t]? with
      | some ⟨left + 1, none⟩ => (w.pickChunk pow pick).map fun (chunk, tier) =>
          let call := { write := op.real < cfg.writeRatio, chunk, tier, startUs }
          { s with workers := s.workers.set t ⟨left, some call⟩ }
      | _ => none
  | .returned t ok size latencyUs =>
    match s.workers[t]? with
    | some ⟨left, some call⟩ => some { s with
        workers := s.workers.set t ⟨left, none⟩
        tracer := s.tracer.record {
          type := if call.write then .put else .get
          chunkId := call.chunk
          startUs := call.startUs
          latencyUs, ok
          bytes := if call.write then cfg.payloadSize else size
          tier := call.tier } }
    | _ => none

/-- All runs of the threads of a workload. -/
abbrev workloadRun : Machine RunState RunStep := .ofStep (step pow cfg w)

end Step

/-- The threads have been joined. -/
def Finished (s : RunState) : Prop :=
  s.unfilled = [] ∧ ∀ k ∈ s.workers, k.left = 0 ∧ k.call = none

end RunState

/-! ### The shares of the threads -/

theorem sum_range_share (b r : ℕ) : ∀ k : ℕ,
    ((List.range k).map fun t => b + if t < r then 1 else 0).sum = k * b + min k r
  | 0 => by simp
  | k + 1 => by
    rw [List.range_succ, List.map_append, List.sum_append, sum_range_share b r k, Nat.succ_mul]
    simp only [List.map_cons, List.map_nil, List.sum_cons, List.sum_nil]
    split_ifs <;> omega

section Shares

variable {cfg : RunConfig}

theorem one_le_workers (cfg : RunConfig) : 1 ≤ cfg.workers.toInt := by
  unfold RunConfig.workers
  split_ifs with h
  · rw [Int32.lt_iff_toInt_lt] at h
    exact h.le
  · exact le_rfl

/-- A share in integers: of a negative number there is none. -/
theorem toNat_share (N : ℤ) (T t : ℕ) :
    (N.tdiv T + if (t : ℤ) < N.tmod T then 1 else 0).toNat =
        N.toNat / T + (if t < N.toNat % T then 1 else 0) ∧
      min N 0 ≤ N.tdiv T ∧ N.tdiv T + (if (t : ℤ) < N.tmod T then 1 else 0) ≤ max N 0 := by
  obtain ⟨n, rfl | rfl⟩ := Int.eq_nat_or_neg N
  · have hle : n / T ≤ n := Nat.div_le_self n T
    have hmore : t < n % T → n / T + 1 ≤ n := fun h => by
      have hrest := Nat.div_add_mod n T
      rcases Nat.eq_zero_or_pos T with rfl | hT
      · simp at h ⊢
        omega
      · have hmul : n / T ≤ T * (n / T) := Nat.le_mul_of_pos_left _ hT
        omega
    rw [← Int.ofNat_tdiv, ← Int.ofNat_tmod, Int.toNat_natCast]
    generalize n / T = a at hle hmore ⊢
    by_cases h : t < n % T
    · have hone := hmore h
      rw [if_pos h, if_pos (by exact_mod_cast h)]
      omega
    · rw [if_neg h, if_neg (by exact_mod_cast h)]
      omega
  · have hle : n / T ≤ n := Nat.div_le_self n T
    rw [Int.neg_tdiv, Int.neg_tmod, ← Int.ofNat_tdiv, ← Int.ofNat_tmod, if_neg (by omega),
      Int.toNat_neg_natCast]
    generalize n / T = a at hle
    simp
    omega

/-- The share of a thread. -/
theorem opsOf_toNat {t : ℕ} (ht : t < cfg.workers.toInt.toNat) : (cfg.opsOf t).toInt.toNat =
    cfg.numOps.toInt.toNat / cfg.workers.toInt.toNat +
      if t < cfg.numOps.toInt.toNat % cfg.workers.toInt.toNat then 1 else 0 := by
  have hone := one_le_workers cfg
  have hmax := cfg.workers.toInt_lt
  have hlo := cfg.numOps.le_toInt
  have hhi := cfg.numOps.toInt_lt
  have ht' : (Int32.ofNat t).toInt = t := Int32.toInt_ofNat_of_lt (by omega)
  have hcast : ((cfg.workers.toInt.toNat : ℕ) : ℤ) = cfg.workers.toInt := Int.toNat_of_nonneg (by omega)
  obtain ⟨hnat, hmin, hmax'⟩ := toNat_share cfg.numOps.toInt cfg.workers.toInt.toNat t
  rw [← hnat]
  rw [hcast] at hmin hmax' ⊢
  have hbase : (cfg.numOps / cfg.workers).toInt = cfg.numOps.toInt.tdiv cfg.workers.toInt := by
    rw [Int32.toInt_div]
    refine Int.bmod_eq_of_le ?_ ?_ <;> split_ifs at hmax' <;> omega
  unfold RunConfig.opsOf
  simp only [Int32.lt_iff_toInt_lt, ht', Int32.toInt_mod, Int32.toInt_add, hbase]
  have hzero : (0 : Int32).toInt = 0 := rfl
  have hsucc : (1 : Int32).toInt = 1 := rfl
  congr 1
  split_ifs at hmax' ⊢ <;> exact Int.bmod_eq_of_le (by omega) (by omega)

/-- **The shares add up** to the operations configured. -/
theorem sum_opsOf (cfg : RunConfig) :
    ((List.range cfg.workers.toInt.toNat).map fun t => (cfg.opsOf t).toInt.toNat).sum =
      cfg.numOps.toInt.toNat := by
  have hone := one_le_workers cfg
  have hshares : (List.range cfg.workers.toInt.toNat).map (fun t => (cfg.opsOf t).toInt.toNat) =
      (List.range cfg.workers.toInt.toNat).map fun t =>
        cfg.numOps.toInt.toNat / cfg.workers.toInt.toNat +
          if t < cfg.numOps.toInt.toNat % cfg.workers.toInt.toNat then 1 else 0 :=
    List.map_congr_left fun t ht => opsOf_toNat (List.mem_range.mp ht)
  have hmod := Nat.mod_lt cfg.numOps.toInt.toNat (y := cfg.workers.toInt.toNat) (by omega)
  rw [hshares, sum_range_share, min_eq_right hmod.le, Nat.div_add_mod]

end Shares

/-! ### What the threads do -/

section Threads

variable {pow : Float.Model → Float.Model → Float.Model} {cfg : RunConfig} {w : WorkloadGen}
  {s s' : RunState} {a : RunStep} {total : ℕ}

/-- The operations that a thread has still to record. -/
def Worker.todo (k : Worker) : ℕ := k.left + if k.call.isSome then 1 else 0

theorem Worker.todo_idle (left : ℕ) : Worker.todo ⟨left, none⟩ = left := rfl

theorem Worker.todo_calling (left : ℕ) (call : WorkerCall) :
    Worker.todo ⟨left, some call⟩ = left + 1 := rfl

/-- A chunk of the workload, with one of the two labels. -/
def IsPick (w : WorkloadGen) (chunk tier : Str) : Prop :=
  chunk ∈ w.chunkIds ∧ (tier = "hot".toList ∨ tier = "cold".toList)

/-- A record that a thread makes. -/
structure OpRecord.OfRun (cfg : RunConfig) (w : WorkloadGen) (r : OpRecord) : Prop where
  type : r.type = .put ∨ r.type = .get
  pick : IsPick w r.chunkId r.tier
  bytes : r.type = .put → r.bytes = cfg.payloadSize

/-- What holds in every state of a run. -/
structure WorkloadInv (cfg : RunConfig) (w : WorkloadGen) (total : ℕ) (s : RunState) : Prop where
  counted : s.tracer.records.length + (s.workers.map Worker.todo).sum = total
  picked : ∀ k ∈ s.workers, ∀ call ∈ k.call, IsPick w call.chunk call.tier
  recorded : ∀ r ∈ s.tracer.records, r.OfRun cfg w

theorem sum_map_set {α : Type} (f : α → ℕ) (y : α) : ∀ {l : List α} {t : ℕ} {x : α}, l[t]? = some x →
    ((l.set t y).map f).sum + f x = (l.map f).sum + f y
  | [], t, x, h => by simp at h
  | z :: l, 0, x, h => by
    obtain rfl : z = x := by simpa using h
    simp only [List.set_cons_zero, List.map_cons, List.sum_cons]
    omega
  | z :: l, t + 1, x, h => by
    have ih := sum_map_set f y (l := l) (t := t) (x := x) (by simpa using h)
    simp only [List.set_cons_succ, List.map_cons, List.sum_cons]
    omega

theorem chunkAt_mem {idx : Int32} {chunk : Str} (h : w.chunkAt idx = some chunk) :
    chunk ∈ w.chunkIds := by
  unfold WorkloadGen.chunkAt at h
  split_ifs at h
  exact List.mem_of_getElem? h

theorem isPick_pickChunk {d : Draws} {chunk tier : Str}
    (h : w.pickChunk pow d = some (chunk, tier)) : IsPick w chunk tier := by
  have htier : ∀ idx, w.tier idx = "hot".toList ∨ w.tier idx = "cold".toList := fun idx => by
    unfold WorkloadGen.tier
    split_ifs
    · exact .inl rfl
    · exact .inr rfl
  unfold WorkloadGen.pickChunk at h
  split_ifs at h <;> obtain ⟨c, hc, heq⟩ := Option.map_eq_some_iff.mp h <;>
    obtain ⟨rfl, rfl⟩ := Prod.mk.inj heq
  · exact ⟨chunkAt_mem hc, htier _⟩
  · exact ⟨chunkAt_mem hc, htier _⟩
  · exact ⟨chunkAt_mem hc, .inl rfl⟩
  · exact ⟨chunkAt_mem hc, .inr rfl⟩

/-- **One step** keeps the account. -/
theorem workloadInv_step (h : WorkloadInv cfg w total s) (hs : s.step pow cfg w a = some s') :
    WorkloadInv cfg w total s' := by
  obtain ⟨hcounted, hpicked, hrecorded⟩ := h
  cases a with
  | fill =>
    simp only [RunState.step] at hs
    split at hs
    · simp at hs
    · obtain rfl := Option.some.inj hs
      exact ⟨hcounted, hpicked, hrecorded⟩
  | begin t pick op startUs =>
    simp only [RunState.step] at hs
    split_ifs at hs
    split at hs
    · rename_i left hk
      obtain ⟨⟨chunk, tier⟩, hpick, rfl⟩ := Option.map_eq_some_iff.mp hs
      refine ⟨?_, fun k hk' call hcall => ?_, hrecorded⟩
      · have hsum := sum_map_set Worker.todo
          ⟨left, some ⟨op.real < cfg.writeRatio, chunk, tier, startUs⟩⟩ hk
        rw [Worker.todo_calling, Worker.todo_idle] at hsum
        dsimp only
        omega
      · rcases List.mem_or_eq_of_mem_set hk' with hk' | rfl
        · exact hpicked k hk' call hcall
        · obtain rfl := Option.mem_some.mp hcall
          exact isPick_pickChunk hpick
    · simp at hs
  | returned t ok size latencyUs =>
    simp only [RunState.step] at hs
    split at hs
    · rename_i left call hk
      obtain rfl := Option.some.inj hs
      have hcall := hpicked _ (List.mem_of_getElem? hk) call rfl
      refine ⟨?_, fun k hk' call' hcall' => ?_, fun r hr => ?_⟩
      · have hsum := sum_map_set Worker.todo ⟨left, none⟩ hk
        rw [Worker.todo_calling, Worker.todo_idle] at hsum
        simp only [HistoryTracer.record, List.length_append, List.length_singleton]
        omega
      · rcases List.mem_or_eq_of_mem_set hk' with hk' | rfl
        · exact hpicked k hk' call' hcall'
        · simp at hcall'
      · rcases List.mem_append.mp hr with hr | hr
        · exact hrecorded r hr
        · obtain rfl := List.mem_singleton.mp hr
          refine ⟨?_, hcall, fun hput => ?_⟩
          · cases call.write
            · exact .inr rfl
            · exact .inl rfl
          · cases hw : call.write <;> simp [hw] at hput ⊢
    · simp at hs

/-- What holds at the start. -/
theorem workloadInv_start {t₀ : HistoryTracer} (ht : t₀.records = []) {s₀ : RunState}
    (hs : RunState.start cfg w t₀ = some s₀) : WorkloadInv cfg w cfg.numOps.toInt.toNat s₀ := by
  unfold RunState.start at hs
  split_ifs at hs
  obtain rfl := Option.some.inj hs
  refine ⟨?_, fun k hk call hcall => ?_, fun r hr => ?_⟩
  · simp only [ht, List.length_nil, Nat.zero_add, List.map_map]
    exact sum_opsOf cfg
  · obtain ⟨t, -, rfl⟩ := List.mem_map.mp hk
    simp at hcall
  · simp [ht] at hr

/-- A finished run has recorded every operation. -/
theorem records_of_finished (h : WorkloadInv cfg w total s) (hf : s.Finished) :
    s.tracer.records.length = total := by
  have hnone : (s.workers.map Worker.todo).sum = 0 := by
    refine List.sum_eq_zero fun n hn => ?_
    obtain ⟨k, hk, rfl⟩ := List.mem_map.mp hn
    obtain ⟨hleft, hcall⟩ := hf.2 k hk
    rw [Worker.todo, hleft, hcall]
    rfl
  rw [← h.counted, hnone, Nat.add_zero]

end Threads

/-! ### The file -/

section File

variable {pow : Float.Model → Float.Model → Float.Model} {cfg : RunConfig} {w : WorkloadGen}
  {s s' s₀ : RunState} {a : RunStep} {tr : List RunStep}

/-- An operation with this record. -/
def OpRecord.event (r : OpRecord) : TracerEvent :=
  .op ⟨r.type, r.chunkId, r.startUs, r.latencyUs, r.ok, List.replicate r.bytes.toNat 'x', r.tier⟩

/-- The operation as the checker's loader sees it. -/
def OpRecord.loaded (r : OpRecord) : Op :=
  ⟨r.startUs.toNat, r.startUs.toNat + r.latencyUs.toNat, r.type, [], r.ok⟩

/-- Recording it is tracing it. -/
theorem trace_event (t : HistoryTracer) (r : OpRecord) : r.event.trace t = t.record r := by
  have hrec : TracedOp.toRecord ⟨r.type, r.chunkId, r.startUs, r.latencyUs, r.ok,
      List.replicate r.bytes.toNat 'x', r.tier⟩ = r := by
    simp [TracedOp.toRecord]
  exact congrArg t.record hrec

/-- The file holds the rows of the records. -/
def FileInv (t : HistoryTracer) : Prop := t.file = some (recordedCsv (t.records.map OpRecord.event))

theorem fileInv_record {t : HistoryTracer} (h : FileInv t) (r : OpRecord) : FileInv (t.record r) := by
  have hfile := trace_file t r.event
  rw [trace_event, h] at hfile
  unfold FileInv
  rw [hfile]
  simp [recordedCsv_eq, HistoryTracer.record]

theorem fileInv_step (h : FileInv s.tracer) (hs : s.step pow cfg w a = some s') :
    FileInv s'.tracer := by
  cases a with
  | fill =>
    simp only [RunState.step] at hs
    split at hs
    · simp at hs
    · obtain rfl := Option.some.inj hs
      exact h
  | begin t pick op startUs =>
    simp only [RunState.step] at hs
    split_ifs at hs
    split at hs
    · obtain ⟨_, -, rfl⟩ := Option.map_eq_some_iff.mp hs
      exact h
    · simp at hs
  | returned t ok size latencyUs =>
    simp only [RunState.step] at hs
    split at hs
    · obtain rfl := Option.some.inj hs
      exact fileInv_record h _
    · simp at hs

/-- The ids of a workload need no quotes in a file. -/
theorem plain_chunk (hw : WorkloadGen.create pow cfg.toWorkloadConfig = some w) {c : Str}
    (hc : c ∈ w.chunkIds) : Csv.Plain c := by
  obtain rfl := WorkloadGen.create_eq_some hw
  obtain ⟨i, hi, rfl⟩ := List.mem_map.mp hc
  have hmax := cfg.numChunks.toInt_lt
  have hlt : i < cfg.numChunks.toInt.toNat := List.mem_range.mp hi
  have hsmall : i < 2 ^ 31 := by omega
  have hval : (UInt64.ofNat i).toNat = i :=
    UInt64.toNat_ofNat_of_lt' (hsmall.trans (by decide))
  have hlen : (Text.decimal i).length ≤ 20 :=
    (Nat.length_toDigits_le_iff (by decide) (by decide)).mpr (hsmall.trans (by norm_num))
  obtain ⟨-, hchars⟩ := hval ▸ plain_decimal (UInt64.ofNat i)
  refine ⟨?_, fun c hc => ?_⟩
  · rw [List.length_append]
    exact (Nat.add_le_add_left hlen _).trans (by decide)
  · have hword : Csv.Plain "chunk_".toList := by decide
    exact (List.mem_append.mp hc).elim (hword.2 c) (hchars c)

theorem plain_event (hw : WorkloadGen.create pow cfg.toWorkloadConfig = some w) {r : OpRecord}
    (hr : r.OfRun cfg w) : r.event.Plain := by
  refine ⟨plain_chunk hw hr.pick.1, ?_⟩
  show Csv.Plain r.tier
  rcases hr.pick.2 with ht | ht <;> rw [ht] <;> decide

theorem loadedOps_event (rs : List OpRecord) (c : Str) : loadedOps (rs.map OpRecord.event) c =
    (rs.filter (·.chunkId = c)).map OpRecord.loaded := by
  induction rs with
  | nil => rfl
  | cons r rs ih =>
    unfold loadedOps at ih ⊢
    have hop : (r :: rs).map OpRecord.event = r.event :: rs.map OpRecord.event := rfl
    have hsome : TracerEvent.op? r.event = some ⟨r.type, r.chunkId, r.startUs, r.latencyUs, r.ok,
        List.replicate r.bytes.toNat 'x', r.tier⟩ := rfl
    rw [hop, List.filterMap_cons_some hsome, List.filter_cons, List.filter_cons]
    by_cases hc : r.chunkId = c
    · rw [if_pos (by simpa using hc), if_pos (by simpa using hc), List.map_cons, ih]
      rfl
    · rw [if_neg (by simpa using hc), if_neg (by simpa using hc), ih]

/-- **What a workload records.**  A run whose threads have been joined has recorded as many
operations as it was configured for, and none if that number is negative.  Each is a put of the
payload or a get, of a chunk of the workload, and the file is loaded back as the histories of the
chunks, with every operation in the order of the records. -/
theorem workload_recorded (hw : WorkloadGen.create pow cfg.toWorkloadConfig = some w)
    (hs : RunState.start cfg w .opened = some s₀)
    (h : (RunState.workloadRun pow cfg w).Reach s₀ tr s) (hf : s.Finished) :
    s.tracer.records.length = cfg.numOps.toInt.toNat ∧
      (∀ r ∈ s.tracer.records, r.OfRun cfg w) ∧
      ∃ text history, s.tracer.file = some text ∧ loadHistory text = some history ∧
        ∀ (k : WithBot Str) (ops : List Op), history.get k = some ops ↔ ∃ c : Str, k = c ∧
          ops = (s.tracer.records.filter (·.chunkId = c)).map OpRecord.loaded ∧ ops ≠ [] := by
  have hinv : WorkloadInv cfg w cfg.numOps.toInt.toNat s :=
    h.invariant_step (workloadInv_start rfl hs) fun _ _ _ hi hstep _ => workloadInv_step hi hstep
  have hfile₀ : FileInv s₀.tracer := by
    unfold RunState.start at hs
    split_ifs at hs
    obtain rfl := Option.some.inj hs
    rfl
  have hfile : FileInv s.tracer :=
    h.invariant_step (I := fun s => FileInv s.tracer) hfile₀ fun _ _ _ hi hstep _ => fileInv_step hi hstep
  have hplain : ∀ e ∈ s.tracer.records.map OpRecord.event, e.Plain := fun e he => by
    obtain ⟨r, hr, rfl⟩ := List.mem_map.mp he
    exact plain_event hw (hinv.recorded r hr)
  refine ⟨records_of_finished hinv hf, hinv.recorded, _, _, hfile, loadHistory_recorded hplain,
    fun k ops => ?_⟩
  simp only [get_loaded, loadedOps_event]

/-- **What the summary of a workload says.**  Of a run with an operation or more: the number of its
operations, how many have failed, and the three percentiles of the latencies that the threads
measured, each the least latency that so many operations do not exceed. -/
theorem workload_summary {t₀ : HistoryTracer} (ht : t₀.records = []) (hops : 1 ≤ cfg.numOps)
    (hs : RunState.start cfg w t₀ = some s₀)
    (h : (RunState.workloadRun pow cfg w).Reach s₀ tr s) (hf : s.Finished) :
    (s.tracer.getStats.totalOps : ℤ) = cfg.numOps.toInt ∧
      s.tracer.getStats.errors = s.tracer.records.countP (¬ ·.ok) ∧
      ∀ p v, (p, v) ∈ [(50, s.tracer.getStats.p50Us), (95, s.tracer.getStats.p95Us),
          (99, s.tracer.getStats.p99Us)] →
        IsRank (s.tracer.records.map (·.latencyUs.toNat)) ((p * cfg.numOps.toInt.toNat + 99) / 100)
          v.toNat := by
  have hinv : WorkloadInv cfg w cfg.numOps.toInt.toNat s :=
    h.invariant_step (workloadInv_start ht hs) fun _ _ _ hi hstep _ => workloadInv_step hi hstep
  have hlen := records_of_finished hinv hf
  obtain ⟨hpos, hlog⟩ := log2_toNat_le hops
  have hne : s.tracer.records ≠ [] := List.ne_nil_of_length_pos (hlen ▸ hpos)
  obtain ⟨htotal, herrors, hpct⟩ := HistoryTracer.isRank_getStats hne (hlen ▸ hlog.trans (by norm_num))
  rw [hlen] at htotal hpct
  exact ⟨by rw [htotal]; omega, herrors, hpct⟩

end File

/-! ### Two threads and three operations -/

/-- The least of everything that can be drawn. -/
def Draws.least : Draws where
  real := .ofNat 0
  int _ := 0
  zero_le_real := by decide
  real_lt_one := by decide
  zero_le_int _ _ := Int32.le_refl 0
  int_le _ h := h

def shortConfig : RunConfig :=
  { numChunks := 2, distribution := "uniform".toList, numOps := 3, threads := 2 }

abbrev shortGen : WorkloadGen := .init (fun x _ => x) shortConfig.toWorkloadConfig

def shortStart : RunState where
  unfilled := shortGen.chunkIds
  workers := [⟨2, none⟩, ⟨1, none⟩]
  tracer := .opened

/-- The second thread overtakes the first. -/
def shortTrace : List RunStep :=
  [.fill, .fill, .begin 0 .least .least 10, .begin 1 .greatest .greatest 11,
    .returned 1 true 4096 5, .returned 0 true 0 9, .begin 0 .greatest .least 20,
    .returned 0 false 0 7]

abbrev shortRun : Machine RunState RunStep :=
  RunState.workloadRun (fun x _ => x) shortConfig shortGen

def shortEnd : RunState := shortRun.final (fun _ _ => True) shortStart shortTrace

theorem shortEnd_reach : shortRun.Reach shortStart shortTrace shortEnd := Machine.run_final rfl

theorem shortEnd_finished : shortEnd.Finished := by
  have hworkers : shortEnd.workers = [⟨0, none⟩, ⟨0, none⟩] := rfl
  refine ⟨rfl, fun k hk => ?_⟩
  simp only [hworkers, List.mem_cons, List.not_mem_nil, or_false, or_self] at hk
  exact hk ▸ ⟨rfl, rfl⟩

theorem workload_recorded_short : shortEnd.tracer.records.length = 3 ∧
    ∀ r ∈ shortEnd.tracer.records, r.OfRun shortConfig shortGen :=
  have h := @workload_recorded (fun x _ => x) shortConfig _ _ _ _ rfl rfl shortEnd_reach
    shortEnd_finished
  ⟨h.1, h.2.1⟩

theorem workload_summary_short : (shortEnd.tracer.getStats.totalOps : ℤ) = 3 ∧
    shortEnd.tracer.getStats.errors = shortEnd.tracer.records.countP (¬ ·.ok) ∧
    IsRank [5, 9, 7] 2 shortEnd.tracer.getStats.p50Us.toNat :=
  have h := @workload_summary (fun x _ => x) shortConfig shortGen _ shortStart _ .opened rfl
    (by decide) rfl shortEnd_reach shortEnd_finished
  ⟨h.1, h.2.1, h.2.2 50 _ List.mem_cons_self⟩

end NimbusVault
