import NimbusVault.Lib.Scan
import NimbusVault.NodeTable

/-!
# SnapshotReads — where `install_snapshot` reads

`installSnapshotAt` is the installation as the source writes it: a place in a memory whose first
cells are the buffer, and reads from there on, some of them behind a check.  What lies behind the
buffer is arbitrary.  As far as the reads stay in the buffer it does what `installSnapshot` does with
the bytes.  The one read without a check is that of the chunk count: it leaves the buffer exactly
when the buffer ends within four bytes of its last node record (`install_inside_iff`).
-/

namespace NimbusVault

open Lib Lib.Text

/-- A buffer, and what the memory holds behind it. -/
def memory (data : Str) (behind : ℕ → Char) (i : ℕ) : Char :=
  if h : i < data.length then data[i] else behind (i - data.length)

variable {φ : Type} (F : FloatText φ) (mem : ℕ → Char) (len : ℕ)

/-- Part of an installation into a coordinator. -/
abbrev Reading (φ α : Type) : Type := Scan (MetaCoordinator φ) InstallError α

def readLpAt : Reading φ Str := do
  Scan.need len 4 (.threw "snapshot truncated (len)".toList)
  let head ← Scan.cells mem 4
  Scan.need len (beNat head) (.threw "snapshot truncated (data)".toList)
  Scan.cells mem (beNat head)

def readRecordsAt {α : Type} (parse : Str → Install α) : ℕ → Reading φ (List α)
  | 0 => pure []
  | k + 1 => do
    let entry ← readLpAt mem len
    let x ← Scan.lift (parse entry)
    let xs ← readRecordsAt parse k
    pure (x :: xs)

/-- Up to the last node record: the log index, and the nodes. -/
def readNodesAt : Reading φ (ℕ × List (NodeRecord φ)) := do
  Scan.need len 16 (.threw "snapshot too small".toList)
  let magic ← Scan.cells mem 4
  if beNat magic ≠ snapshotMagic then
    Scan.lift (.error (.threw "snapshot magic mismatch".toList))
  else do
    let lsn ← Scan.cells mem 8
    let nodeCount ← Scan.cells mem 4
    let nodes ← readRecordsAt mem len (parseNode F) (beNat nodeCount)
    pure (beNat lsn, nodes)

/-- Both tables are cleared, and filled. -/
def restoreSnapshot (nodes : List (NodeRecord φ)) (chunks : List ChunkEntry)
    (_ : MetaCoordinator φ) : MetaCoordinator φ :=
  ⟨restoreNodes nodes, restoreChunks chunks, restoreNodes_keyed nodes, restoreChunks_keyed chunks⟩

/-- The chunk count, read without a check, and the chunk records. -/
def readChunksAt : Reading φ (List ChunkEntry) := do
  let chunkCount ← Scan.cells mem 4
  readRecordsAt mem len parseChunk (beNat chunkCount)

def installSnapshotAt : Reading φ ℕ := do
  let header ← readNodesAt F mem len
  let chunks ← readChunksAt mem len
  Scan.commit (restoreSnapshot header.2 chunks) header.1

/-- The installation of `data` into the coordinator `c`, and all that it has read. -/
def installRun (data : Str) (behind : ℕ → Char) (c : MetaCoordinator φ) :
    Except InstallError ℕ × Cursor (MetaCoordinator φ) :=
  (installSnapshotAt F (memory data behind) data.length).run ⟨0, [], c⟩

/-! ### The checked reads -/

section Checked

variable {F mem len}

theorem readOnly_readLpAt : (readLpAt mem len : Reading φ Str).ReadOnly :=
  (Scan.ReadOnly.need _ _ _).bind fun _ => (Scan.ReadOnly.cells _ _).bind fun _ =>
    (Scan.ReadOnly.need _ _ _).bind fun _ => Scan.ReadOnly.cells _ _

theorem readOnly_readRecordsAt {α : Type} (parse : Str → Install α) (k : ℕ) :
    (readRecordsAt mem len parse k : Reading φ (List α)).ReadOnly := by
  induction k with
  | zero => exact Scan.ReadOnly.pure _
  | succ k ih =>
    exact readOnly_readLpAt.bind fun _ => (Scan.ReadOnly.lift _).bind fun _ =>
      ih.bind fun _ => Scan.ReadOnly.pure _

theorem readOnly_readNodesAt : (readNodesAt F mem len).ReadOnly := by
  refine (Scan.ReadOnly.need _ _ _).bind fun _ => (Scan.ReadOnly.cells _ _).bind fun magic => ?_
  split_ifs
  · exact Scan.ReadOnly.lift _
  · exact (Scan.ReadOnly.cells _ _).bind fun _ => (Scan.ReadOnly.cells _ _).bind fun _ =>
      (readOnly_readRecordsAt _ _).bind fun _ => Scan.ReadOnly.pure _

theorem readOnly_readChunksAt : (readChunksAt mem len : Reading φ (List ChunkEntry)).ReadOnly :=
  (Scan.ReadOnly.cells _ _).bind fun _ => readOnly_readRecordsAt _ _

/-- A record is read inside the buffer, or not at all. -/
theorem follows_readLpAt : Scan.Follows mem len 0 (readLpAt mem len : Reading φ Str) readLp := by
  refine (Scan.Follows.need_bind (Scan.Follows.cells_bind (k := 0) fun head =>
    Scan.Follows.need_bind Scan.Follows.cells)).congr fun s => ?_
  unfold readLp
  split_ifs <;> rfl

theorem follows_readRecordsAt {α : Type} (parse : Str → Install α) (k : ℕ) :
    Scan.Follows mem len 0 (readRecordsAt mem len parse k : Reading φ (List α))
      (readRecords parse k) := by
  induction k with
  | zero => exact Scan.Follows.pure _
  | succ k ih =>
    exact follows_readLpAt.bind fun _ => Scan.Follows.lift_bind fun _ =>
      ih.bind fun _ => Scan.Follows.pure _

/-- The count is inside, when there are four bytes for it. -/
theorem follows_readChunksAt : Scan.Follows mem len 4
    (readChunksAt mem len : Reading φ (List ChunkEntry))
    fun s => readRecords parseChunk (beNat (s.take 4)) (s.drop 4) :=
  Scan.Follows.cells_bind (k := 0) fun _ => follows_readRecordsAt _ _

/-- The bytes up to the last node record, parsed: log index and nodes, and what follows them. -/
def parseHeader (F : FloatText φ) (s : Str) : Install ((ℕ × List (NodeRecord φ)) × Str) :=
  if s.length < 16 then .error (.threw "snapshot too small".toList)
  else if beNat (s.take 4) ≠ snapshotMagic then .error (.threw "snapshot magic mismatch".toList)
  else do
    let s := s.drop 4
    let lsn := beNat (s.take 8)
    let s := s.drop 8
    let (nodes, s) ← readRecords (parseNode F) (beNat (s.take 4)) (s.drop 4)
    .ok ((lsn, nodes), s)

theorem follows_readNodesAt : Scan.Follows mem len 0 (readNodesAt F mem len) (parseHeader F) := by
  have hmagic : ∀ magic, Scan.Follows mem len (8 + (4 + 0))
      (if beNat magic ≠ snapshotMagic then
        Scan.lift (.error (.threw "snapshot magic mismatch".toList))
      else do
        let lsn ← Scan.cells mem 8
        let nodeCount ← Scan.cells mem 4
        let nodes ← readRecordsAt mem len (parseNode F) (beNat nodeCount)
        pure (beNat lsn, nodes) : Reading φ (ℕ × List (NodeRecord φ)))
      fun s =>
        if beNat magic ≠ snapshotMagic then .error (.threw "snapshot magic mismatch".toList)
        else readRecords (parseNode F) (beNat ((s.drop 8).take 4)) ((s.drop 8).drop 4) >>= fun y =>
          .ok ((beNat (s.take 8), y.1), y.2) := by
    intro magic
    split_ifs
    · exact Scan.Follows.lift_error _
    · exact Scan.Follows.cells_bind fun _ => Scan.Follows.cells_bind fun _ =>
        (follows_readRecordsAt _ _).bind fun _ => Scan.Follows.pure _
  refine (Scan.Follows.need_bind (j := 4 + (8 + (4 + 0))) (Scan.Follows.cells_bind hmagic)).congr
    fun s => ?_
  unfold parseHeader
  split_ifs <;> rfl

theorem installSnapshot_eq (s : Str) : installSnapshot F s = parseHeader F s >>= fun y =>
    if y.2.length < 4 then .error .overread
    else readRecords parseChunk (beNat (y.2.take 4)) (y.2.drop 4) >>= fun z =>
      .ok (y.1.1, restoreNodes y.1.2, restoreChunks z.1) := by
  unfold installSnapshot parseHeader
  split_ifs
  · rfl
  · rfl
  · dsimp only
    cases readRecords (parseNode F) _ _ <;> rfl

end Checked

/-! ### The read behind the nodes -/

/-- A record: four bytes of length, and as many bytes of data. -/
def IsRecord (r : Str × Str) : Prop := r.1.length = 4 ∧ beNat r.1 = r.2.length

/-- The buffer has a header and as many node records as the header says, all of which parse, and less
than the four bytes of a count behind them. -/
def CountCutOff (s : Str) : Prop :=
  ∃ (header : Str) (records : List (Str × Str)) (rest : Str),
    s = header ++ (records.flatMap (fun r => r.1 ++ r.2) ++ rest) ∧ header.length = 16 ∧
    beNat (header.take 4) = snapshotMagic ∧ beNat (header.drop 12) = records.length ∧
    (∀ r ∈ records, IsRecord r ∧ ∃ n, parseNode F r.2 = .ok n) ∧ rest.length < 4

section CutOff

variable {F}

theorem readLp_eq_ok {s x rest : Str} : readLp s = .ok (x, rest) ↔
    ∃ head, IsRecord (head, x) ∧ s = head ++ x ++ rest := by
  unfold readLp
  constructor
  · intro h
    split_ifs at h with h4 hn
    obtain ⟨rfl, rfl⟩ := Prod.mk.inj (Except.ok.inj h)
    refine ⟨s.take 4, ⟨List.length_take_of_le (not_lt.mp h4), ?_⟩, ?_⟩
    · exact (List.length_take_of_le (not_lt.mp hn)).symm
    · rw [List.append_assoc, List.take_append_drop, List.take_append_drop]
  · rintro ⟨head, ⟨h4, hn⟩, rfl⟩
    dsimp only at h4 hn
    rw [List.append_assoc, List.take_left' h4, List.drop_left' h4, hn,
      if_neg (by rw [List.length_append]; omega), if_neg (by simp), List.take_left, List.drop_left]

/-- One round of the loop. -/
theorem readRecords_succ_eq_ok {α : Type} {parse : Str → Install α} {k : ℕ} {s rest : Str}
    {xs : List α} : readRecords parse (k + 1) s = .ok (xs, rest) ↔
      ∃ entry s' x xs', readLp s = .ok (entry, s') ∧ parse entry = .ok x ∧
        readRecords parse k s' = .ok (xs', rest) ∧ xs = x :: xs' := by
  simp only [readRecords, bind, Except.bind]
  constructor
  · intro h
    split at h
    · simp at h
    rename_i y hlp
    split at h
    · simp at h
    rename_i x hx
    split at h
    · simp at h
    rename_i z hxs
    obtain ⟨rfl, rfl⟩ := Prod.mk.inj (Except.ok.inj h)
    exact ⟨y.1, y.2, x, z.1, hlp, hx, hxs, rfl⟩
  · rintro ⟨entry, s', x, xs', hlp, hx, hxs, rfl⟩
    simp only [hlp, hx, hxs]

/-- The records that a loop reads, and what it leaves. -/
theorem readRecords_eq_ok {α : Type} {parse : Str → Install α} {k : ℕ} {s rest : Str} :
    (∃ xs, readRecords parse k s = .ok (xs, rest)) ↔
      ∃ records : List (Str × Str), records.length = k ∧
        s = records.flatMap (fun r => r.1 ++ r.2) ++ rest ∧
        ∀ r ∈ records, IsRecord r ∧ ∃ x, parse r.2 = .ok x := by
  induction k generalizing s with
  | zero =>
    constructor
    · rintro ⟨xs, h⟩
      obtain ⟨-, rfl⟩ := Prod.mk.inj (Except.ok.inj h)
      exact ⟨[], rfl, rfl, by simp⟩
    · rintro ⟨records, hlen, rfl, -⟩
      rw [List.length_eq_zero_iff.mp hlen]
      exact ⟨[], rfl⟩
  | succ k ih =>
    constructor
    · rintro ⟨xs, h⟩
      obtain ⟨entry, s', x, xs', hlp, hx, hxs, rfl⟩ := readRecords_succ_eq_ok.mp h
      obtain ⟨head, hrec, rfl⟩ := readLp_eq_ok.mp hlp
      obtain ⟨records, hlen, rfl, hrecords⟩ := ih.mp ⟨xs', hxs⟩
      refine ⟨(head, entry) :: records, by simp [hlen], by simp, ?_⟩
      exact List.forall_mem_cons.mpr ⟨⟨hrec, x, hx⟩, hrecords⟩
    · rintro ⟨records, hlen, rfl, hrecords⟩
      obtain ⟨⟨head, entry⟩, records, rfl⟩ :=
        List.exists_cons_of_length_pos (l := records) (by omega)
      obtain ⟨⟨hrec, x, hx⟩, hrecords⟩ := List.forall_mem_cons.mp hrecords
      obtain ⟨xs, hxs⟩ := ih.mpr ⟨records, by simpa using hlen, rfl, hrecords⟩
      refine ⟨x :: xs, readRecords_succ_eq_ok.mpr ⟨entry, _, x, xs, ?_, hx, hxs, rfl⟩⟩
      exact readLp_eq_ok.mpr ⟨head, hrec, by simp⟩

theorem parseHeader_eq_ok {s rest : Str} :
    (∃ header, parseHeader F s = .ok (header, rest)) ↔ 16 ≤ s.length ∧
      beNat (s.take 4) = snapshotMagic ∧
      ∃ nodes, readRecords (parseNode F) (beNat ((s.take 16).drop 12)) (s.drop 16) =
        .ok (nodes, rest) := by
  have hcount : ((((s.drop 4).drop 8)).take 4) = (s.take 16).drop 12 := by
    rw [List.drop_drop, List.drop_take]
  have hbody : ((s.drop 4).drop 8).drop 4 = s.drop 16 := by
    rw [List.drop_drop, List.drop_drop]
  unfold parseHeader
  dsimp only
  rw [hcount, hbody]
  constructor
  · rintro ⟨header, h⟩
    split_ifs at h with h16 hmagic
    cases hn : readRecords (parseNode F) (beNat ((s.take 16).drop 12)) (s.drop 16) with
    | error e => simp [hn, bind, Except.bind] at h
    | ok y =>
      simp only [hn, bind, Except.bind, Except.ok.injEq, Prod.mk.injEq] at h
      exact ⟨not_lt.mp h16, not_not.mp hmagic, y.1, by rw [← h.2]⟩
  · rintro ⟨h16, hmagic, nodes, hn⟩
    rw [if_neg (not_lt.mpr h16), if_neg (not_not.mpr hmagic), hn]
    exact ⟨_, rfl⟩

theorem countCutOff_iff {s : Str} :
    CountCutOff F s ↔ ∃ header rest, parseHeader F s = .ok (header, rest) ∧ rest.length < 4 := by
  constructor
  · rintro ⟨header, records, rest, rfl, h16, hmagic, hcount, hrecords, hrest⟩
    have hok : ∃ h, parseHeader F (header ++ (records.flatMap (fun r => r.1 ++ r.2) ++ rest)) =
        .ok (h, rest) := by
      refine parseHeader_eq_ok.mpr ⟨by rw [List.length_append]; omega, ?_, ?_⟩
      · rwa [List.take_append_of_le_length (by omega)]
      · rw [List.take_left' h16, List.drop_left' h16, hcount]
        exact readRecords_eq_ok.mpr ⟨records, rfl, rfl, hrecords⟩
    obtain ⟨h, hh⟩ := hok
    exact ⟨h, rest, hh, hrest⟩
  · rintro ⟨header, rest, hh, hrest⟩
    obtain ⟨h16, hmagic, hnodes⟩ := parseHeader_eq_ok.mp ⟨header, hh⟩
    obtain ⟨records, hlen, hs, hrecords⟩ := readRecords_eq_ok.mp hnodes
    refine ⟨s.take 16, records, rest, ?_, List.length_take_of_le h16, ?_, hlen.symm, hrecords, hrest⟩
    · rw [← hs, List.take_append_drop]
    · rwa [List.take_take, min_eq_left (by decide)]

end CutOff

/-! ### The installation -/

section Run

variable {F} {data : Str} {behind : ℕ → Char} {c : MetaCoordinator φ}

theorem buffer_memory : Scan.buffer (memory data behind) data.length = data := by
  refine List.ext_getElem (by simp [Scan.buffer]) fun i h1 h2 => ?_
  simp [Scan.buffer, memory, h2]

/-- All reads lie in the buffer, and an installation that throws leaves both tables alone. -/
def InstallsInside (F : FloatText φ) (data : Str) (behind : ℕ → Char) (c : MetaCoordinator φ) :
    Prop :=
  (∀ read ∈ (installRun F data behind c).2.reads, read.1 + read.2 ≤ data.length) ∧
    ∀ e, (installRun F data behind c).1 = .error e → (installRun F data behind c).2.state = c

variable (F data behind c) in
/-- **How an installation goes**: it fails at the nodes, or behind them at the chunks, or it fills both
tables. -/
theorem installRun_cases :
    (∃ e c₁, (readNodesAt F (memory data behind) data.length).run ⟨0, [], c⟩ = (.error e, c₁) ∧
      installRun F data behind c = (.error e, c₁)) ∨
    ∃ header c₁,
      (readNodesAt F (memory data behind) data.length).run ⟨0, [], c⟩ = (.ok header, c₁) ∧
      ((∃ e c₃, (readChunksAt (memory data behind) data.length).run c₁ = (.error e, c₃) ∧
        installRun F data behind c = (.error e, c₃)) ∨
      ∃ chunks c₃, (readChunksAt (memory data behind) data.length).run c₁ = (.ok chunks, c₃) ∧
        installRun F data behind c =
          (.ok header.1, { c₃ with state := restoreSnapshot header.2 chunks c₃.state })) := by
  unfold installRun installSnapshotAt
  cases h₁ : (readNodesAt F (memory data behind) data.length).run ⟨0, [], c⟩ with
  | mk r₁ c₁ =>
    cases r₁ with
    | error e => exact .inl ⟨e, c₁, rfl, Scan.run_bind_error h₁⟩
    | ok header =>
      refine .inr ⟨header, c₁, rfl, ?_⟩
      rw [Scan.run_bind_ok h₁]
      cases h₃ : (readChunksAt (memory data behind) data.length).run c₁ with
      | mk r₃ c₃ =>
        cases r₃ with
        | error e => exact .inl ⟨e, c₃, rfl, Scan.run_bind_error h₃⟩
        | ok chunks =>
          rw [Scan.run_bind_ok h₃]
          exact .inr ⟨chunks, c₃, rfl, rfl⟩

/-- **An installation that throws leaves both tables alone**, wherever it has read. -/
theorem state_of_error {e : InstallError} (h : (installRun F data behind c).1 = .error e) :
    (installRun F data behind c).2.state = c := by
  have hread₁ : (readNodesAt F (memory data behind) data.length).ReadOnly := readOnly_readNodesAt
  have hread₃ : (readChunksAt (memory data behind) data.length : Reading φ _).ReadOnly :=
    readOnly_readChunksAt
  have hs₁ := (hread₁ ⟨0, [], c⟩).2
  rcases installRun_cases F data behind c with
    ⟨e, c₁, h₁, hrun⟩ | ⟨header, c₁, h₁, ⟨e, c₃, h₃, hrun⟩ | ⟨chunks, c₃, h₃, hrun⟩⟩
  · rw [h₁] at hs₁
    rw [hrun]
    exact hs₁
  · have hs₃ := (hread₃ c₁).2
    rw [h₁] at hs₁
    rw [h₃] at hs₃
    rw [hrun]
    exact hs₃.trans hs₁
  · rw [hrun] at h
    simp at h

variable (data behind c) in
/-- The header is read inside the buffer, and as `parseHeader` does. -/
theorem lands_header : Scan.Lands (memory data behind) data.length (parseHeader F data)
    ((readNodesAt F (memory data behind) data.length).run ⟨0, [], c⟩) := by
  have hfollows : Scan.Follows (memory data behind) data.length 0
      (readNodesAt F (memory data behind) data.length) (parseHeader F) := follows_readNodesAt
  have h := hfollows ⟨0, [], c⟩ (Nat.zero_le _) (by simp [Cursor.Within])
  rwa [buffer_memory] at h

variable (data behind) in
/-- The read of the count stays among the reads. -/
theorem count_read (c₁ : Cursor (MetaCoordinator φ)) :
    (c₁.off, 4) ∈ ((readChunksAt (memory data behind) data.length).run c₁).2.reads := by
  have hrecords : ∀ k, (readRecordsAt (memory data behind) data.length parseChunk k :
      Reading φ (List ChunkEntry)).ReadOnly := readOnly_readRecordsAt parseChunk
  have hgrow := (hrecords (beNat ((List.range 4).map fun i => memory data behind (c₁.off + i)))
    { c₁ with off := c₁.off + 4, reads := c₁.reads ++ [(c₁.off, 4)] }).1
  exact hgrow.subset (by simp)

variable (behind c) in
/-- **A count that is cut off is read behind the end.** -/
theorem overreads (h : CountCutOff F data) :
    ∃ read ∈ (installRun F data behind c).2.reads, data.length < read.1 + read.2 := by
  obtain ⟨header, rest, hheader, hrest⟩ := countCutOff_iff.mp h
  obtain ⟨hoff, -, hresult⟩ := lands_header data behind c
  rw [hheader] at hresult
  rcases installRun_cases F data behind c with ⟨e, c₁, h₁, -⟩ | ⟨header', c₁, h₁, hrun⟩
  · rw [h₁] at hresult
    simp [Except.map] at hresult
  · rw [h₁] at hresult hoff
    obtain ⟨rfl, rfl⟩ := Prod.mk.inj (Except.ok.inj hresult)
    rw [buffer_memory, List.length_drop] at hrest
    have hread := count_read data behind c₁
    refine ⟨(c₁.off, 4), ?_, by dsimp only at hoff hrest ⊢; omega⟩
    rcases hrun with ⟨e, c₃, h₃, hrun⟩ | ⟨chunks, c₃, h₃, hrun⟩
    · rw [hrun]
      rwa [h₃] at hread
    · rw [hrun]
      rwa [h₃] at hread

/-- **Otherwise the installation is that of the bytes**: it reads nothing else, and does what
`installSnapshot` does. -/
theorem installRun_inside (h : ¬ CountCutOff F data) :
    (installRun F data behind c).2.Within data.length ∧
      (installRun F data behind c).1 = (installSnapshot F data).map Prod.fst ∧
      ∀ r, installSnapshot F data = .ok r →
        (installRun F data behind c).2.state.nodeTable = r.2.1 ∧
          (installRun F data behind c).2.state.chunkTable = r.2.2 := by
  obtain ⟨hoff, hin, hresult⟩ := lands_header data behind c
  rw [installSnapshot_eq]
  rcases installRun_cases F data behind c with ⟨e, c₁, h₁, hrun⟩ | ⟨header, c₁, h₁, hrun⟩
  · rw [h₁] at hresult hin
    rw [hrun, hresult]
    exact ⟨hin, rfl, fun r hr => by simp [Except.map, bind, Except.bind] at hr⟩
  · rw [h₁] at hresult hoff hin
    have hrest : ¬ (data.drop c₁.off).length < 4 := fun hlt => by
      rw [buffer_memory] at hresult
      exact h (countCutOff_iff.mpr ⟨header, _, hresult, hlt⟩)
    have hfour : c₁.off + 4 ≤ data.length := by
      rw [List.length_drop] at hrest
      dsimp only at hoff
      omega
    have hfollows : Scan.Follows (memory data behind) data.length 4
        (readChunksAt (memory data behind) data.length : Reading φ (List ChunkEntry))
        fun s => readRecords parseChunk (beNat (s.take 4)) (s.drop 4) := follows_readChunksAt
    obtain ⟨-, hin₃, hresult₃⟩ := hfollows c₁ hfour hin
    rw [buffer_memory] at hresult hresult₃
    rw [hresult]
    simp only [Except.map, bind, Except.bind, if_neg hrest, hresult₃]
    rcases hrun with ⟨e, c₃, h₃, hrun⟩ | ⟨chunks, c₃, h₃, hrun⟩
    · rw [h₃] at hin₃ ⊢
      rw [hrun]
      exact ⟨hin₃, rfl, fun r hr => by simp at hr⟩
    · rw [h₃] at hin₃ ⊢
      rw [hrun]
      refine ⟨hin₃, rfl, fun r hr => ?_⟩
      obtain rfl := Except.ok.inj hr
      exact ⟨rfl, rfl⟩

/-- **When an installation reads its buffer only**, and a throw leaves the tables as they were. -/
theorem install_inside_iff (F : FloatText φ) (data : Str) (behind : ℕ → Char)
    (c : MetaCoordinator φ) : InstallsInside F data behind c ↔ ¬ CountCutOff F data := by
  constructor
  · rintro ⟨hin, -⟩ hcut
    obtain ⟨read, hread, hlt⟩ := overreads behind c hcut
    exact absurd (hin read hread) (not_le.mpr hlt)
  · exact fun h => ⟨(installRun_inside h).1, fun e he => state_of_error he⟩

/-- A snapshot without nodes, cut off behind the node count. -/
def cutSnapshot : Str := beBytes 4 snapshotMagic ++ (beBytes 8 0 ++ beBytes 4 0)

/-- **Sixteen bytes are let through, and the chunk count is read behind them.** -/
theorem cutSnapshot_overread : ¬ ∀ (data : Str) (behind : ℕ → Char) (c : MetaCoordinator Unit),
    InstallsInside zeroText data behind c := by
  intro h
  have hcut : CountCutOff zeroText cutSnapshot :=
    ⟨cutSnapshot, [], [], rfl, rfl, by decide, by decide, by simp, by decide⟩
  obtain ⟨read, hread, hlt⟩ :=
    overreads (fun _ => 'x') (.noNodes Unit Kv.empty fun _ _ he => by simp at he) hcut
  exact absurd ((h _ _ _).1 read hread) (not_le.mpr hlt)

end Run

end NimbusVault
