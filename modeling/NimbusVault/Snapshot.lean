import NimbusVault.Payload

/-!
# Snapshot — the metadata tables as one byte string

`takeSnapshot` writes a magic number, the log index the snapshot stands for, and the nodes and
chunks as length-prefixed records of `;`-separated fields; `installSnapshot` reads them back.  The
reader works on what is left of the buffer; it checks the length of every record, but not that the
four bytes of the chunk count are there (`InstallError.overread`).  Floating point fields are an
abstract type with its printer and parser (`FloatText`).  Records without separators in their names
come back as they were written, up to what the parser leaves out (`installSnapshot_takeSnapshot`).
-/

namespace NimbusVault

open Lib Lib.Text

/-- A floating point type with `std::to_string` and `std::stof`: what is printed holds no `;` and
parses. -/
structure FloatText (φ : Type) where
  print : φ → Str
  stof : Str → Option φ
  sep_not_mem : ∀ x, ';' ∉ print x
  stof_print : ∀ x, (stof (print x)).isSome = true

/-- A node with all that the snapshot keeps of it. -/
structure NodeRecord (φ : Type) extends NodeEntry where
  loadFraction : φ
  freeBytes : UInt64
  totalBytes : UInt64
  failureRate7d : φ
  lastSeenMs : UInt64

/-! ### Writing -/

def snapshotMagic : ℕ := 0x4E4D5653

/-- The length in four bytes, and the data. -/
def writeLp (data : Str) : Str := beBytes 4 data.length ++ data

/-- Fields, each behind the one before it with a `;` between. -/
def joinFields (fields : List Str) (last : Str) : Str :=
  fields.foldr (fun field rest => field ++ ';' :: rest) last

def ChunkConfigState.code : ChunkConfigState → ℕ
  | .stable => 0
  | .transitioning => 1

def serializeChunk (e : ChunkEntry) : Str :=
  joinFields [e.chunkId, decimal e.version.toNat, decimalInt e.replicationFactor.toInt,
    decimal e.sizeBytes.toNat, decimal e.configState.code, encodeSet e.replicaSet,
    encodeSet e.oldReplicaSet] []

variable {φ : Type} (F : FloatText φ)

def serializeNode (n : NodeRecord φ) : Str :=
  joinFields [n.nodeId, n.address, F.print n.loadFraction, decimal n.freeBytes.toNat,
    decimal n.totalBytes.toNat, F.print n.failureRate7d, decimal n.lastSeenMs.toNat]
    (decimal n.alive.toNat)

/-- The bytes for the log index `lsn` and the two lists as they were read. -/
def takeSnapshot (lsn : ℕ) (nodes : List (NodeRecord φ)) (chunks : List ChunkEntry) : Str :=
  beBytes 4 snapshotMagic ++ (beBytes 8 lsn ++
    (beBytes 4 nodes.length ++ (nodes.flatMap (fun n => writeLp (serializeNode F n)) ++
      (beBytes 4 chunks.length ++ chunks.flatMap fun e => writeLp (serializeChunk e)))))

/-! ### Reading -/

inductive InstallError
  | threw (what : Str)
  /-- The reader looked at bytes behind the end of the buffer. -/
  | overread
  deriving DecidableEq

abbrev Install := Except InstallError

def throwing {α : Type} (what : String) : Option α → Install α
  | none => .error (.threw what.toList)
  | some x => .ok x

/-- A record, and what follows it. -/
def readLp (s : Str) : Install (Str × Str) :=
  if s.length < 4 then .error (.threw "snapshot truncated (len)".toList)
  else if (s.drop 4).length < beNat (s.take 4) then .error (.threw "snapshot truncated (data)".toList)
  else .ok ((s.drop 4).take (beNat (s.take 4)), (s.drop 4).drop (beNat (s.take 4)))

/-- A loop of `read_lp` and one of the parsers. -/
def readRecords {α : Type} (parse : Str → Install α) : ℕ → Str → Install (List α × Str)
  | 0, s => .ok ([], s)
  | k + 1, s => do
    let (entry, s) ← readLp s
    let x ← parse entry
    let (xs, s) ← readRecords parse k s
    .ok (x :: xs, s)

/-- The loops of `parse_node` and `parse_chunk`: every separator ends a part, an empty one too;
behind the last one a part is kept only when it is not empty. -/
def splitParts (cur : Str) : Str → List Str
  | [] => if cur ≠ [] then [cur] else []
  | c :: s => if c = ';' then cur :: splitParts [] s else splitParts (cur ++ [c]) s

def parseChunk (s : Str) : Install ChunkEntry :=
  match splitParts [] s with
  | p0 :: p1 :: p2 :: p3 :: p4 :: p5 :: p6 :: _ => do
    let version ← throwing "stoull" (stoull p1)
    let replicationFactor ← throwing "stoi" (stoi p2)
    let sizeBytes ← throwing "stoull" (stoull p3)
    let state ← throwing "stoi" (stoi p4)
    .ok { chunkId := p0, version, replicationFactor, sizeBytes,
          configState := if state = 0 then .stable else .transitioning,
          replicaSet := splitNonempty p5 ',', oldReplicaSet := splitNonempty p6 ',' }
  | _ => .error (.threw "malformed chunk entry".toList)

/-- The liveness field is not looked at. -/
def parseNode (s : Str) : Install (NodeRecord φ) :=
  match splitParts [] s with
  | p0 :: p1 :: p2 :: p3 :: p4 :: p5 :: p6 :: _ => do
    let loadFraction ← throwing "stof" (F.stof p2)
    let freeBytes ← throwing "stoull" (stoull p3)
    let totalBytes ← throwing "stoull" (stoull p4)
    let failureRate7d ← throwing "stof" (F.stof p5)
    let lastSeenMs ← throwing "stoull" (stoull p6)
    .ok { nodeId := p0, address := p1, alive := true, loadFraction, freeBytes, totalBytes,
          failureRate7d, lastSeenMs }
  | _ => .error (.threw "malformed node entry".toList)

/-- `restore_snapshot`, the chunk table. -/
def restoreChunks (chunks : List ChunkEntry) : ChunkTable :=
  chunks.foldl (fun t e => t.put e.chunkId e) Kv.empty

/-- `restore_snapshot`, the node table. -/
def restoreNodes (nodes : List (NodeRecord φ)) : Kv Str (NodeRecord φ) :=
  nodes.foldl (fun t n => t.put n.nodeId n) Kv.empty

/-- The log index of the snapshot, and the tables it leaves. -/
def installSnapshot (s : Str) : Install (ℕ × Kv Str (NodeRecord φ) × ChunkTable) :=
  if s.length < 16 then .error (.threw "snapshot too small".toList)
  else if beNat (s.take 4) ≠ snapshotMagic then .error (.threw "snapshot magic mismatch".toList)
  else do
    let s := s.drop 4
    let lsn := beNat (s.take 8)
    let s := s.drop 8
    let (nodes, s) ← readRecords (parseNode F) (beNat (s.take 4)) (s.drop 4)
    if s.length < 4 then .error .overread
    else
      let (chunks, _) ← readRecords parseChunk (beNat (s.take 4)) (s.drop 4)
      .ok (lsn, restoreNodes nodes, restoreChunks chunks)

theorem restoreChunks_getChunks {t : ChunkTable} (h : t.Keyed) : restoreChunks (getChunks t) = t :=
  Kv.foldl_put_values h

/-! ### Records come back -/

section RoundTrip

variable {s x : Str} {fields : List Str}

theorem splitParts_field (hx : ';' ∉ x) (cur s : Str) :
    splitParts cur (x ++ ';' :: s) = (cur ++ x) :: splitParts [] s := by
  induction x generalizing cur with
  | nil => simp [splitParts]
  | cons c x ih =>
    have hc : c ≠ ';' := by rintro rfl; simp at hx
    rw [List.cons_append, splitParts, if_neg hc, ih (fun h => hx (by simp [h]))]
    simp

theorem splitParts_last (hx : ';' ∉ x) (cur : Str) :
    splitParts cur x = if cur ++ x ≠ [] then [cur ++ x] else [] := by
  induction x generalizing cur with
  | nil => simp [splitParts]
  | cons c x ih =>
    have hc : c ≠ ';' := by rintro rfl; simp at hx
    rw [splitParts, if_neg hc, ih (fun h => hx (by simp [h]))]
    simp

/-- **The parts of a record** are its fields; a last one that is empty is dropped. -/
theorem splitParts_joinFields (h : ∀ f ∈ fields, ';' ∉ f) (hx : ';' ∉ x) :
    splitParts [] (joinFields fields x) = fields ++ if x ≠ [] then [x] else [] := by
  induction fields with
  | nil => exact splitParts_last hx []
  | cons f fields ih =>
    show splitParts [] (f ++ ';' :: joinFields fields x) = _
    rw [splitParts_field (h f (by simp)), ih fun g hg => h g (by simp [hg])]
    rfl

/-- A chunk record without separators in its names. -/
structure ChunkEntry.Plain (e : ChunkEntry) : Prop where
  id_sep : ';' ∉ e.chunkId
  replicas : ∀ r ∈ e.replicaSet, r ≠ [] ∧ ';' ∉ r ∧ ',' ∉ r
  oldReplicas : ∀ r ∈ e.oldReplicaSet, r ≠ [] ∧ ';' ∉ r ∧ ',' ∉ r
  size_lt : (serializeChunk e).length < 2 ^ 32

theorem encodeSet_sep {set : List Str} (h : ∀ r ∈ set, r ≠ [] ∧ ';' ∉ r ∧ ',' ∉ r) :
    ';' ∉ encodeSet set := by
  intro hm
  obtain ⟨r, hr, hm⟩ := List.mem_flatMap.mp hm
  rcases List.mem_append.mp hm with hm | hm
  · exact (h r hr).2.1 hm
  · simp at hm

theorem splitNonempty_encodeSet {set : List Str} (h : ∀ r ∈ set, r ≠ [] ∧ ';' ∉ r ∧ ',' ∉ r) :
    splitNonempty (encodeSet set) ',' = set :=
  splitNonempty_flatMap fun r hr => ⟨(h r hr).1, (h r hr).2.2⟩

/-- **A plain chunk record is read back.** -/
theorem parseChunk_serializeChunk {e : ChunkEntry} (h : e.Plain) :
    parseChunk (serializeChunk e) = .ok e := by
  have hdigit : ';'.isDigit = false := by decide
  have hparts : splitParts [] (serializeChunk e) =
      [e.chunkId, decimal e.version.toNat, decimalInt e.replicationFactor.toInt,
        decimal e.sizeBytes.toNat, decimal e.configState.code, encodeSet e.replicaSet,
        encodeSet e.oldReplicaSet] := by
    refine (splitParts_joinFields (fun f hf => ?_) (by simp)).trans (by simp)
    simp only [List.mem_cons, List.not_mem_nil, or_false] at hf
    rcases hf with rfl | rfl | rfl | rfl | rfl | rfl | rfl
    · exact h.id_sep
    · exact not_mem_decimal hdigit _
    · exact not_mem_decimalInt hdigit (by decide) _
    · exact not_mem_decimal hdigit _
    · exact not_mem_decimal hdigit _
    · exact encodeSet_sep h.replicas
    · exact encodeSet_sep h.oldReplicas
  have hstate : stoi (decimal e.configState.code) =
      some (if e.configState = .stable then 0 else 1) := by
    cases e.configState <;> decide
  unfold parseChunk
  rw [hparts]
  simp only [stoull_decimal, stoi_decimalInt, hstate, splitNonempty_encodeSet h.replicas,
    splitNonempty_encodeSet h.oldReplicas, throwing]
  obtain ⟨id, v, rs, rf, st, old, sz⟩ := e
  cases st <;> rfl

/-- A node record without separators in its names. -/
structure NodeRecord.Plain (n : NodeRecord φ) : Prop where
  id_sep : ';' ∉ n.nodeId
  addr_sep : ';' ∉ n.address
  size_lt : (serializeNode F n).length < 2 ^ 32

/-- A float after it was printed and parsed. -/
def FloatText.reread (x : φ) : φ := (F.stof (F.print x)).get (F.stof_print x)

/-- What the parser makes of a node: alive, whatever it was. -/
def NodeRecord.reread (n : NodeRecord φ) : NodeRecord φ :=
  { n with
    alive := true, loadFraction := F.reread n.loadFraction, failureRate7d := F.reread n.failureRate7d }

variable {F}

theorem parseNode_serializeNode {n : NodeRecord φ} (h : n.Plain F) :
    parseNode F (serializeNode F n) = .ok (n.reread F) := by
  have hdigit : ';'.isDigit = false := by decide
  have hparts : splitParts [] (serializeNode F n) =
      [n.nodeId, n.address, F.print n.loadFraction, decimal n.freeBytes.toNat,
        decimal n.totalBytes.toNat, F.print n.failureRate7d, decimal n.lastSeenMs.toNat,
        decimal n.alive.toNat] := by
    refine (splitParts_joinFields (fun f hf => ?_) (not_mem_decimal hdigit _)).trans
      (by simp [decimal_ne_nil])
    simp only [List.mem_cons, List.not_mem_nil, or_false] at hf
    rcases hf with rfl | rfl | rfl | rfl | rfl | rfl | rfl
    · exact h.id_sep
    · exact h.addr_sep
    · exact F.sep_not_mem _
    · exact not_mem_decimal hdigit _
    · exact not_mem_decimal hdigit _
    · exact F.sep_not_mem _
    · exact not_mem_decimal hdigit _
  have hfloat : ∀ y, F.stof (F.print y) = some (F.reread y) := fun y => (Option.some_get _).symm
  unfold parseNode
  rw [hparts]
  simp only [stoull_decimal, hfloat, throwing]
  rfl

theorem readLp_writeLp (hx : x.length < 2 ^ 32) (s : Str) : readLp (writeLp x ++ s) = .ok (x, s) := by
  have hlen : (beBytes 4 x.length).length = 4 := length_beBytes 4 _
  have hnat : beNat (beBytes 4 x.length) = x.length := by
    rw [beNat_beBytes, Nat.mod_eq_of_lt (hx.trans_eq (by norm_num))]
  unfold readLp writeLp
  rw [List.append_assoc, List.take_left' hlen, List.drop_left' hlen, hnat,
    if_neg (by simp), if_neg (by simp), List.take_left, List.drop_left]

/-- Records that are read back one by one are read back in a row. -/
theorem readRecords_flatMap {α β : Type} {parse : Str → Install β} {write : α → Str} {back : α → β}
    {xs : List α} (h : ∀ a ∈ xs, (write a).length < 2 ^ 32 ∧ parse (write a) = .ok (back a)) (s : Str) :
    readRecords parse xs.length ((xs.flatMap fun a => writeLp (write a)) ++ s) =
      .ok (xs.map back, s) := by
  induction xs with
  | nil => rfl
  | cons a xs ih =>
    obtain ⟨hlen, hparse⟩ := h a (by simp)
    rw [List.flatMap_cons, List.append_assoc, List.length_cons, readRecords, readLp_writeLp hlen]
    show (parse (write a) >>= _) = _
    rw [hparse]
    show (readRecords parse xs.length _ >>= _) = _
    rw [ih fun b hb => h b (by simp [hb])]
    rfl

end RoundTrip

/-! ### Snapshots come back -/

/-- The numbers fit their places, and the records are plain. -/
structure PlainSnapshot (lsn : ℕ) (nodes : List (NodeRecord φ)) (chunks : List ChunkEntry) : Prop where
  lsn_lt : lsn < 2 ^ 64
  nodes_lt : nodes.length < 2 ^ 32
  chunks_lt : chunks.length < 2 ^ 32
  node : ∀ n ∈ nodes, n.Plain F
  chunk : ∀ e ∈ chunks, e.Plain

variable {F}

/-- A number in front of a buffer. -/
theorem take_beBytes (w n : ℕ) (s : Str) : (beBytes w n ++ s).take w = beBytes w n :=
  List.take_left' (length_beBytes w n)

theorem drop_beBytes (w n : ℕ) (s : Str) : (beBytes w n ++ s).drop w = s :=
  List.drop_left' (length_beBytes w n)

/-- **A plain snapshot is installed as it was taken.** -/
theorem installSnapshot_takeSnapshot {lsn : ℕ} {nodes : List (NodeRecord φ)} {chunks : List ChunkEntry}
    (h : PlainSnapshot F lsn nodes chunks) : installSnapshot F (takeSnapshot F lsn nodes chunks) =
      .ok (lsn, restoreNodes (nodes.map (NodeRecord.reread F)), restoreChunks chunks) := by
  have hlsn : beNat (beBytes 8 lsn) = lsn := by
    rw [beNat_beBytes, Nat.mod_eq_of_lt (h.lsn_lt.trans_eq (by norm_num))]
  have hnodes : beNat (beBytes 4 nodes.length) = nodes.length := by
    rw [beNat_beBytes, Nat.mod_eq_of_lt (h.nodes_lt.trans_eq (by norm_num))]
  have hchunks : beNat (beBytes 4 chunks.length) = chunks.length := by
    rw [beNat_beBytes, Nat.mod_eq_of_lt (h.chunks_lt.trans_eq (by norm_num))]
  have hmagic : beNat (beBytes 4 snapshotMagic) = snapshotMagic := by
    rw [beNat_beBytes]
    rfl
  have hreadNodes : ∀ s, readRecords (parseNode F) nodes.length
      ((nodes.flatMap fun n => writeLp (serializeNode F n)) ++ s) =
        .ok (nodes.map (NodeRecord.reread F), s) :=
    readRecords_flatMap fun n hn => ⟨(h.node n hn).size_lt, parseNode_serializeNode (h.node n hn)⟩
  have hreadChunks : ∀ s, readRecords parseChunk chunks.length
      ((chunks.flatMap fun e => writeLp (serializeChunk e)) ++ s) = .ok (chunks.map id, s) :=
    readRecords_flatMap fun e he => ⟨(h.chunk e he).size_lt, parseChunk_serializeChunk (h.chunk e he)⟩
  unfold installSnapshot takeSnapshot
  rw [if_neg (by simp; omega), take_beBytes, hmagic, if_neg (by simp)]
  dsimp only
  simp only [take_beBytes, drop_beBytes, hlsn, hnodes]
  rw [hreadNodes]
  dsimp only [bind, Except.bind]
  rw [if_neg (by simp)]
  simp only [take_beBytes, drop_beBytes, hchunks]
  rw [← List.append_nil (chunks.flatMap _), hreadChunks, List.map_id]

end NimbusVault
