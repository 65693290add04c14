import NimbusVault.Repair

/-!
# FetchStream — a chunk in pieces

`FetchChunk` sends the newest stored version of a chunk in pieces of at most 64 KiB, an empty chunk
as one empty piece; only the last piece says that it is the last (`IsStream`).  There are two
receivers, each with a loop of its own: `receiveCopy` of the driver keeps the bytes, `receivePeer` of
the repair also the newest version that it sees on a piece.  Of a `FetchChunk` both get what the
sender has stored, so that the models of the two callers take its answer as a whole.
-/

namespace NimbusVault

open Lib

structure ChunkData where
  data : Str
  version : UInt64
  isLast : Bool
  deriving DecidableEq

/-! ### The sender -/

/-- `kChunk`. -/
def pieceSize : ℕ := 64 * 1024

/-- The loop from the offset `off` on. -/
def sendLoop (data : Str) (version : UInt64) (off : ℕ) : List ChunkData :=
  if off < data.length then
    let n := min pieceSize (data.length - off)
    { data := (data.drop off).take n, version, isLast := data.length ≤ off + n } ::
      sendLoop data version (off + n)
  else []
termination_by data.length - off
decreasing_by
  have : 0 < pieceSize := by decide
  omega

/-- The pieces that the handler writes; `none` is the status `NOT_FOUND`. -/
def fetchPieces (st : ChunkStore) (chunkId : Str) (version : UInt64) : Option (List ChunkData) :=
  match st.read chunkId version with
  | none => none
  | some (data, found) =>
    if found < version then none
    else some (sendLoop data found 0 ++ if data = [] then [⟨[], found, true⟩] else [])

/-- The pieces of `data` under `version`: of all and only the last one it is said that it is. -/
structure IsStream (pieces : List ChunkData) (data : Str) (version : UInt64) : Prop where
  framed : ∃ init last, pieces = init ++ [last] ∧ last.isLast = true ∧
    ∀ p ∈ init, p.isLast = false
  versions : ∀ p ∈ pieces, p.version = version
  bytes : pieces.flatMap ChunkData.data = data

section Sender

variable {st : ChunkStore} {c data : Str} {v found : UInt64} {off : ℕ}

theorem sendLoop_versions : ∀ p ∈ sendLoop data v off, p.version = v := by
  fun_induction sendLoop data v off with
  | case1 off hoff n ih => exact List.forall_mem_cons.mpr ⟨rfl, ih⟩
  | case2 off hoff => simp

theorem sendLoop_bytes : (sendLoop data v off).flatMap ChunkData.data = data.drop off := by
  fun_induction sendLoop data v off with
  | case1 off hoff n ih =>
    rw [List.flatMap_cons, ih, ← List.drop_drop]
    exact List.take_append_drop n _
  | case2 off hoff => simp [List.drop_of_length_le (not_lt.mp hoff)]

/-- Of the pieces of what is left, exactly the last one ends the data. -/
theorem sendLoop_framed (h : off < data.length) : ∃ init last, sendLoop data v off = init ++ [last] ∧
    last.isLast = true ∧ ∀ p ∈ init, p.isLast = false := by
  fun_induction sendLoop data v off with
  | case1 off hoff n ih =>
    by_cases hn : off + n < data.length
    · obtain ⟨init, last, hpieces, hlast, hinit⟩ := ih hn
      refine ⟨_ :: init, last, by rw [hpieces, List.cons_append], hlast, ?_⟩
      exact List.forall_mem_cons.mpr ⟨decide_eq_false (not_le.mpr hn), hinit⟩
    · have hdone : sendLoop data v (off + n) = [] := by rw [sendLoop, if_neg hn]
      exact ⟨[], _, by rw [hdone]; rfl, decide_eq_true (not_lt.mp hn), by simp⟩
  | case2 off hoff => exact absurd h hoff

/-- **What the handler streams** is one stream of the chunk that it has read. -/
theorem isStream_fetchPieces (h : st.read c v = some (data, found)) (hv : v ≤ found) :
    ∃ pieces, fetchPieces st c v = some pieces ∧ IsStream pieces data found := by
  unfold fetchPieces
  simp only [h, if_neg (UInt64.not_lt.mpr hv)]
  refine ⟨_, rfl, ?_⟩
  by_cases hd : data = []
  · subst hd
    have hsend : sendLoop [] found 0 = [] := by rw [sendLoop, if_neg (by simp)]
    rw [hsend, if_pos rfl]
    exact ⟨⟨[], _, rfl, rfl, by simp⟩, by simp, rfl⟩
  · rw [if_neg hd, List.append_nil]
    exact ⟨sendLoop_framed (List.length_pos_of_ne_nil hd), sendLoop_versions, sendLoop_bytes⟩

end Sender

/-! ### The receivers -/

/-- What a client gets of a stream, and whether its status is OK. -/
structure FetchStream where
  pieces : List ChunkData := []
  ok : Bool
  deriving DecidableEq

/-- The loop of `copy_to_new_replicas`. -/
def assemble (assembled : Str) : List ChunkData → Str
  | [] => assembled
  | cd :: rest =>
    if cd.isLast then assembled ++ cd.data else assemble (assembled ++ cd.data) rest

def receiveCopy (s : FetchStream) : Option Str :=
  if s.ok then some (assemble [] s.pieces) else none

/-- The variables of the loop of `fetch_from_peer`. -/
structure PeerLocals where
  data : Str := []
  streamedVersion : UInt64 := 0
  received : Bool := false

def receivePieces (l : PeerLocals) : List ChunkData → PeerLocals
  | [] => l
  | piece :: rest =>
    let l := ⟨l.data ++ piece.data,
      if piece.version > l.streamedVersion then piece.version else l.streamedVersion, true⟩
    if piece.isLast then l else receivePieces l rest

/-- The data and its version, unless the version is too old. -/
def receivePeer (target : UInt64) (s : FetchStream) : Option (Str × UInt64) :=
  let l := receivePieces {} s.pieces
  if s.ok = false ∨ l.received = false ∨ l.streamedVersion < target then none
  else some (l.data, l.streamedVersion)

section Receivers

variable {init : List ChunkData} {last : ChunkData} {pieces : List ChunkData} {data : Str}
  {v target : UInt64}

theorem assemble_framed (hinit : ∀ p ∈ init, p.isLast = false) (hlast : last.isLast = true)
    (acc : Str) :
    assemble acc (init ++ [last]) = acc ++ (init ++ [last]).flatMap ChunkData.data := by
  induction init generalizing acc with
  | nil => simp [assemble, hlast]
  | cons p init ih =>
    obtain ⟨hp, hinit⟩ := List.forall_mem_cons.mp hinit
    rw [List.cons_append, assemble, hp, if_neg Bool.false_ne_true, ih hinit, List.flatMap_cons,
      List.append_assoc]

theorem receivePieces_framed (hinit : ∀ p ∈ init, p.isLast = false) (hlast : last.isLast = true)
    (hv : ∀ p ∈ init ++ [last], p.version = v) {l : PeerLocals}
    (hl : l.streamedVersion = 0 ∨ l.streamedVersion = v) :
    receivePieces l (init ++ [last]) =
      ⟨l.data ++ (init ++ [last]).flatMap ChunkData.data, v, true⟩ := by
  -- one piece leaves its version as the newest one seen
  have hmax : (if v > l.streamedVersion then v else l.streamedVersion) = v := by
    rcases hl with h | h
    · rw [h]
      split_ifs with h0
      · rfl
      · exact (UInt64.le_antisymm (UInt64.not_lt.mp h0) (UInt64.zero_le)).symm
    · rw [h, ite_self]
  induction init generalizing l with
  | nil =>
    obtain ⟨hp, -⟩ := List.forall_mem_cons.mp hv
    simp [receivePieces, hlast, hp, hmax]
  | cons p init ih =>
    obtain ⟨hp, hinit⟩ := List.forall_mem_cons.mp hinit
    obtain ⟨hpv, hv⟩ := List.forall_mem_cons.mp hv
    rw [List.cons_append, receivePieces, hp, hpv, hmax, if_neg Bool.false_ne_true,
      ih hinit hv (.inr rfl) (ite_self v), List.flatMap_cons, List.append_assoc]

/-- **Both receivers get a stream's data.** -/
theorem IsStream.receiveCopy (h : IsStream pieces data v) :
    receiveCopy ⟨pieces, true⟩ = some data := by
  obtain ⟨⟨init, last, rfl, hlast, hinit⟩, -, hbytes⟩ := h
  rw [NimbusVault.receiveCopy, if_pos rfl, assemble_framed hinit hlast, hbytes, List.nil_append]

theorem IsStream.receivePeer (h : IsStream pieces data v) (hv : target ≤ v) :
    receivePeer target ⟨pieces, true⟩ = some (data, v) := by
  obtain ⟨⟨init, last, rfl, hlast, hinit⟩, hversions, hbytes⟩ := h
  unfold NimbusVault.receivePeer
  rw [receivePieces_framed hinit hlast hversions (.inl rfl), hbytes]
  simp [UInt64.not_lt.mpr hv]

end Receivers

/-! ### From one to the other -/

/-- What a client gets of a `FetchChunk` that is answered. -/
def fetchAnswer (st : ChunkStore) (chunkId : Str) (version : UInt64) : FetchStream :=
  match fetchPieces st chunkId version with
  | none => { ok := false }
  | some pieces => ⟨pieces, true⟩

/-- The driver's write of what it has got, to the node at `dst`. -/
def copyReceived (ss : Stores) (dst chunkId : Str) (version : UInt64) (s : FetchStream)
    (fate : RpcFate) : Bool × Stores :=
  match receiveCopy s with
  | none => (false, ss)
  | some data => writeChunkToReplica ss dst chunkId version data fate

/-- The repair's write of what it has got, to its own store. -/
def repairReceived (st : ChunkStore) (chunkId : Str) (target : UInt64) (s : FetchStream) :
    ChunkStore :=
  match receivePeer target s with
  | none => st
  | some (data, version) => st.write chunkId version data

section Fetch

variable {st : ChunkStore} {c data : Str} {v latest : UInt64}

/-- **The handler's answer**: no such version, or one stream of what it has read. -/
theorem fetchAnswer_cases (st : ChunkStore) (c : Str) (v : UInt64) :
    st.read c v = none ∧ fetchAnswer st c v = { ok := false } ∨
    ∃ data found pieces, st.read c v = some (data, found) ∧ v ≤ found ∧
      fetchAnswer st c v = ⟨pieces, true⟩ ∧ IsStream pieces data found := by
  cases h : st.read c v with
  | none => exact .inl ⟨rfl, by simp only [fetchAnswer, fetchPieces, h]⟩
  | some x =>
    have hv := (ChunkStore.read_iff_newest.mp h).2
    obtain ⟨pieces, hpieces, hstream⟩ := isStream_fetchPieces h hv
    exact .inr ⟨x.1, x.2, pieces, rfl, hv, by rw [fetchAnswer, hpieces], hstream⟩

/-- **A stored chunk is delivered** in all its versions up to the newest one, as that one; a newer
version is not, and nothing is written for it. -/
theorem fetch_delivers (h : st.read c 0 = some (data, latest)) (v : UInt64) :
    (v ≤ latest → ∃ pieces, fetchAnswer st c v = ⟨pieces, true⟩ ∧ IsStream pieces data latest ∧
      receiveCopy ⟨pieces, true⟩ = some data ∧
      receivePeer v ⟨pieces, true⟩ = some (data, latest)) ∧
    (latest < v → (fetchAnswer st c v).ok = false ∧
      (∀ ss dst fate, copyReceived ss dst c v (fetchAnswer st c v) fate = (false, ss)) ∧
      ∀ own, repairReceived own c v (fetchAnswer st c v) = own) := by
  rcases fetchAnswer_cases st c v with ⟨hnone, hans⟩ | ⟨d, found, pieces, hsome, hv, hans, hstream⟩
  · refine ⟨fun hv => ?_, fun _ => ?_⟩
    · rw [ChunkStore.read_iff_newest.mpr ⟨h, hv⟩] at hnone
      simp at hnone
    · rw [hans]
      exact ⟨rfl, fun _ _ _ => rfl, fun _ => rfl⟩
  · -- what is asked for is read, so it is the newest version
    have hnewest := (ChunkStore.read_iff_newest.mp hsome).1
    obtain ⟨rfl, rfl⟩ := Prod.mk.inj (Option.some.inj (h.symm.trans hnewest))
    exact ⟨fun hv => ⟨pieces, hans, hstream, hstream.receiveCopy, hstream.receivePeer hv⟩,
      fun hlt => absurd hlt (UInt64.not_lt.mpr hv)⟩

/-- Version 3 of a chunk. -/
def storedThree : ChunkStore := ChunkStore.empty.write ['c'] 3 ['x', 'y']

theorem fetch_delivers_three :
    ((2 : UInt64) ≤ 3 → ∃ pieces, fetchAnswer storedThree ['c'] 2 = ⟨pieces, true⟩ ∧
      IsStream pieces ['x', 'y'] 3 ∧ receiveCopy ⟨pieces, true⟩ = some ['x', 'y'] ∧
      receivePeer 2 ⟨pieces, true⟩ = some (['x', 'y'], 3)) ∧
    ((3 : UInt64) < 2 → (fetchAnswer storedThree ['c'] 2).ok = false ∧
      (∀ ss dst fate, copyReceived ss dst ['c'] 2 (fetchAnswer storedThree ['c'] 2) fate =
        (false, ss)) ∧
      ∀ own, repairReceived own ['c'] 2 (fetchAnswer storedThree ['c'] 2) = own) :=
  fetch_delivers (by decide) 2

/-! The two callers take the answer as a whole. -/

theorem fetchChunk_eq_receiveCopy : fetchChunk st c v = receiveCopy (fetchAnswer st c v) := by
  rcases fetchAnswer_cases st c v with ⟨hread, hans⟩ | ⟨d, found, pieces, hread, -, hans, hstream⟩
  · rw [fetchChunk, hread, hans]
    rfl
  · rw [fetchChunk, hread, hans, hstream.receiveCopy]
    rfl

theorem fetchFromPeer_eq_receivePeer (ss : Stores) (addr : Str) :
    fetchFromPeer ss addr c v .answered = receivePeer v (fetchAnswer (ss addr) c v) := by
  unfold fetchFromPeer
  rcases fetchAnswer_cases (ss addr) c v with
    ⟨hread, hans⟩ | ⟨d, found, pieces, hread, hv, hans, hstream⟩
  · rw [if_pos rfl, hread, hans]
    rfl
  · rw [if_pos rfl, hread, hans, hstream.receivePeer hv]
    simp [hv]

end Fetch

end NimbusVault
