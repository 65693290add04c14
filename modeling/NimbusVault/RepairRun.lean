import NimbusVault.FetchStream
import NimbusVault.Lib.Fold
import NimbusVault.VersionMap

/-!
# RepairRun — a repair pass as one call

`runOnce` is a whole `ReplicaRepair::run_once`: for every assigned chunk the leader is asked, and where
its version is newer than the local one, the listed peers are asked one after the other until one
streams a version that is new enough; then the chunks that are not assigned are removed.  What the
leader and the peers answer is given, with every listed entry the stream that its node would send.
The two loops go through the chunks in the order of hash sets, but each step changes its own chunk
only; so after a pass every chunk is as one step leaves it (`runOnce_synced`).
-/

namespace NimbusVault

open Lib Lib.Text

/-! ### What a peer streams -/

/-- The pieces that a receiver reads: up to the first that says it is the last. -/
def heard : List ChunkData → List ChunkData
  | [] => []
  | piece :: rest => if piece.isLast then [piece] else piece :: heard rest

/-- The peer streams `data`, in pieces the newest of which is of the version `version`. -/
structure Streamed (s : FetchStream) (data : Str) (version : UInt64) : Prop where
  ok : s.ok = true
  bytes : (heard s.pieces).flatMap ChunkData.data = data
  newest : ∃ p ∈ heard s.pieces, p.version = version
  le : ∀ p ∈ heard s.pieces, p.version ≤ version

section Streams

variable {s : FetchStream} {data : Str} {v target : UInt64} {pieces : List ChunkData}

theorem receivePieces_data (l : PeerLocals) (pieces : List ChunkData) :
    (receivePieces l pieces).data = l.data ++ (heard pieces).flatMap ChunkData.data := by
  induction pieces generalizing l with
  | nil => exact (List.append_nil _).symm
  | cons p rest ih =>
    rw [receivePieces, heard]
    cases p.isLast with
    | true => simp
    | false =>
      rw [if_neg Bool.false_ne_true, if_neg Bool.false_ne_true, ih, List.flatMap_cons,
        List.append_assoc]

theorem receivePieces_received (l : PeerLocals) (pieces : List ChunkData) :
    (receivePieces l pieces).received = true ↔ l.received = true ∨ pieces ≠ [] := by
  induction pieces generalizing l with
  | nil => simp [receivePieces]
  | cons p rest ih =>
    rw [receivePieces]
    cases p.isLast with
    | true => simp
    | false => simp [ih]

theorem heard_eq_nil_iff : heard pieces = [] ↔ pieces = [] := by
  cases pieces with
  | nil => exact iff_of_true rfl rfl
  | cons p rest =>
    rw [heard]
    split_ifs <;> simp

/-- The streamed version is the newest that was seen. -/
theorem receivePieces_version (l : PeerLocals) (pieces : List ChunkData) :
    l.streamedVersion ≤ (receivePieces l pieces).streamedVersion ∧
    (∀ p ∈ heard pieces, p.version ≤ (receivePieces l pieces).streamedVersion) ∧
    ((receivePieces l pieces).streamedVersion = l.streamedVersion ∨
      ∃ p ∈ heard pieces, p.version = (receivePieces l pieces).streamedVersion) := by
  induction pieces generalizing l with
  | nil => exact ⟨UInt64.le_refl _, by simp [heard], .inl rfl⟩
  | cons p rest ih =>
    rw [receivePieces, heard]
    -- one piece: the greater of the two versions
    set v := if p.version > l.streamedVersion then p.version else l.streamedVersion with hv
    have hstep : l.streamedVersion ≤ v ∧ p.version ≤ v ∧ (v = l.streamedVersion ∨ p.version = v) := by
      rw [hv]
      split_ifs with h
      · exact ⟨UInt64.le_of_lt h, UInt64.le_refl _, .inr rfl⟩
      · exact ⟨UInt64.le_refl _, UInt64.not_lt.mp h, .inl rfl⟩
    obtain ⟨hl, hp, heq⟩ := hstep
    cases p.isLast with
    | true => exact ⟨hl, by simpa using hp, heq.imp_right fun h => ⟨p, by simp, h⟩⟩
    | false =>
      obtain ⟨hle, hall, hlater⟩ := ih ⟨l.data ++ p.data, v, true⟩
      rw [if_neg Bool.false_ne_true, if_neg Bool.false_ne_true]
      refine ⟨UInt64.le_trans hl hle, List.forall_mem_cons.mpr ⟨UInt64.le_trans hp hle, hall⟩, ?_⟩
      rcases hlater with h | ⟨q, hq, h⟩
      · rw [h]
        exact heq.imp_right fun h => ⟨p, List.mem_cons_self, h⟩
      · exact .inr ⟨q, List.mem_cons_of_mem _ hq, h⟩

/-- The variables of the loop at its end. -/
theorem streamed_iff : Streamed s data v ↔
    s.ok = true ∧ (receivePieces {} s.pieces).received = true ∧
      (receivePieces {} s.pieces).data = data ∧ (receivePieces {} s.pieces).streamedVersion = v := by
  have hdata := receivePieces_data {} s.pieces
  have hrec := receivePieces_received {} s.pieces
  obtain ⟨-, hall, hnewest⟩ := receivePieces_version {} s.pieces
  constructor
  · rintro ⟨hok, hbytes, ⟨p, hp, hpv⟩, hle⟩
    refine ⟨hok, hrec.mpr (.inr fun h => ?_), hdata.trans hbytes, ?_⟩
    · rw [h] at hp
      simp [heard] at hp
    · -- both are the greatest version among the pieces
      refine UInt64.le_antisymm ?_ (hpv ▸ hall p hp)
      rcases hnewest with h | ⟨q, hq, h⟩
      · rw [h]
        exact UInt64.zero_le
      · exact h ▸ hle q hq
  · rintro ⟨hok, hr, hd, rfl⟩
    refine ⟨hok, hdata.symm.trans hd, ?_, hall⟩
    rcases hnewest with h | h
    · -- no piece has a version above 0
      have hne : heard s.pieces ≠ [] := fun he =>
        (hrec.mp hr).elim Bool.false_ne_true fun hp => hp (heard_eq_nil_iff.mp he)
      obtain ⟨p, hp⟩ := List.exists_mem_of_ne_nil _ hne
      exact ⟨p, hp, UInt64.le_antisymm (hall p hp) (h ▸ UInt64.zero_le)⟩
    · exact h

/-- **What is received** is what was streamed, if it is new enough. -/
theorem receivePeer_eq_some_iff :
    receivePeer target s = some (data, v) ↔ Streamed s data v ∧ target ≤ v := by
  rw [receivePeer, streamed_iff]
  split_ifs with hbad
  · refine iff_of_false (by simp) ?_
    rintro ⟨⟨hok, hr, -, rfl⟩, hle⟩
    rcases hbad with h | h | h
    · rw [hok] at h
      exact Bool.noConfusion h
    · rw [hr] at h
      exact Bool.noConfusion h
    · exact UInt64.not_lt.mpr hle h
  · simp only [not_or, Bool.not_eq_false, UInt64.not_lt] at hbad
    obtain ⟨hok, hr, hle⟩ := hbad
    rw [Option.some.injEq, Prod.mk.injEq]
    constructor
    · rintro ⟨rfl, rfl⟩
      exact ⟨⟨hok, hr, rfl, rfl⟩, hle⟩
    · rintro ⟨⟨-, -, rfl, rfl⟩, -⟩
      exact ⟨rfl, rfl⟩

/-- The stream of a storage node, which has one version. -/
theorem IsStream.streamed (h : IsStream pieces data v) : Streamed ⟨pieces, true⟩ data v :=
  (receivePeer_eq_some_iff.mp (h.receivePeer (UInt64.le_refl v))).1

end Streams

/-! ### The pass -/

/-- The order in which a hash set is gone through. -/
structure HashOrder where
  run : List Str → List Str
  perm : ∀ ids, (run ids).Perm ids

def HashOrder.keep : HashOrder := ⟨id, fun ids => List.Perm.refl ids⟩

/-- `GetChunkInfo` as it was answered: the version, and the listed entries, each with what its node
streams when it is asked for that version. -/
structure LeaderAnswer where
  version : UInt64
  replicas : List (Str × FetchStream)

/-- The loop over the listed replicas. -/
def fetchReplicas (n : NodeConfig) (target : UInt64) : List (Str × FetchStream) → Option (Str × UInt64)
  | [] => none
  | (replica, stream) :: rest =>
    match repairPeer n replica with
    | none => fetchReplicas n target rest
    | some _ =>
      match receivePeer target stream with
      | none => fetchReplicas n target rest
      | some fetched => some fetched

/-- The first loop for one chunk; `none` is an answer that failed. -/
def repairChunk (n : NodeConfig) (answers : Str → Option LeaderAnswer) (st : ChunkStore)
    (chunkId : Str) : ChunkStore :=
  match answers chunkId with
  | none => st
  | some resp =>
    if resp.version ≤ st.latestVersion chunkId then st
    else match fetchReplicas n resp.version resp.replicas with
      | none => st
      | some (data, version) => st.write chunkId version data

/-- The second loop for one chunk. -/
def removeUnassigned (assigned : List Str) (st : ChunkStore) (chunkId : Str) : ChunkStore :=
  if chunkId ∈ assigned then st else st.remove chunkId

/-- `assigned` is what the reporter holds, if it has heard of the leader at all. -/
def runOnce (n : NodeConfig) (stopped : Bool) (assigned : Option (List Str)) (order scan : HashOrder)
    (answers : Str → Option LeaderAnswer) (st : ChunkStore) : ChunkStore :=
  if stopped then st
  else match assigned with
    | none => st
    | some [] => st
    | some ids =>
      let st := (order.run ids.dedup).foldl (repairChunk n answers) st
      (scan.run st.listChunkIds).foldl (removeUnassigned ids) st

/-! ### Stores with plain keys -/

/-- Every key is that of a version of at most ten digits, of a chunk with an id that is not empty and
holds no `/`. -/
def PlainStore (st : ChunkStore) : Prop :=
  ∀ key x, st.db.get key = some x →
    ∃ id v, key = ChunkStore.makeKey id v ∧ id ≠ [] ∧ '/' ∉ id ∧ v ≤ 9999999999

section Stores

variable {st st' : ChunkStore} {id id' d : Str} {v w : UInt64}

theorem PlainStore.plainKeys (h : PlainStore st) : st.PlainKeys := fun key x hx =>
  let ⟨id, v, hkey, _, hslash, hv⟩ := h key x hx
  ⟨id, v, hkey, hslash, hv⟩

theorem PlainStore.of_stored (h : PlainStore st) (hv : (st.stored id v).isSome = true) :
    id ≠ [] ∧ '/' ∉ id := by
  obtain ⟨x, hx⟩ := Option.isSome_iff_exists.mp hv
  obtain ⟨id', v', hkey, hne, hslash, -⟩ := h _ x hx
  obtain ⟨rfl, -⟩ := ChunkStore.makeKey_inj.mp hkey
  exact ⟨hne, hslash⟩

theorem PlainStore.write (h : PlainStore st) (hid : id ≠ [] ∧ '/' ∉ id) (hv : v ≤ 9999999999) :
    PlainStore (st.write id v d) :=
  Kv.forall_put h ⟨id, v, rfl, hid.1, hid.2, hv⟩

theorem PlainStore.remove (h : PlainStore st) : PlainStore (st.remove id) :=
  Kv.forall_eraseRange h

/-- A removal leaves the other chunks alone. -/
theorem PlainStore.stored_remove_of_ne (h : PlainStore st) (hne : id' ≠ id) :
    (st.remove id).stored id' v = st.stored id' v := by
  rw [ChunkStore.stored_remove]
  split_ifs with hcov
  · cases hst : st.stored id' v with
    | none => rfl
    | some x =>
      have hslash := (h.of_stored (Option.isSome_iff_exists.mpr ⟨x, hst⟩)).2
      exact absurd (ChunkStore.eq_of_covers hslash hcov).symm hne
  · rfl

theorem PlainStore.mem_listChunkIds (h : PlainStore st) :
    id ∈ st.listChunkIds ↔ ∃ v, (st.stored id v).isSome = true := by
  rw [ChunkStore.listChunkIds, List.mem_dedup, List.mem_filterMap]
  constructor
  · rintro ⟨key, hkey, hid⟩
    obtain ⟨x, hx⟩ := Kv.mem_keys.mp (List.mem_of_mem_filter hkey)
    obtain ⟨id', v, rfl, hne, -, -⟩ := h key x hx
    rw [keyChunkId_makeKey, if_neg hne] at hid
    obtain rfl := Option.some.inj hid
    exact ⟨v, Option.isSome_iff_exists.mpr ⟨x, hx⟩⟩
  · rintro ⟨v, hv⟩
    obtain ⟨x, hx⟩ := Option.isSome_iff_exists.mp hv
    refine ⟨_, List.mem_filter.mpr ⟨Kv.mem_keys.mpr ⟨x, hx⟩, ?_⟩, ?_⟩
    · rw [ChunkStore.makeKey, ChunkStore.chunkPrefix, List.append_assoc, List.append_assoc]
      exact List.isPrefixOf_iff_prefix.mpr (List.prefix_append _ _)
    · rw [keyChunkId_makeKey, if_neg (h.of_stored hv).1]

/-! The latest version is the greatest that is stored, or 0. -/

theorem le_latestVersion (h : st.PlainKeys) (hv : (st.stored id v).isSome = true) :
    v ≤ st.latestVersion id := by
  obtain ⟨d, u, hread, hle⟩ : ∃ d u, st.read id 0 = some (d, u) ∧ v ≤ u :=
    ChunkStore.read_ge h.ownsPrefix hv UInt64.zero_le (h.le hv)
  rw [latestVersion_eq_read, hread]
  exact hle

theorem latestVersion_stored (h : st.PlainKeys) (id : Str) : st.latestVersion id = 0 ∨
    (st.stored id (st.latestVersion id)).isSome = true := by
  rw [latestVersion_eq_read]
  cases hread : st.read id 0 with
  | none => exact .inl rfl
  | some x =>
    obtain ⟨d, u⟩ := x
    exact .inr (Option.isSome_iff_exists.mpr ⟨d, (ChunkStore.read_some h.ownsPrefix hread).1⟩)

/-- A chunk that loses no version does not get older. -/
theorem latestVersion_le (h : st.PlainKeys) (h' : st'.PlainKeys)
    (hsub : ∀ v, (st.stored id v).isSome = true → (st'.stored id v).isSome = true) :
    st.latestVersion id ≤ st'.latestVersion id := by
  rcases latestVersion_stored h id with h0 | hst
  · rw [h0]
    exact UInt64.zero_le
  · exact le_latestVersion h' (hsub _ hst)

end Stores

/-! ### One step of each loop -/

/-- What a store holds of a chunk. -/
def chunkPart (id : Str) (st : ChunkStore) : UInt64 → Option Str := st.stored id

/-- A listed entry `node_id=address` of another node: neither the id nor the address is this node's. -/
def IsPeer (n : NodeConfig) (replica : Str) : Prop :=
  ∃ nodeId address, replica = nodeId ++ '=' :: address ∧ '=' ∉ nodeId ∧ nodeId ≠ [] ∧ address ≠ [] ∧
    nodeId ≠ n.nodeId ∧ address ≠ n.address

/-- **Every such entry is asked**, and no other. -/
theorem repairPeer_isSome_iff {n : NodeConfig} {replica : Str} :
    (repairPeer n replica).isSome = true ↔ IsPeer n replica := by
  have hsplit : (∃ nodeId address, splitEntry replica = some (nodeId, address) ∧ nodeId ≠ [] ∧
      address ≠ [] ∧ nodeId ≠ n.nodeId ∧ address ≠ n.address) ↔ IsPeer n replica := by
    simp only [splitEntry_eq_some_iff, and_assoc, IsPeer]
  rw [← hsplit, repairPeer, parseReplicaEndpoint]
  cases hs : splitEntry replica with
  | none => simp
  | some p =>
    obtain ⟨nodeId, address⟩ := p
    by_cases hid : nodeId = []
    · simp [hid]
    · simp [hid]

/-- The listed node is a peer, and streams a version that is new enough. -/
structure Serves (n : NodeConfig) (target : UInt64) (p : Str × FetchStream) (data : Str)
    (version : UInt64) : Prop where
  peer : IsPeer n p.1
  streamed : Streamed p.2 data version
  le : target ≤ version

section Steps

variable {n : NodeConfig} {target v w : UInt64} {replicas : List (Str × FetchStream)}
  {answers : Str → Option LeaderAnswer} {ids l : List Str} {st st' : ChunkStore} {c d : Str}
  {p : Str × FetchStream}

theorem fetchReplicas_some (h : fetchReplicas n target replicas = some (d, w)) :
    ∃ p ∈ replicas, Serves n target p d w := by
  induction replicas with
  | nil => simp [fetchReplicas] at h
  | cons p rest ih =>
    obtain ⟨replica, stream⟩ := p
    have hrest : fetchReplicas n target rest = some (d, w) →
        ∃ p ∈ (replica, stream) :: rest, Serves n target p d w := fun h =>
      let ⟨q, hq, hs⟩ := ih h
      ⟨q, List.mem_cons_of_mem _ hq, hs⟩
    rw [fetchReplicas] at h
    split at h
    · exact hrest h
    · rename_i addr haddr
      split at h
      · exact hrest h
      · rename_i fetched hfetched
        obtain rfl := Option.some.inj h
        obtain ⟨hs, hle⟩ := receivePeer_eq_some_iff.mp hfetched
        have hpeer : IsPeer n replica := repairPeer_isSome_iff.mp (by rw [haddr]; rfl)
        exact ⟨_, List.mem_cons_self, hpeer, hs, hle⟩

/-- One peer that serves is enough. -/
theorem fetchReplicas_isSome (hp : p ∈ replicas) (hs : Serves n target p d w) :
    (fetchReplicas n target replicas).isSome = true := by
  induction replicas with
  | nil => simp at hp
  | cons q rest ih =>
    obtain ⟨replica, stream⟩ := q
    rw [fetchReplicas]
    rcases List.mem_cons.mp hp with rfl | hp
    · obtain ⟨addr, haddr⟩ := Option.isSome_iff_exists.mp (repairPeer_isSome_iff.mpr hs.peer)
      have hrecv := receivePeer_eq_some_iff.mpr ⟨hs.streamed, hs.le⟩
      simp only [haddr, hrecv, Option.isSome_some]
    · split
      · exact ih hp
      · split
        · exact ih hp
        · rfl

/-- The answers name versions of at most ten digits. -/
def PlainAnswers (answers : Str → Option LeaderAnswer) : Prop :=
  ∀ c, ∀ resp ∈ answers c, ∀ p ∈ resp.replicas, ∀ piece ∈ p.2.pieces, piece.version ≤ 9999999999

theorem heard_subset (pieces : List ChunkData) : heard pieces ⊆ pieces := by
  induction pieces with
  | nil => exact List.Subset.refl _
  | cons p rest ih =>
    rw [heard]
    split_ifs
    · simp
    · exact List.cons_subset_cons p ih

/-- **One step of the first loop**: nothing, as the chunk is new enough or nobody serves it, or what a
peer has streamed is written. -/
theorem repairChunk_cases (n : NodeConfig) (answers : Str → Option LeaderAnswer) (st : ChunkStore)
    (c : Str) :
    (repairChunk n answers st c = st ∧ ∀ resp ∈ answers c,
      resp.version ≤ st.latestVersion c ∨ fetchReplicas n resp.version resp.replicas = none) ∨
    ∃ resp ∈ answers c, ∃ p ∈ resp.replicas, ∃ d w, Serves n resp.version p d w ∧
      st.latestVersion c < resp.version ∧ repairChunk n answers st c = st.write c w d := by
  unfold repairChunk
  cases hresp : answers c with
  | none => exact .inl ⟨rfl, by simp⟩
  | some resp =>
    dsimp only
    split_ifs with hle
    · exact .inl ⟨rfl, by simp [hle]⟩
    · cases hfetch : fetchReplicas n resp.version resp.replicas with
      | none => exact .inl ⟨rfl, by simp [hfetch]⟩
      | some x =>
        obtain ⟨p, hp, hs⟩ := fetchReplicas_some hfetch
        exact .inr ⟨resp, rfl, p, hp, x.1, x.2, hs, UInt64.not_le.mp hle, rfl⟩

/-- The first loop works on one chunk after the other. -/
theorem ownParts_repairChunk (hl : ∀ c ∈ l, c ≠ [] ∧ '/' ∉ c) (hans : PlainAnswers answers) :
    OwnParts (repairChunk n answers) chunkPart PlainStore l where
  keeps st c hc hst := by
    rcases repairChunk_cases n answers st c with ⟨h, -⟩ | ⟨resp, hresp, p, hp, d, w, hs, -, h⟩
    · rwa [h]
    · obtain ⟨q, hq, rfl⟩ := hs.streamed.newest
      rw [h]
      exact hst.write (hl c hc) (hans c resp hresp p hp q (heard_subset _ hq))
  frame st c _ _ j hj := by
    rcases repairChunk_cases n answers st c with ⟨h, -⟩ | ⟨resp, -, p, -, d, w, -, -, h⟩
    · rw [h]
    · rw [h]
      funext v
      exact ChunkStore.stored_write.trans (if_neg fun he => hj he.1)

theorem ownParts_removeUnassigned (ids l : List Str) :
    OwnParts (removeUnassigned ids) chunkPart PlainStore l where
  keeps st c _ hst := by
    unfold removeUnassigned
    split_ifs
    · exact hst
    · exact hst.remove
  frame st c _ hst j hj := by
    unfold removeUnassigned
    split_ifs
    · rfl
    · funext v
      exact hst.stored_remove_of_ne hj

/-- The answer for the chunk `c` is lived up to: the version that it names is reached if a peer serves
it, and what is new has been streamed by one. -/
structure Synced (n : NodeConfig) (resp : LeaderAnswer) (c : Str) (st st' : ChunkStore) : Prop where
  reached : (∃ p ∈ resp.replicas, ∃ d w, Serves n resp.version p d w) →
    resp.version ≤ st'.latestVersion c
  streamed : ∀ w d, st'.stored c w = some d →
    st.stored c w = some d ∨ ∃ p ∈ resp.replicas, Serves n resp.version p d w

theorem repairChunk_synced (hst : st.PlainKeys) (hst' : (repairChunk n answers st c).PlainKeys) :
    st.latestVersion c ≤ (repairChunk n answers st c).latestVersion c ∧
      ∀ resp ∈ answers c, Synced n resp c st (repairChunk n answers st c) := by
  rcases repairChunk_cases n answers st c with ⟨h, hwhy⟩ | ⟨resp', hresp', p, hp, d, w, hs, -, h⟩
  · rw [h]
    refine ⟨UInt64.le_refl _, fun resp hresp => ⟨?_, fun w d hd => .inl hd⟩⟩
    rintro ⟨p, hp, d, w, hs⟩
    rcases hwhy resp hresp with hle | hnone
    · exact hle
    · have hsome := fetchReplicas_isSome hp hs
      rw [hnone] at hsome
      simp at hsome
  · rw [h] at hst' ⊢
    refine ⟨latestVersion_le hst hst' fun v => ChunkStore.stored_write_isSome, fun resp hresp => ?_⟩
    obtain rfl : resp' = resp := Option.some.inj (hresp'.symm.trans hresp)
    refine ⟨fun _ => UInt64.le_trans hs.le (le_latestVersion hst' (by simp)), fun v x hx => ?_⟩
    rw [ChunkStore.stored_write] at hx
    split_ifs at hx with hv
    · obtain rfl := Option.some.inj hx
      exact .inr ⟨p, hp, hv.2 ▸ hs⟩
    · exact .inl hx

/-- Two stores that hold the same of a chunk have the same latest version of it. -/
theorem latestVersion_congr (hst : st.PlainKeys) (hst' : st'.PlainKeys)
    (h : chunkPart c st = chunkPart c st') : st.latestVersion c = st'.latestVersion c := by
  have hcol : ∀ v, st.stored c v = st'.stored c v := congrFun h
  exact UInt64.le_antisymm (latestVersion_le hst hst' fun v hv => hcol v ▸ hv)
    (latestVersion_le hst' hst fun v hv => (hcol v).symm ▸ hv)

theorem Synced.congr {st₁ st₂ : ChunkStore} {resp : LeaderAnswer} (hplain : st₂.PlainKeys)
    (hplain' : st'.PlainKeys) (h : Synced n resp c st₁ st₂) (hc : chunkPart c st₁ = chunkPart c st)
    (hc' : chunkPart c st₂ = chunkPart c st') : Synced n resp c st st' where
  reached hp := latestVersion_congr hplain hplain' hc' ▸ h.reached hp
  streamed w d hd := by
    have hd₂ : st₂.stored c w = some d := (congrFun hc' w).trans hd
    exact (h.streamed w d hd₂).imp_left fun hd₁ => (congrFun hc w).symm.trans hd₁

/-! ### The whole pass -/

/-- **The first loop**: afterwards no chunk is older, and every answer is lived up to. -/
theorem foldl_repairChunk (hl : ∀ c ∈ l, c ≠ [] ∧ '/' ∉ c) (hnd : l.Nodup)
    (hans : PlainAnswers answers) (hst : PlainStore st) :
    PlainStore (l.foldl (repairChunk n answers) st) ∧
    ∀ c ∈ l, st.latestVersion c ≤ (l.foldl (repairChunk n answers) st).latestVersion c ∧
      ∀ resp ∈ answers c, Synced n resp c st (l.foldl (repairChunk n answers) st) := by
  have hown : OwnParts (repairChunk n answers) chunkPart PlainStore l :=
    ownParts_repairChunk hl hans
  have hend : PlainStore (l.foldl (repairChunk n answers) st) := hown.foldl_keeps hst
  refine ⟨hend, fun c hc => ?_⟩
  -- the step of the chunk itself, between two runs that leave it alone
  obtain ⟨t, ht, hbefore, hafter⟩ := hown.foldl_part hnd hst hc
  have ht' : PlainStore (repairChunk n answers t c) := hown.keeps t c hc ht
  obtain ⟨hle, hresp⟩ := repairChunk_synced ht.plainKeys ht'.plainKeys
  rw [latestVersion_congr ht.plainKeys hst.plainKeys hbefore,
    latestVersion_congr ht'.plainKeys hend.plainKeys hafter.symm] at hle
  refine ⟨hle, fun resp hr => ?_⟩
  exact (hresp resp hr).congr ht'.plainKeys hend.plainKeys hbefore hafter.symm

/-- **The second loop** leaves the assigned chunks as they are, and nothing of the others. -/
theorem foldl_removeUnassigned (ids : List Str) (hnd : l.Nodup)
    (hl : ∀ c, c ∈ l ↔ c ∈ st.listChunkIds) (hst : PlainStore st) :
    PlainStore (l.foldl (removeUnassigned ids) st) ∧
    (∀ c ∈ ids, chunkPart c st = chunkPart c (l.foldl (removeUnassigned ids) st)) ∧
    ∀ c ∈ (l.foldl (removeUnassigned ids) st).listChunkIds, c ∈ ids := by
  have hown := ownParts_removeUnassigned ids l
  have hend : PlainStore (l.foldl (removeUnassigned ids) st) := hown.foldl_keeps hst
  refine ⟨hend, fun c hc => ?_, fun c hc => ?_⟩
  · by_cases hlisted : c ∈ l
    · obtain ⟨t, -, ht, hpart⟩ := hown.foldl_part hnd hst hlisted
      rw [hpart, removeUnassigned, if_pos hc, ht]
    · exact (hown.foldl_frame hst hlisted).symm
  · by_contra hout
    obtain ⟨v, hv⟩ := hend.mem_listChunkIds.mp hc
    by_cases hlisted : c ∈ l
    · obtain ⟨t, -, -, hpart⟩ := hown.foldl_part hnd hst hlisted
      rw [removeUnassigned, if_neg hout] at hpart
      have hnone : (l.foldl (removeUnassigned ids) st).stored c v = none :=
        (congrFun hpart v).trans ChunkStore.stored_remove_self
      rw [hnone] at hv
      simp at hv
    · have hsame : (l.foldl (removeUnassigned ids) st).stored c v = st.stored c v :=
        congrFun (hown.foldl_frame hst hlisted) v
      rw [hsame] at hv
      exact hlisted ((hl c).mpr (hst.mem_listChunkIds.mpr ⟨v, hv⟩))

theorem runOnce_eq (hids : ids ≠ []) (n : NodeConfig) (order scan : HashOrder) :
    let st₁ := (order.run ids.dedup).foldl (repairChunk n answers) st
    runOnce n false (some ids) order scan answers st =
      (scan.run st₁.listChunkIds).foldl (removeUnassigned ids) st₁ := by
  cases ids with
  | nil => exact absurd rfl hids
  | cons c ids => rfl

/-- **What a repair pass leaves**: assigned chunks only, none older than before, and every answer of
the leader lived up to. -/
theorem runOnce_synced (hids : ids ≠ []) (hplain : ∀ c ∈ ids, c ≠ [] ∧ '/' ∉ c) (hst : PlainStore st)
    (hans : PlainAnswers answers) (n : NodeConfig) (order scan : HashOrder) :
    let st' := runOnce n false (some ids) order scan answers st
    (∀ c ∈ st'.listChunkIds, c ∈ ids) ∧ (∀ c ∈ ids, st.latestVersion c ≤ st'.latestVersion c) ∧
      ∀ c ∈ ids, ∀ resp ∈ answers c, Synced n resp c st st' := by
  have hperm : (order.run ids.dedup).Perm ids.dedup := order.perm _
  have hmem : ∀ c, c ∈ order.run ids.dedup ↔ c ∈ ids := fun c =>
    hperm.mem_iff.trans List.mem_dedup
  dsimp only
  rw [runOnce_eq hids]
  obtain ⟨hplain₁, hsynced⟩ := foldl_repairChunk (n := n)
    (fun c hc => hplain c ((hmem c).mp hc)) (hperm.nodup_iff.mpr (List.nodup_dedup _)) hans hst
  set st₁ := (order.run ids.dedup).foldl (repairChunk n answers) st
  have hscan : (scan.run st₁.listChunkIds).Perm st₁.listChunkIds := scan.perm _
  obtain ⟨hplain', hkept, hleft⟩ := foldl_removeUnassigned ids
    (hscan.nodup_iff.mpr (List.nodup_dedup _)) (fun _ => hscan.mem_iff) hplain₁
  set st' := (scan.run st₁.listChunkIds).foldl (removeUnassigned ids) st₁
  refine ⟨hleft, fun c hc => ?_, fun c hc resp hr => ?_⟩
  · have hle := (hsynced c ((hmem c).mpr hc)).1
    rwa [latestVersion_congr hplain₁.plainKeys hplain'.plainKeys (hkept c hc)] at hle
  · have hresp := (hsynced c ((hmem c).mpr hc)).2 resp hr
    exact hresp.congr hplain₁.plainKeys hplain'.plainKeys rfl (hkept c hc)

end Steps

/-! ### A chunk that is behind, next to one that is no longer assigned -/

def behindStore : ChunkStore :=
  (ChunkStore.empty.write ['c'] 1 ['x']).write ['d'] 1 ['z']

theorem behindStore_plain : PlainStore behindStore :=
  (PlainStore.write (fun _ _ h => by simp [ChunkStore.empty] at h) (by decide) (by decide)).write
    (by decide) (by decide)

/-- The leader has version 2 on this node, a node that fails, and one that streams it. -/
def newerAnswer : LeaderAnswer where
  version := 2
  replicas := [("n=a".toList, { ok := false }), ("m=b".toList, { ok := false }),
    ("k=d".toList, ⟨[⟨['y'], 2, false⟩, ⟨['y'], 2, true⟩], true⟩)]

def newerAnswers (c : Str) : Option LeaderAnswer := if c = ['c'] then some newerAnswer else none

theorem newerAnswers_plain : PlainAnswers newerAnswers := by
  intro c resp hresp
  unfold newerAnswers at hresp
  split_ifs at hresp
  · obtain rfl := Option.some.inj hresp
    decide
  · simp at hresp

def behindNode : NodeConfig := ⟨['n'], ['a']⟩

example : (runOnce behindNode false (some [['c']]) .keep .keep newerAnswers behindStore).read ['c'] 0 =
    some (['y', 'y'], 2) := by decide +kernel

theorem runOnce_synced_behind :
    let st' := runOnce behindNode false (some [['c']]) .keep .keep newerAnswers behindStore
    (∀ c ∈ st'.listChunkIds, c ∈ [['c']]) ∧
      (∀ c ∈ [['c']], behindStore.latestVersion c ≤ st'.latestVersion c) ∧
      ∀ c ∈ [['c']], ∀ resp ∈ newerAnswers c, Synced behindNode resp c behindStore st' :=
  runOnce_synced (by decide) (by decide) behindStore_plain newerAnswers_plain behindNode .keep .keep

/-- The leader lists the node `m`, which is not alive, by its bare id. -/
def bareAnswers (_ : Str) : Option LeaderAnswer :=
  some { version := 2, replicas := [(encodeReplicaTarget [] ['m'], ⟨[⟨['y'], 2, true⟩], true⟩)] }

/-- **A listed peer without an address is not asked**, though its node would serve the version. -/
theorem bare_peer_skipped : ¬ ∀ (n : NodeConfig) (ids : List Str) (order scan : HashOrder)
    (answers : Str → Option LeaderAnswer) (st : ChunkStore), ids ≠ [] →
    (∀ c ∈ ids, c ≠ [] ∧ '/' ∉ c) → PlainStore st → PlainAnswers answers →
    ∀ c ∈ ids, ∀ resp ∈ answers c, (∃ p ∈ resp.replicas, ∃ d w,
      extractNodeId p.1 ≠ n.nodeId ∧ Streamed p.2 d w ∧ resp.version ≤ w) →
    resp.version ≤ (runOnce n false (some ids) order scan answers st).latestVersion c := by
  intro hall
  have hplain : PlainAnswers bareAnswers := by
    intro c resp hresp
    obtain rfl := Option.some.inj hresp
    decide
  have hreached := hall behindNode [['c']] .keep .keep bareAnswers behindStore (by decide) (by decide)
    behindStore_plain hplain ['c'] (by decide) _ rfl
    ⟨_, List.mem_cons_self, ['y'], 2, by decide, ⟨rfl, rfl, by decide, by decide⟩, by decide⟩
  exact absurd hreached (by decide +kernel)

end NimbusVault
