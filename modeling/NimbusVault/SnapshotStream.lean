import NimbusVault.SnapshotReads

/-!
# SnapshotStream — a snapshot on its way to a follower

`InstallSnapshot` streams the leader's snapshot in pieces, and `bootstrap_follower_from_leader` puts
together what arrives.  However the stream ends, what was put together is the front of a snapshot
(`receiveChunks_take`), and no front of a snapshot but the whole is ever accepted: the counts and
lengths that it begins with ask for all of its bytes.  So a transfer that is cut short installs
nothing (`transfer_all_or_nothing`), unless the cut falls into the four bytes of the chunk count, which
the reader does not check.
-/

namespace NimbusVault

open Lib Lib.Text

/-! ### The stream -/

structure SnapshotChunk where
  data : Str
  isLastChunk : Bool
  snapshotLsn : ℕ
  deriving DecidableEq

/-- `CHUNK_SIZE`. -/
def chunkSize : ℕ := 65536

/-- The loop of `InstallSnapshot`, with `sent` bytes sent. -/
def snapshotPieces (data : Str) (lsn sent : ℕ) : List SnapshotChunk :=
  if sent < data.length then
    let n := min chunkSize (data.length - sent)
    { data := (data.drop sent).take n, isLastChunk := data.length ≤ sent + n, snapshotLsn := lsn } ::
      snapshotPieces data lsn (sent + n)
  else []
termination_by data.length - sent
decreasing_by
  have : 0 < chunkSize := by decide
  omega

/-- The variables of the receiving loop. -/
structure SnapshotLocals where
  snapshotData : Str := []
  snapshotLsn : ℕ := 0
  received : Bool := false

def receiveChunks (l : SnapshotLocals) : List SnapshotChunk → SnapshotLocals
  | [] => l
  | chunk :: rest =>
    let l : SnapshotLocals := ⟨l.snapshotData ++ chunk.data, chunk.snapshotLsn, true⟩
    if chunk.isLastChunk then l else receiveChunks l rest

/-- What is installed; `none` where the call gives up. -/
def receiveSnapshot (chunks : List SnapshotChunk) (ok : Bool) : Option Str :=
  let l := receiveChunks {} chunks
  if ok = false ∨ l.received = false then none else some l.snapshotData

/-- **What is put together** of the first `k` pieces is the front of what was to be sent, and all of it
exactly if no piece is missing. -/
theorem receiveChunks_take (data : Str) (lsn sent : ℕ) (l : SnapshotLocals) (k : ℕ) :
    ∃ d, (receiveChunks l ((snapshotPieces data lsn sent).take k)).snapshotData =
        l.snapshotData ++ d ∧ d <+: data.drop sent ∧
      (d = data.drop sent ↔ (snapshotPieces data lsn sent).length ≤ k) := by
  fun_induction snapshotPieces data lsn sent generalizing l k with
  | case1 sent hsent n =>
    rename_i ih
    have hne : data.drop sent ≠ [] := by simpa using hsent
    cases k with
    | zero => exact ⟨[], by simp [receiveChunks], List.nil_prefix, by simpa using hne.symm⟩
    | succ k =>
      rw [List.take_succ_cons, List.length_cons, Nat.succ_le_succ_iff, receiveChunks]
      by_cases hlast : data.length ≤ sent + n
      · have hdone : snapshotPieces data lsn (sent + n) = [] := by
          rw [snapshotPieces, if_neg (not_lt.mpr hlast)]
        have hall : (data.drop sent).take n = data.drop sent :=
          List.take_of_length_le (by rw [List.length_drop]; omega)
        refine ⟨data.drop sent, ?_, List.prefix_rfl, iff_of_true rfl (by simp [hdone])⟩
        simp only [hlast, decide_true, if_true, hall]
      · obtain ⟨d, hd, hpre, hiff⟩ := ih ⟨l.snapshotData ++ (data.drop sent).take n, lsn, true⟩ k
        have hsplit : data.drop sent = (data.drop sent).take n ++ data.drop (sent + n) := by
          rw [← List.drop_drop, List.take_append_drop]
        refine ⟨(data.drop sent).take n ++ d, ?_, ?_, ?_⟩
        · simp only [hlast, decide_false, Bool.false_eq_true, if_false]
          rw [hd, List.append_assoc]
        · rw [hsplit, List.take_left' (by rw [List.length_take, List.length_drop]; omega)]
          exact List.prefix_append_right_inj _ |>.mpr hpre
        · rw [← hiff, hsplit, List.take_left' (by rw [List.length_take, List.length_drop]; omega)]
          exact List.append_right_inj _
  | case2 sent hsent =>
    have hnil : data.drop sent = [] := List.drop_of_length_le (not_lt.mp hsent)
    refine ⟨[], ?_, List.nil_prefix, ?_⟩
    · simp [receiveChunks]
    · rw [hnil]
      simp

/-! ### Fronts of a snapshot -/

section Records

variable {α β : Type} {parse : Str → Install β} {write : α → Str} {xs : List α} {ys : List β}
  {s rest : Str} {k : ℕ}

/-- Whatever the records hold, the loop leaves what follows them. -/
theorem readRecords_rest (h : ∀ a ∈ xs, (write a).length < 2 ^ 32)
    (hr : readRecords parse xs.length ((xs.flatMap fun a => writeLp (write a)) ++ s) = .ok (ys, rest)) :
    rest = s := by
  induction xs generalizing ys with
  | nil =>
    obtain ⟨-, rfl⟩ := Prod.mk.inj (Except.ok.inj hr)
    rfl
  | cons a xs ih =>
    obtain ⟨entry, s', x, ys', hlp, -, hxs, -⟩ := readRecords_succ_eq_ok.mp hr
    rw [List.flatMap_cons, List.append_assoc, readLp_writeLp (h a List.mem_cons_self)] at hlp
    obtain ⟨-, rfl⟩ := Prod.mk.inj (Except.ok.inj hlp)
    exact ih (fun b hb => h b (List.mem_cons_of_mem _ hb)) hxs

/-- What is read of a front is read of the whole. -/
theorem readRecords_append (hr : readRecords parse k s = .ok (ys, rest)) (t : Str) :
    readRecords parse k (s ++ t) = .ok (ys, rest ++ t) := by
  induction k generalizing s ys with
  | zero =>
    obtain ⟨rfl, rfl⟩ := Prod.mk.inj (Except.ok.inj hr)
    rfl
  | succ k ih =>
    obtain ⟨entry, s', x, ys', hlp, hx, hxs, rfl⟩ := readRecords_succ_eq_ok.mp hr
    obtain ⟨head, hrec, rfl⟩ := readLp_eq_ok.mp hlp
    have hlp' : readLp (head ++ entry ++ s' ++ t) = .ok (entry, s' ++ t) :=
      readLp_eq_ok.mpr ⟨head, hrec, List.append_assoc _ _ _⟩
    exact readRecords_succ_eq_ok.mpr ⟨entry, s' ++ t, x, ys', hlp', hx, ih hxs, rfl⟩

end Records

/-- The counts fit their places, and the records their lengths. -/
structure SizedSnapshot {φ : Type} (F : FloatText φ) (nodes : List (NodeRecord φ))
    (chunks : List ChunkEntry) : Prop where
  nodes_lt : nodes.length < 2 ^ 32
  chunks_lt : chunks.length < 2 ^ 32
  node : ∀ n ∈ nodes, (serializeNode F n).length < 2 ^ 32
  chunk : ∀ e ∈ chunks, (serializeChunk e).length < 2 ^ 32

/-- Where the node records of a snapshot end, and its chunk count begins. -/
def nodesEnd {φ : Type} (F : FloatText φ) (nodes : List (NodeRecord φ)) : ℕ :=
  16 + (nodes.flatMap fun n => writeLp (serializeNode F n)).length

/-- What follows the node records. -/
def chunksPart (chunks : List ChunkEntry) : Str :=
  beBytes 4 chunks.length ++ chunks.flatMap fun e => writeLp (serializeChunk e)

section Fronts

variable {φ : Type} {F : FloatText φ} {lsn : ℕ} {nodes : List (NodeRecord φ)} {chunks : List ChunkEntry}
  {p s rest t : Str} {header : ℕ × List (NodeRecord φ)}

/-- What is left behind the header of a front is the front of what is left behind the whole one's. -/
theorem parseHeader_append (h : parseHeader F s = .ok (header, rest)) (t : Str) :
    ∃ header', parseHeader F (s ++ t) = .ok (header', rest ++ t) := by
  obtain ⟨h16, hmagic, ys, hn⟩ := parseHeader_eq_ok.mp ⟨header, h⟩
  refine parseHeader_eq_ok.mpr ⟨by rw [List.length_append]; omega, ?_, ys, ?_⟩
  · rw [List.take_append_of_le_length (by omega)]
    exact hmagic
  · rw [List.take_append_of_le_length h16, List.drop_append_of_le_length h16]
    exact readRecords_append hn t

/-- The header of a whole snapshot leaves the chunks. -/
theorem parseHeader_takeSnapshot (hs : SizedSnapshot F nodes chunks)
    (h : parseHeader F (takeSnapshot F lsn nodes chunks) = .ok (header, rest)) :
    rest = chunksPart chunks := by
  have hnodes : beNat (beBytes 4 nodes.length) = nodes.length := by
    rw [beNat_beBytes, Nat.mod_eq_of_lt (hs.nodes_lt.trans_eq (by norm_num))]
  obtain ⟨-, -, ys, hn⟩ := parseHeader_eq_ok.mp ⟨header, h⟩
  have h16 : takeSnapshot F lsn nodes chunks = (beBytes 4 snapshotMagic ++ (beBytes 8 lsn ++
      beBytes 4 nodes.length)) ++ ((nodes.flatMap fun n => writeLp (serializeNode F n)) ++
        chunksPart chunks) := by
    simp [takeSnapshot, chunksPart]
  have hlen : (beBytes 4 snapshotMagic ++ (beBytes 8 lsn ++ beBytes 4 nodes.length)).length = 16 := by
    simp
  rw [h16, List.take_left' hlen, List.drop_left' hlen, ← List.append_assoc,
    List.drop_left' (by simp), hnodes] at hn
  exact readRecords_rest hs.node hn

/-- What a front leaves behind its header is a front of the chunks. -/
theorem rest_of_front (hs : SizedSnapshot F nodes chunks) (ht : p ++ t = takeSnapshot F lsn nodes chunks)
    (h : parseHeader F p = .ok (header, rest)) : rest ++ t = chunksPart chunks := by
  obtain ⟨header', h'⟩ := parseHeader_append h t
  exact parseHeader_takeSnapshot hs (ht ▸ h')

/-- **Nothing but the whole snapshot is accepted.** -/
theorem eq_nil_of_installed (hs : SizedSnapshot F nodes chunks)
    (ht : p ++ t = takeSnapshot F lsn nodes chunks) {r : ℕ × Kv Str (NodeRecord φ) × ChunkTable}
    (h : installSnapshot F p = .ok r) : t = [] := by
  rw [installSnapshot_eq] at h
  cases hh : parseHeader F p with
  | error e => simp [hh, bind, Except.bind] at h
  | ok y =>
    obtain ⟨header, rest⟩ := y
    simp only [hh, bind, Except.bind] at h
    split_ifs at h with h4
    have h4' : 4 ≤ rest.length := not_lt.mp h4
    have hrest : rest ++ t = chunksPart chunks := rest_of_front hs ht hh
    have hchunks : beNat (rest.take 4) = chunks.length := by
      have happend : (rest ++ t).take 4 = rest.take 4 := List.take_append_of_le_length h4'
      have htake : rest.take 4 = beBytes 4 chunks.length := by
        rw [← happend, hrest, chunksPart, take_beBytes]
      rw [htake, beNat_beBytes, Nat.mod_eq_of_lt (hs.chunks_lt.trans_eq (by norm_num))]
    have hdrop : rest.drop 4 ++ t = (chunks.flatMap fun e => writeLp (serializeChunk e)) ++ [] := by
      rw [← List.drop_append_of_le_length h4', hrest, chunksPart, drop_beBytes, List.append_nil]
    cases hc : readRecords parseChunk (beNat (rest.take 4)) (rest.drop 4) with
    | error e => simp [hc] at h
    | ok z =>
      obtain ⟨cs, rest'⟩ := z
      have hwhole := readRecords_append hc t
      rw [hchunks, hdrop] at hwhole
      exact (List.append_eq_nil_iff.mp (readRecords_rest hs.chunk hwhole)).2

/-- A front in which the chunk count is cut off ends there. -/
theorem countCutOff_front (hs : SizedSnapshot F nodes chunks)
    (ht : p ++ t = takeSnapshot F lsn nodes chunks) (h : CountCutOff F p) :
    nodesEnd F nodes ≤ p.length ∧ p.length < nodesEnd F nodes + 4 := by
  obtain ⟨header, rest, hh, hlt⟩ := countCutOff_iff.mp h
  have hrest := congrArg List.length (rest_of_front hs ht hh)
  have hlen := congrArg List.length ht
  have hwhole : (takeSnapshot F lsn nodes chunks).length =
      nodesEnd F nodes + (chunksPart chunks).length := by
    simp only [takeSnapshot, nodesEnd, chunksPart, List.length_append, length_beBytes]
    omega
  rw [List.length_append] at hrest hlen
  omega

end Fronts

/-! ### Transfers -/

/-- **A transfer installs all or nothing.**  Of the pieces of a snapshot the first `k` arrive, and the
stream ends with any status.  Then what the follower goes on with is the whole snapshot if no piece is
missing.  Otherwise, unless the pieces end within the four bytes of the chunk count, its installation
throws and leaves both tables as they were, whatever lies in memory behind the buffer. -/
theorem transfer_all_or_nothing {φ : Type} {F : FloatText φ} {lsn : ℕ} {nodes : List (NodeRecord φ)}
    {chunks : List ChunkEntry} (hs : SizedSnapshot F nodes chunks) {k : ℕ} {ok : Bool} {p : Str}
    (h : receiveSnapshot ((snapshotPieces (takeSnapshot F lsn nodes chunks) lsn 0).take k) ok = some p) :
    ((snapshotPieces (takeSnapshot F lsn nodes chunks) lsn 0).length ≤ k →
      p = takeSnapshot F lsn nodes chunks) ∧
    (k < (snapshotPieces (takeSnapshot F lsn nodes chunks) lsn 0).length →
      p.length < nodesEnd F nodes ∨ nodesEnd F nodes + 4 ≤ p.length →
      ∀ behind c, (∃ e, (installRun F p behind c).1 = .error e) ∧
        (installRun F p behind c).2.Within p.length ∧ (installRun F p behind c).2.state = c) := by
  obtain ⟨d, hd, hpre, hiff⟩ := receiveChunks_take (takeSnapshot F lsn nodes chunks) lsn 0 {} k
  rw [List.drop_zero] at hpre hiff
  have hp : p = d := by
    unfold receiveSnapshot at h
    dsimp only at h
    split_ifs at h
    rw [← Option.some.inj h, hd]
    rfl
  subst hp
  refine ⟨hiff.mpr, fun hk hcut behind c => ?_⟩
  obtain ⟨t, ht⟩ := hpre
  have hne : t ≠ [] := by
    rintro rfl
    rw [List.append_nil] at ht
    exact absurd (hiff.mp ht) (not_le.mpr hk)
  have hcount : ¬ CountCutOff F p := fun hc => by
    have hwindow := countCutOff_front hs ht hc
    omega
  obtain ⟨hin, hresult, -⟩ : (installRun F p behind c).2.Within p.length ∧
      (installRun F p behind c).1 = (installSnapshot F p).map Prod.fst ∧ _ :=
    installRun_inside hcount
  cases hinst : installSnapshot F p with
  | ok r => exact absurd (eq_nil_of_installed hs ht hinst) hne
  | error e =>
    rw [hinst] at hresult
    exact ⟨⟨e, hresult⟩, hin, state_of_error hresult⟩

/-! ### A snapshot in two pieces -/

theorem snapshotPieces_cons {data : Str} {lsn sent : ℕ} (h : sent + chunkSize < data.length) :
    snapshotPieces data lsn sent =
      ⟨(data.drop sent).take chunkSize, false, lsn⟩ :: snapshotPieces data lsn (sent + chunkSize) := by
  have hmin : min chunkSize (data.length - sent) = chunkSize := min_eq_left (by omega)
  rw [snapshotPieces, if_pos (by omega)]
  dsimp only
  rw [hmin, decide_eq_false (not_le.mpr h)]

/-- The first piece of longer data. -/
theorem receive_firstPiece {data : Str} (h : chunkSize < data.length) (lsn : ℕ) :
    receiveSnapshot ((snapshotPieces data lsn 0).take 1) true = some (data.take chunkSize) := by
  rw [snapshotPieces_cons (by rwa [Nat.zero_add])]
  rfl

def entryNamed (id : Str) : ChunkEntry := ⟨id, 1, ["n=a".toList], 1, .stable, [], 1⟩

theorem length_serializeChunk_named (id : Str) :
    (serializeChunk (entryNamed id)).length = id.length + 15 := by
  have hsplit : serializeChunk (entryNamed id) = id ++ serializeChunk (entryNamed []) := by
    simp [serializeChunk, joinFields, entryNamed]
  have htail : (serializeChunk (entryNamed [])).length = 15 := by decide +kernel
  rw [hsplit, List.length_append, htail]

theorem named_sized {id : Str} (h : id.length < 100000) : SizedSnapshot zeroText [] [entryNamed id] where
  nodes_lt := by simp
  chunks_lt := by simp
  node _ hn := by simp at hn
  chunk e he := by
    rw [List.mem_singleton.mp he, length_serializeChunk_named]
    omega

/-- The snapshot of one chunk with a long id. -/
def longSnapshot : Str := takeSnapshot zeroText 1 [] [entryNamed (List.replicate 70000 'c')]

theorem chunkSize_lt_longSnapshot : chunkSize < longSnapshot.length := by
  simp only [longSnapshot, takeSnapshot, writeLp, List.length_append, List.flatMap_cons,
    List.flatMap_nil, length_serializeChunk_named, List.length_replicate, length_beBytes]
  decide

theorem transfer_all_or_nothing_long :
    ((snapshotPieces longSnapshot 1 0).length ≤ 1 → longSnapshot.take chunkSize = longSnapshot) ∧
    (1 < (snapshotPieces longSnapshot 1 0).length →
      (longSnapshot.take chunkSize).length < nodesEnd zeroText [] ∨
        nodesEnd zeroText [] + 4 ≤ (longSnapshot.take chunkSize).length →
      ∀ behind c, (∃ e, (installRun zeroText (longSnapshot.take chunkSize) behind c).1 = .error e) ∧
        (installRun zeroText (longSnapshot.take chunkSize) behind c).2.Within
          (longSnapshot.take chunkSize).length ∧
        (installRun zeroText (longSnapshot.take chunkSize) behind c).2.state = c) :=
  transfer_all_or_nothing (named_sized (by rw [List.length_replicate]; decide))
    (receive_firstPiece chunkSize_lt_longSnapshot 1)

end NimbusVault
