import Mathlib.Data.List.FinRange
import NimbusVault.Lib.Machine
import NimbusVault.Follower
import NimbusVault.PutChunk

/-!
# Replication — the leader's log and its followers

`MetaReplication::write` calls of any number of threads, one replication thread for each index and
follower, the messages between them, and the followers with their bootstrap, as one machine.  A
write appends, registers its ack counter and starts the threads, and ends by committing or by its
timeout.  A replication thread has one AppendEntry call out at a time; on a yes it counts the ack
and sends CommitEntry, on a no (or a failed call) the first thread of calls goes back to
`match_index + 1` and catches up.  A message once sent may be handled late, never or again; a call
may fail whatever became of its message; a snapshot is installed as whatever table its text parses
to.  `counted` and `applied` are ghosts: the followers whose acks were counted for an index, and the
indices a follower has committed and applied.  `Fires` lists what each action needs and does.
-/

namespace NimbusVault

open Lib

/-- An AppendEntry call of the thread of index `thread`: its first one, or one of its catch-up. -/
structure AppendMsg (f : ℕ) where
  dest : Fin f
  thread : ℕ
  direct : Bool
  leaderTerm : ℕ
  prevLogIndex : ℕ
  logIndex : ℕ
  entry : WalEntry
  deriving DecidableEq

/-- The call for the entry `e` of index `k`. -/
def appendMsg {f : ℕ} (a : Fin f) (thread : ℕ) (direct : Bool) (k : ℕ) (e : WalEntry) : AppendMsg f :=
  { dest := a, thread, direct, leaderTerm := e.term, prevLogIndex := k - 1, logIndex := k, entry := e }

inductive WriteStatus
  | appended
  | waiting
  | ok
  | unavailable
  | threw
  deriving DecidableEq

/-- How far `replicate_to_follower` has got: which call is out, or for which index it still has to
send CommitEntry. -/
inductive ReplThread
  | direct
  | catchUp (k : ℕ)
  | acked (direct : Bool) (k : ℕ)
  | done
  deriving DecidableEq

/-- How far `bootstrap_follower_from_leader` has got.  An exception in it ends the process. -/
inductive Boot
  | gotLsn (lsn : ℕ)
  | installed (lsn : ℕ)
  | streaming (next last prev : ℕ)
  | finished
  | crashed
  deriving DecidableEq

structure ReplState (f : ℕ) where
  wal : Wal := {}
  table : ChunkTable := Kv.empty
  matchIndex : Fin f → ℕ := fun _ => 0
  ackCounts : ℕ → Option ℕ := fun _ => none
  writes : ℕ → Option WriteStatus := fun _ => none
  threads : Fin f → ℕ → Option ReplThread := fun _ _ => none
  appends : List (AppendMsg f) := []
  replies : List (AppendMsg f × Bool) := []
  commits : List (Fin f × ℕ) := []
  followers : Fin f → MetaFollower := fun _ => {}
  boots : Fin f → Option Boot := fun _ => none
  counted : ℕ → List (Fin f) := fun _ => []
  applied : Fin f → List ℕ := fun _ => []

inductive ReplStep (f : ℕ)
  | append (type : WalEntryType) (payload : Str)
  | register (i : ℕ)
  | commit (i : ℕ)
  | timeout (i : ℕ)
  | reply (a : Fin f) (i : ℕ) (success : Bool)
  | fail (a : Fin f) (i : ℕ)
  | sendCommit (a : Fin f) (i : ℕ)
  | deliver (m : AppendMsg f)
  | deliverCommit (a : Fin f) (k : ℕ)
  | restart (a : Fin f)
  | bootBegin (a : Fin f)
  | bootInstall (a : Fin f) (table : ChunkTable)
  | bootFetch (a : Fin f)
  | bootEntry (a : Fin f)
  | bootStop (a : Fin f)

/-- `(total_followers + 1) / 2`. -/
def acksNeeded (f : ℕ) : ℕ := (f + 1) / 2

/-! ### The parts of a replication thread -/

/-- The catch-up loop of the thread of index `i` at index `k`: where it stands, and its call. -/
def catchUpFrom {f : ℕ} (w : Wal) (a : Fin f) (i k : ℕ) : ReplThread × List (AppendMsg f) :=
  if k ≤ i then
    match w.readEntry k with
    | some e => (.catchUp k, [appendMsg a i false k e])
    | none => (.done, [])
  else (.done, [])

/-- What a streamed log entry does to a bootstrapping follower: the follower, how far the bootstrap
has got, and the index it applied. -/
def bootNext (w : Wal) (fo : MetaFollower) (next last prev : ℕ) : MetaFollower × Boot × List ℕ :=
  match w.readEntry next with
  | none => (fo, .finished, [])
  | some e =>
    let r := fo.handleAppend e.term prev next e
    if r.1 then
      (r.2.handleCommit next, if (r.2.wal.onCommit r.2.table next).isSome then
        .streaming (next + 1) last next else .crashed, [next])
    else (r.2, .finished, [])

namespace ReplState

variable {f : ℕ}

def setWrite (s : ReplState f) (i : ℕ) (w : WriteStatus) : ReplState f :=
  { s with writes := Function.update s.writes i (some w) }

/-- A thread moves on and sends. -/
def setThread (s : ReplState f) (a : Fin f) (i : ℕ) (r : ReplThread × List (AppendMsg f)) :
    ReplState f :=
  { s with
    threads := Function.update s.threads a (Function.update (s.threads a) i (some r.1))
    appends := s.appends ++ r.2 }

/-- A follower moves on, having applied the entries of `ks`. -/
def setFollower (s : ReplState f) (a : Fin f) (fo : MetaFollower) (ks : List ℕ) : ReplState f :=
  { s with
    followers := Function.update s.followers a fo
    applied := Function.update s.applied a (s.applied a ++ ks) }

def setBoot (s : ReplState f) (a : Fin f) (b : Option Boot) : ReplState f :=
  { s with boots := Function.update s.boots a b }

/-- The call a thread is waiting for. -/
def callMsg (s : ReplState f) (a : Fin f) (i : ℕ) : Option (AppendMsg f) :=
  match s.threads a i with
  | some .direct => (s.wal.readEntry i).map (appendMsg a i true i)
  | some (.catchUp k) => (s.wal.readEntry k).map (appendMsg a i false k)
  | _ => none

/-- After a call that failed or was answered no: the first call starts the catch-up. -/
def afterNo (s : ReplState f) (a : Fin f) (i : ℕ) : ReplThread × List (AppendMsg f) :=
  match s.threads a i with
  | some .direct => catchUpFrom s.wal a i (s.matchIndex a + 1)
  | _ => (.done, [])

def recordAck (s : ReplState f) (a : Fin f) (k : ℕ) : ReplState f :=
  { s with
    ackCounts := Function.update s.ackCounts k ((s.ackCounts k).map (· + 1))
    counted := Function.update s.counted k
      (if (s.ackCounts k).isSome then a :: s.counted k else s.counted k)
    matchIndex := Function.update s.matchIndex a (max (s.matchIndex a) k) }

/-! ### The step function -/

def step (s : ReplState f) : ReplStep f → Option (ReplState f)
  | .append type payload =>
    some ({ s with wal := s.wal.append ⟨type, leaderTerm, payload⟩ }.setWrite
      (s.wal.lastLogIndex + 1) .appended)
  | .register i =>
    match s.writes i, s.wal.readEntry i with
    | some .appended, some e =>
      some ({ s with
        ackCounts := Function.update s.ackCounts i (some 0)
        counted := Function.update s.counted i []
        threads := fun a => Function.update (s.threads a) i (some .direct)
        appends := s.appends ++ (List.finRange f).map fun a => appendMsg a i true i e }.setWrite i
          .waiting)
    | _, _ => none
  | .commit i =>
    match s.writes i, s.ackCounts i with
    | some .waiting, some n =>
      if acksNeeded f ≤ n then
        let r := s.wal.onCommit s.table i
        some ({ s with wal := s.wal.commit i, table := r.getD s.table }.setWrite i
          (if r.isSome then .ok else .threw))
      else none
    | _, _ => none
  | .timeout i =>
    if s.writes i = some .waiting then some (s.setWrite i .unavailable) else none
  | .reply a i success =>
    match s.callMsg a i with
    | some m =>
      if (m, success) ∈ s.replies then
        some (if success then (s.recordAck a m.logIndex).setThread a i (.acked m.direct m.logIndex, [])
          else s.setThread a i (s.afterNo a i))
      else none
    | none => none
  | .fail a i => if (s.callMsg a i).isSome then some (s.setThread a i (s.afterNo a i)) else none
  | .sendCommit a i =>
    match s.threads a i with
    | some (.acked direct k) =>
      some ({ s with commits := s.commits ++ [(a, k)] }.setThread a i
        (if direct then (.done, []) else catchUpFrom s.wal a i (k + 1)))
    | _ => none
  | .deliver m =>
    if m ∈ s.appends ∧ s.boots m.dest ≠ some .crashed then
      let r := (s.followers m.dest).handleAppend m.leaderTerm m.prevLogIndex m.logIndex m.entry
      some ({ s with replies := s.replies ++ [(m, r.1)] }.setFollower m.dest r.2 [])
    else none
  | .deliverCommit a k =>
    if (a, k) ∈ s.commits ∧ s.boots a ≠ some .crashed then
      some (s.setFollower a ((s.followers a).handleCommit k)
        (if k ≤ (s.followers a).wal.lastLogIndex then [k] else []))
    else none
  | .restart a =>
    match MetaFollower.start (s.followers a).wal with
    | some fo =>
      some ((s.setFollower a fo (List.range' 1 (min fo.wal.committed fo.wal.lastLogIndex))).setBoot a
        none)
    | none => none
  | .bootBegin a =>
    if s.boots a = none then some (s.setBoot a (some (.gotLsn s.wal.committed))) else none
  | .bootInstall a table =>
    match s.boots a with
    | some (.gotLsn lsn) =>
      some ((s.setFollower a { s.followers a with table } []).setBoot a (some (.installed lsn)))
    | _ => none
  | .bootFetch a =>
    match s.boots a with
    | some (.installed lsn) =>
      some (s.setBoot a (some (.streaming (lsn + 1) s.wal.lastLogIndex lsn)))
    | _ => none
  | .bootEntry a =>
    match s.boots a with
    | some (.streaming next last prev) =>
      if next ≤ last then
        let r := bootNext s.wal (s.followers a) next last prev
        some ((s.setFollower a r.1 r.2.2).setBoot a (some r.2.1))
      else none
    | _ => none
  | .bootStop a =>
    if s.boots a ≠ none ∧ s.boots a ≠ some .crashed then some (s.setBoot a (some .finished)) else none

/-! ### What each action needs and does -/

/-- The call answered by a reply is one of the thread's own follower, for an entry of the log. -/
theorem callMsg_eq {s : ReplState f} {a : Fin f} {i : ℕ} {m : AppendMsg f}
    (h : s.callMsg a i = some m) : m.dest = a ∧ s.wal.readEntry m.logIndex = some m.entry := by
  unfold callMsg at h
  split at h
  all_goals try simp at h
  all_goals
    obtain ⟨e, he, rfl⟩ := h
    exact ⟨rfl, he⟩

/-- What a thread sends next are calls with entries of the log. -/
theorem mem_catchUpFrom {w : Wal} {a : Fin f} {i k : ℕ} {m : AppendMsg f}
    (h : m ∈ (catchUpFrom w a i k).2) :
    w.readEntry m.logIndex = some m.entry ∧ m.prevLogIndex = m.logIndex - 1 := by
  unfold catchUpFrom at h
  split_ifs at h
  · split at h
    · rename_i e he
      obtain rfl := List.mem_singleton.mp h
      exact ⟨he, rfl⟩
    · simp at h
  · simp at h

theorem mem_afterNo {s : ReplState f} {a : Fin f} {i : ℕ} {m : AppendMsg f}
    (h : m ∈ (s.afterNo a i).2) :
    s.wal.readEntry m.logIndex = some m.entry ∧ m.prevLogIndex = m.logIndex - 1 := by
  unfold afterNo at h
  split at h
  · exact mem_catchUpFrom h
  · simp at h

/-- The step function as a relation, one constructor for each action. -/
inductive Fires (s : ReplState f) : ReplStep f → ReplState f → Prop
  | append (type : WalEntryType) (payload : Str) : Fires s (.append type payload)
      ({ s with wal := s.wal.append ⟨type, leaderTerm, payload⟩ }.setWrite
        (s.wal.lastLogIndex + 1) .appended)
  | register {i : ℕ} {e : WalEntry} : s.writes i = some .appended → s.wal.readEntry i = some e →
      Fires s (.register i) ({ s with
        ackCounts := Function.update s.ackCounts i (some 0)
        counted := Function.update s.counted i []
        threads := fun a => Function.update (s.threads a) i (some .direct)
        appends := s.appends ++ (List.finRange f).map fun a => appendMsg a i true i e }.setWrite i
          .waiting)
  | commit {i n : ℕ} : s.writes i = some .waiting → s.ackCounts i = some n → acksNeeded f ≤ n →
      Fires s (.commit i)
        ({ s with wal := s.wal.commit i, table := (s.wal.onCommit s.table i).getD s.table }.setWrite i
          (if (s.wal.onCommit s.table i).isSome then .ok else .threw))
  | timeout {i : ℕ} : s.writes i = some .waiting → Fires s (.timeout i) (s.setWrite i .unavailable)
  | yes {a : Fin f} {i : ℕ} {m : AppendMsg f} : s.callMsg a i = some m → (m, true) ∈ s.replies →
      Fires s (.reply a i true)
        ((s.recordAck a m.logIndex).setThread a i (.acked m.direct m.logIndex, []))
  | no {a : Fin f} {i : ℕ} : Fires s (.reply a i false) (s.setThread a i (s.afterNo a i))
  | fail {a : Fin f} {i : ℕ} : Fires s (.fail a i) (s.setThread a i (s.afterNo a i))
  | sendCommit {a : Fin f} {i k : ℕ} {direct : Bool} : s.threads a i = some (.acked direct k) →
      Fires s (.sendCommit a i) ({ s with commits := s.commits ++ [(a, k)] }.setThread a i
        (if direct then (.done, []) else catchUpFrom s.wal a i (k + 1)))
  | deliver {m : AppendMsg f} : m ∈ s.appends → Fires s (.deliver m)
      ({ s with replies := s.replies ++ [(m, ((s.followers m.dest).handleAppend m.leaderTerm
          m.prevLogIndex m.logIndex m.entry).1)] }.setFollower m.dest
        ((s.followers m.dest).handleAppend m.leaderTerm m.prevLogIndex m.logIndex m.entry).2 [])
  | deliverCommit {a : Fin f} {k : ℕ} : (a, k) ∈ s.commits → Fires s (.deliverCommit a k)
      (s.setFollower a ((s.followers a).handleCommit k)
        (if k ≤ (s.followers a).wal.lastLogIndex then [k] else []))
  | restart {a : Fin f} {table : ChunkTable} :
      (s.followers a).wal.replay Kv.empty = some table → Fires s (.restart a)
      ((s.setFollower a { wal := (s.followers a).wal, table } (List.range' 1
        (min (s.followers a).wal.committed (s.followers a).wal.lastLogIndex))).setBoot a none)
  | bootBegin {a : Fin f} : Fires s (.bootBegin a) (s.setBoot a (some (.gotLsn s.wal.committed)))
  | bootInstall {a : Fin f} {table : ChunkTable} {lsn : ℕ} : s.boots a = some (.gotLsn lsn) →
      Fires s (.bootInstall a table)
        ((s.setFollower a { s.followers a with table } []).setBoot a (some (.installed lsn)))
  | bootFetch {a : Fin f} {lsn : ℕ} : s.boots a = some (.installed lsn) → Fires s (.bootFetch a)
      (s.setBoot a (some (.streaming (lsn + 1) s.wal.lastLogIndex lsn)))
  | bootEntry {a : Fin f} {next last prev : ℕ} : s.boots a = some (.streaming next last prev) →
      next ≤ last → Fires s (.bootEntry a)
      ((s.setFollower a (bootNext s.wal (s.followers a) next last prev).1
        (bootNext s.wal (s.followers a) next last prev).2.2).setBoot a
          (some (bootNext s.wal (s.followers a) next last prev).2.1))
  | bootStop {a : Fin f} : Fires s (.bootStop a) (s.setBoot a (some .finished))

/-- **The step function does nothing else.** -/
theorem step_fires {s s' : ReplState f} {l : ReplStep f} (h : s.step l = some s') : s.Fires l s' := by
  cases l with
  | append type payload =>
    obtain rfl := Option.some.inj h
    exact .append type payload
  | register i =>
    simp only [step] at h
    split at h
    · rename_i hw he
      obtain rfl := Option.some.inj h
      exact .register hw he
    · simp at h
  | commit i =>
    simp only [step] at h
    split at h
    · rename_i n hw hn
      by_cases hk : acksNeeded f ≤ n
      · rw [if_pos hk] at h
        obtain rfl := Option.some.inj h
        exact .commit hw hn hk
      · simp [hk] at h
    · simp at h
  | timeout i =>
    simp only [step] at h
    split_ifs at h with hw
    obtain rfl := Option.some.inj h
    exact .timeout hw
  | reply a i success =>
    simp only [step] at h
    split at h
    · rename_i m hm
      split_ifs at h with hr hs
      · subst hs
        obtain rfl := Option.some.inj h
        exact .yes hm hr
      · obtain rfl := Bool.eq_false_iff.mpr hs
        obtain rfl := Option.some.inj h
        exact .no
    · simp at h
  | fail a i =>
    simp only [step] at h
    split_ifs at h
    obtain rfl := Option.some.inj h
    exact .fail
  | sendCommit a i =>
    simp only [step] at h
    split at h
    · rename_i hth
      obtain rfl := Option.some.inj h
      exact .sendCommit hth
    · simp at h
  | deliver m =>
    simp only [step] at h
    split_ifs at h with hm
    obtain rfl := Option.some.inj h
    exact .deliver hm.1
  | deliverCommit a k =>
    simp only [step] at h
    by_cases hk : (a, k) ∈ s.commits ∧ s.boots a ≠ some .crashed
    · rw [if_pos hk] at h
      obtain rfl := Option.some.inj h
      exact .deliverCommit hk.1
    · simp [hk] at h
  | restart a =>
    simp only [step] at h
    split at h
    · rename_i fo hfo
      obtain ⟨table, ht, rfl⟩ := Option.map_eq_some_iff.mp hfo
      obtain rfl := Option.some.inj h
      exact .restart ht
    · simp at h
  | bootBegin a =>
    simp only [step] at h
    split_ifs at h
    obtain rfl := Option.some.inj h
    exact .bootBegin
  | bootInstall a table =>
    simp only [step] at h
    split at h
    · rename_i hb
      obtain rfl := Option.some.inj h
      exact .bootInstall hb
    · simp at h
  | bootFetch a =>
    simp only [step] at h
    split at h
    · rename_i hb
      obtain rfl := Option.some.inj h
      exact .bootFetch hb
    · simp at h
  | bootEntry a =>
    simp only [step] at h
    split at h
    · rename_i hb
      split_ifs at h with hle
      obtain rfl := Option.some.inj h
      exact .bootEntry hb hle
    · simp at h
  | bootStop a =>
    simp only [step] at h
    split_ifs at h
    obtain rfl := Option.some.inj h
    exact .bootStop

/-- **The life of a write**: how a step may change what is known of the write of an index. -/
theorem Fires.write_life {s s' : ReplState f} {l : ReplStep f} (h : s.Fires l s') (i : ℕ) :
    s'.writes i = s.writes i ∨
      (i = s.wal.lastLogIndex + 1 ∧ i = s'.wal.lastLogIndex ∧ s'.writes i = some .appended) ∨
      (s.writes i = some .appended ∧ s'.writes i = some .waiting ∧ s'.counted i = []) ∨
      (s.writes i = some .waiting ∧ s'.writes i = some .unavailable) ∨
      (s.writes i = some .waiting ∧ (∃ n, s.ackCounts i = some n ∧ acksNeeded f ≤ n) ∧
        (s'.writes i = some .ok ∨ s'.writes i = some .threw)) := by
  have written : ∀ (j : ℕ) (x : WriteStatus),
      Function.update s.writes j (some x) i = s.writes i ∨
        (i = j ∧ Function.update s.writes j (some x) i = some x) := by
    intro j x
    by_cases hij : i = j
    · subst hij
      exact .inr ⟨rfl, Function.update_self ..⟩
    · exact .inl (Function.update_of_ne hij ..)
  cases h with
  | append =>
    rcases written (s.wal.lastLogIndex + 1) .appended with hx | ⟨hi, hx⟩
    · exact .inl hx
    · exact .inr (.inl ⟨hi, hi.trans Wal.lastLogIndex_append.symm, hx⟩)
  | @register j e hw =>
    rcases written j .waiting with hx | ⟨rfl, hx⟩
    · exact .inl hx
    · exact .inr (.inr (.inl ⟨hw, hx, Function.update_self ..⟩))
  | @timeout j hw =>
    rcases written j .unavailable with hx | ⟨rfl, hx⟩
    · exact .inl hx
    · exact .inr (.inr (.inr (.inl ⟨hw, hx⟩)))
  | @commit j n hw hn hq =>
    rcases written j (if (s.wal.onCommit s.table j).isSome then .ok else .threw) with hx | ⟨rfl, hx⟩
    · exact .inl hx
    · refine .inr (.inr (.inr (.inr ⟨hw, ⟨n, hn, hq⟩, ?_⟩)))
      by_cases hr : (s.wal.onCommit s.table i).isSome = true
      · exact .inl (hx.trans (by rw [if_pos hr]))
      · exact .inr (hx.trans (by rw [if_neg hr]))
  | _ => exact .inl rfl

/-- The leader's log only grows. -/
theorem Fires.wal_grows {s s' : ReplState f} {l : ReplStep f} (h : s.Fires l s') :
    s.wal.records <+: s'.wal.records := by
  cases h with
  | append => exact Wal.prefix_append
  | _ => exact List.prefix_refl _

/-- Every write is in the log. -/
def Logged (s : ReplState f) : Prop := ∀ i x, s.writes i = some x → ∃ e, s.wal.readEntry i = some e

theorem Fires.logged {s s' : ReplState f} {l : ReplStep f} (hl : s.Logged) (h : s.Fires l s') :
    s'.Logged := by
  intro i x hx
  have old : ∀ {y}, s.writes i = some y → ∃ e, s'.wal.readEntry i = some e := by
    intro y hy
    obtain ⟨e, he⟩ := hl i y hy
    exact ⟨e, Wal.readEntry_of_prefix h.wal_grows he⟩
  rcases h.write_life i with hw | ⟨h1, h2, -⟩ | ⟨hw, -⟩ | ⟨hw, -⟩ | ⟨hw, -⟩
  · exact old (hw ▸ hx)
  · exact Wal.readEntry_isSome (by omega) (by omega)
  all_goals exact old hw

end ReplState

/-- The leader and its `f` followers. -/
abbrev replication (f : ℕ) : Machine (ReplState f) (ReplStep f) := .ofStep ReplState.step

end NimbusVault
