import NimbusVault.FailingAppend
import NimbusVault.Replication

/-!
# SplitAppend — the log appends of concurrent calls, cut at their accesses

`Replication` takes a write's append and a follower's handler as one step each.  Here they are cut
where another call can come between.  `MetaWal::append` reads `last_index_`, stores it raised by one,
puts the entry and persists the index; the Put may fail, and then `append` throws and the index stays
raised.  `handle_append` reads `last_index_` once more before that, and takes an entry it cannot read
for one that another handler is about to put.  The handlers of a follower run concurrently with each
other and with its bootstrap.  A replication thread reads `match_index` and the entry of a catch-up
call in two steps.  All messages carry one term, and what a follower commits and applies plays no
part for its log, so `CommitEntry` is only the moment at which a thread goes on.
-/

namespace NimbusVault

open Lib

/-- How far `MetaReplication::write` has got, with its index once `last_index_` is raised. -/
inductive WritePhase
  | loaded (base : ℕ)
  | putting (i : ℕ)
  | appended (i : ℕ)
  | waiting (i : ℕ)
  | ok (i : ℕ)
  | unavailable (i : ℕ)
  | threw
  deriving DecidableEq

structure WriteCall where
  entry : WalEntry
  phase : WritePhase
  deriving DecidableEq

/-- How far `replicate_to_follower` has got, for the write of index `i`: which call is out or was
acknowledged, or which entry the catch-up reads next. -/
inductive SendPhase (f : ℕ)
  | calling (i : ℕ) (m : AppendMsg f)
  | acked (i : ℕ) (m : AppendMsg f)
  | next (i k : ℕ)
  | done
  deriving DecidableEq

/-- How far `handle_append` has got: `local_last` is read, `last_index_` is read once more, it is
stored raised, the entry is put, `last_index_` is read to be persisted. -/
inductive HandlerPhase
  | checked (localLast : ℕ)
  | loaded (base : ℕ)
  | raised (i : ℕ)
  | stored
  | persisting (last : ℕ)
  deriving DecidableEq

/-- A running `handle_append`: called by an AppendEntry message, or by the follower's bootstrap. -/
structure AppendHandler (f : ℕ) where
  msg : AppendMsg f
  remote : Bool
  phase : HandlerPhase
  deriving DecidableEq

/-- A follower process, with the last index that it has persisted. -/
structure FollowerDisk where
  wal : DiskWal
  persisted : ℕ
  currentTerm : ℕ := 0

/-- A write is its place in `writes`.  `counted` is a ghost. -/
structure SplitState (f : ℕ) where
  wal : DiskWal
  table : ChunkTable := Kv.empty
  matchIndex : Fin f → ℕ := fun _ => 0
  ackCounts : ℕ → Option ℕ := fun _ => none
  writes : List WriteCall := []
  threads : Fin f → ℕ → Option (SendPhase f) := fun _ _ => none
  appends : List (AppendMsg f) := []
  replies : List (AppendMsg f × Bool) := []
  followers : Fin f → FollowerDisk
  handlers : ℕ → Option (AppendHandler f) := fun _ => none
  counted : ℕ → List (Fin f) := fun _ => []

/-- The steps of the write `n`, of its thread to the follower `a`, and of the handler `h`. -/
inductive SplitStep (f : ℕ)
  | begin (type : WalEntryType) (payload : Str)
  | raise (n : ℕ)
  | put (n : ℕ) (putOk : Bool)
  | register (n : ℕ)
  | commit (n : ℕ)
  | timeout (n : ℕ)
  | reply (a : Fin f) (n : ℕ) (success : Bool)
  | fail (a : Fin f) (n : ℕ)
  | goOn (a : Fin f) (n : ℕ)
  | send (a : Fin f) (n : ℕ)
  | accept (h : ℕ) (m : AppendMsg f)
  | bootAppend (h : ℕ) (a : Fin f) (prev k : ℕ)
  | decide (h : ℕ)
  | raiseLast (h : ℕ)
  | store (h : ℕ) (putOk : Bool)
  | persist (h : ℕ)
  | answer (h : ℕ)
  | restart (a : Fin f)

namespace DiskWal

/-- The store to `last_index_`. -/
def raise (w : DiskWal) (base : ℕ) : DiskWal := { w with lastIndex := base + 1 }

/-- The Put of an entry. -/
def put (w : DiskWal) (i : ℕ) (e : WalEntry) : DiskWal :=
  { w with stored := Function.update w.stored i (some e) }

/-- The `on_commit` callback of the leader. -/
def onCommit (w : DiskWal) (t : ChunkTable) (logIndex : ℕ) : Option ChunkTable :=
  match w.stored logIndex with
  | none => some t
  | some e => applyWalEntry t e

end DiskWal

/-- The catch-up loop of the write `n` with index `i` at index `k`: how it goes on, and its call. -/
def catchUpCall {f : ℕ} (w : DiskWal) (a : Fin f) (n i k : ℕ) : SendPhase f × List (AppendMsg f) :=
  if k ≤ i then
    match w.stored k with
    | some e => (.calling i (appendMsg a n false k e), [appendMsg a n false k e])
    | none => (.done, [])
  else (.done, [])

namespace SplitState

variable {f : ℕ}

def setWrite (s : SplitState f) (n : ℕ) (c : WriteCall) : SplitState f :=
  { s with writes := s.writes.set n c }

def setThread (s : SplitState f) (a : Fin f) (n : ℕ) (p : SendPhase f) : SplitState f :=
  { s with threads := Function.update s.threads a (Function.update (s.threads a) n (some p)) }

def setFollower (s : SplitState f) (a : Fin f) (fo : FollowerDisk) : SplitState f :=
  { s with followers := Function.update s.followers a fo }

def setHandler (s : SplitState f) (h : ℕ) (x : Option (AppendHandler f)) : SplitState f :=
  { s with handlers := Function.update s.handlers h x }

/-- The handler returns; the bootstrap's own is not answered to the leader. -/
def answered (s : SplitState f) (h : ℕ) (x : AppendHandler f) (success : Bool) : SplitState f :=
  { s.setHandler h none with
    replies := if x.remote then s.replies ++ [(x.msg, success)] else s.replies }

def recordAck (s : SplitState f) (a : Fin f) (k : ℕ) : SplitState f :=
  { s with
    ackCounts := Function.update s.ackCounts k ((s.ackCounts k).map (· + 1))
    counted := Function.update s.counted k
      (if (s.ackCounts k).isSome then a :: s.counted k else s.counted k)
    matchIndex := Function.update s.matchIndex a (max (s.matchIndex a) k) }

/-- After a call that failed or was answered no: the first call starts the catch-up. -/
def afterNo (s : SplitState f) (a : Fin f) (i : ℕ) (m : AppendMsg f) : SendPhase f :=
  if m.direct then .next i (s.matchIndex a + 1) else .done

/-- The follower at which a handler runs. -/
def follower (s : SplitState f) (x : AppendHandler f) : FollowerDisk := s.followers x.msg.dest

/-- What `handle_append` does once `local_last` is read. -/
def decided (s : SplitState f) (h : ℕ) (x : AppendHandler f) (localLast : ℕ) : SplitState f :=
  if x.msg.logIndex ≤ localLast then
    match (s.follower x).wal.stored x.msg.logIndex with
    | none => s.answered h x true
    | some existing => s.answered h x (existing = x.msg.entry)
  else if localLast + 1 < x.msg.logIndex then s.answered h x false
  else if x.msg.prevLogIndex ≠ localLast then s.answered h x false
  else s.setHandler h (some { x with phase := .loaded (s.follower x).wal.lastIndex })

/-! ### The step function -/

def step (s : SplitState f) : SplitStep f → Option (SplitState f)
  | .begin type payload =>
    some { s with writes := s.writes ++ [⟨⟨type, leaderTerm, payload⟩, .loaded s.wal.lastIndex⟩] }
  | .raise n =>
    match s.writes[n]? with
    | some ⟨e, .loaded base⟩ =>
      some ({ s with wal := s.wal.raise base }.setWrite n ⟨e, .putting (base + 1)⟩)
    | _ => none
  | .put n putOk =>
    match s.writes[n]? with
    | some ⟨e, .putting i⟩ =>
      some (if putOk then { s with wal := s.wal.put i e }.setWrite n ⟨e, .appended i⟩
        else s.setWrite n ⟨e, .threw⟩)
    | _ => none
  | .register n =>
    match s.writes[n]? with
    | some ⟨e, .appended i⟩ =>
      some ({ s with
        ackCounts := Function.update s.ackCounts i (some 0)
        counted := Function.update s.counted i []
        threads := fun a =>
          Function.update (s.threads a) n (some (.calling i (appendMsg a n true i e)))
        appends := s.appends ++ (List.finRange f).map fun a => appendMsg a n true i e }.setWrite n
          ⟨e, .waiting i⟩)
    | _ => none
  | .commit n =>
    match s.writes[n]? with
    | some ⟨e, .waiting i⟩ =>
      match s.ackCounts i with
      | some k =>
        if acksNeeded f ≤ k then
          let r := s.wal.onCommit s.table i
          some ({ s with table := r.getD s.table }.setWrite n
            ⟨e, if r.isSome then .ok i else .threw⟩)
        else none
      | none => none
    | _ => none
  | .timeout n =>
    match s.writes[n]? with
    | some ⟨e, .waiting i⟩ => some (s.setWrite n ⟨e, .unavailable i⟩)
    | _ => none
  | .reply a n success =>
    match s.threads a n with
    | some (.calling i m) =>
      if s.replies.contains (m, success) then
        some (if success then (s.recordAck a m.logIndex).setThread a n (.acked i m)
          else s.setThread a n (s.afterNo a i m))
      else none
    | _ => none
  | .fail a n =>
    match s.threads a n with
    | some (.calling i m) => some (s.setThread a n (s.afterNo a i m))
    | _ => none
  | .goOn a n =>
    match s.threads a n with
    | some (.acked i m) =>
      some (s.setThread a n (if m.direct then .done else .next i (m.logIndex + 1)))
    | _ => none
  | .send a n =>
    match s.threads a n with
    | some (.next i k) =>
      let r := catchUpCall s.wal a n i k
      some ({ s with appends := s.appends ++ r.2 }.setThread a n r.1)
    | _ => none
  | .accept h m =>
    if s.appends.contains m && (s.handlers h).isNone then
      let fo := s.followers m.dest
      if m.leaderTerm < fo.currentTerm then some { s with replies := s.replies ++ [(m, false)] }
      else some ((s.setFollower m.dest { fo with currentTerm := m.leaderTerm }).setHandler h
        (some ⟨m, true, .checked fo.wal.lastIndex⟩))
    else none
  | .bootAppend h a prev k =>
    match s.wal.stored k, s.handlers h with
    | some e, none =>
      let fo := s.followers a
      if e.term < fo.currentTerm then some s
      else some ((s.setFollower a { fo with currentTerm := e.term }).setHandler h
        (some ⟨{ appendMsg a 0 false k e with prevLogIndex := prev }, false,
          .checked fo.wal.lastIndex⟩))
    | _, _ => none
  | .decide h =>
    match s.handlers h with
    | some ⟨m, remote, .checked localLast⟩ =>
      some (s.decided h ⟨m, remote, .checked localLast⟩ localLast)
    | _ => none
  | .raiseLast h =>
    match s.handlers h with
    | some ⟨m, remote, .loaded base⟩ =>
      let fo := s.followers m.dest
      some ((s.setFollower m.dest { fo with wal := fo.wal.raise base }).setHandler h
        (some ⟨m, remote, .raised (base + 1)⟩))
    | _ => none
  | .store h putOk =>
    match s.handlers h with
    | some ⟨m, remote, .raised i⟩ =>
      let fo := s.followers m.dest
      some (if putOk then (s.setFollower m.dest { fo with wal := fo.wal.put i m.entry }).setHandler h
          (some ⟨m, remote, .stored⟩)
        else s.setHandler h none)
    | _ => none
  | .persist h =>
    match s.handlers h with
    | some ⟨m, remote, .stored⟩ =>
      some (s.setHandler h (some ⟨m, remote, .persisting (s.followers m.dest).wal.lastIndex⟩))
    | _ => none
  | .answer h =>
    match s.handlers h with
    | some ⟨m, remote, .persisting last⟩ =>
      some ((s.setFollower m.dest { s.followers m.dest with persisted := last }).answered h
        ⟨m, remote, .persisting last⟩ true)
    | _ => none
  | .restart a =>
    let fo := s.followers a
    some { s.setFollower a
        { fo with wal := { fo.wal with lastIndex := fo.persisted }, currentTerm := 0 } with
      handlers := fun h => (s.handlers h).filter fun x => x.msg.dest ≠ a }

/-! ### What each action needs and does -/

/-- The step function as a relation, one constructor for each way an action goes. -/
inductive Fires (s : SplitState f) : SplitStep f → SplitState f → Prop
  | begin (type : WalEntryType) (payload : Str) : Fires s (.begin type payload)
      { s with writes := s.writes ++ [⟨⟨type, leaderTerm, payload⟩, .loaded s.wal.lastIndex⟩] }
  | raise {n base : ℕ} {e : WalEntry} : s.writes[n]? = some ⟨e, .loaded base⟩ →
      Fires s (.raise n) ({ s with wal := s.wal.raise base }.setWrite n ⟨e, .putting (base + 1)⟩)
  | put {n i : ℕ} {e : WalEntry} : s.writes[n]? = some ⟨e, .putting i⟩ →
      Fires s (.put n true) ({ s with wal := s.wal.put i e }.setWrite n ⟨e, .appended i⟩)
  | putFails {n i : ℕ} {e : WalEntry} : s.writes[n]? = some ⟨e, .putting i⟩ →
      Fires s (.put n false) (s.setWrite n ⟨e, .threw⟩)
  | register {n i : ℕ} {e : WalEntry} : s.writes[n]? = some ⟨e, .appended i⟩ →
      Fires s (.register n) ({ s with
        ackCounts := Function.update s.ackCounts i (some 0)
        counted := Function.update s.counted i []
        threads := fun a =>
          Function.update (s.threads a) n (some (.calling i (appendMsg a n true i e)))
        appends := s.appends ++ (List.finRange f).map fun a => appendMsg a n true i e }.setWrite n
          ⟨e, .waiting i⟩)
  | commit {n i k : ℕ} {e : WalEntry} : s.writes[n]? = some ⟨e, .waiting i⟩ →
      s.ackCounts i = some k → acksNeeded f ≤ k →
      Fires s (.commit n) ({ s with table := (s.wal.onCommit s.table i).getD s.table }.setWrite n
        ⟨e, if (s.wal.onCommit s.table i).isSome then .ok i else .threw⟩)
  | timeout {n i : ℕ} {e : WalEntry} : s.writes[n]? = some ⟨e, .waiting i⟩ →
      Fires s (.timeout n) (s.setWrite n ⟨e, .unavailable i⟩)
  | yes {a : Fin f} {n i : ℕ} {m : AppendMsg f} : s.threads a n = some (.calling i m) →
      (m, true) ∈ s.replies →
      Fires s (.reply a n true) ((s.recordAck a m.logIndex).setThread a n (.acked i m))
  | no {a : Fin f} {n i : ℕ} {m : AppendMsg f} :
      Fires s (.reply a n false) (s.setThread a n (s.afterNo a i m))
  | fail {a : Fin f} {n i : ℕ} {m : AppendMsg f} :
      Fires s (.fail a n) (s.setThread a n (s.afterNo a i m))
  | goOn {a : Fin f} {n i : ℕ} {m : AppendMsg f} :
      Fires s (.goOn a n) (s.setThread a n (if m.direct then .done else .next i (m.logIndex + 1)))
  | send {a : Fin f} {n i k : ℕ} : Fires s (.send a n)
      ({ s with appends := s.appends ++ (catchUpCall s.wal a n i k).2 }.setThread a n
        (catchUpCall s.wal a n i k).1)
  | stale {h : ℕ} {m : AppendMsg f} :
      Fires s (.accept h m) { s with replies := s.replies ++ [(m, false)] }
  | accept {h : ℕ} {m : AppendMsg f} : m ∈ s.appends → Fires s (.accept h m)
      ((s.setFollower m.dest { s.followers m.dest with currentTerm := m.leaderTerm }).setHandler h
        (some ⟨m, true, .checked (s.followers m.dest).wal.lastIndex⟩))
  | bootStale {h prev k : ℕ} {a : Fin f} : Fires s (.bootAppend h a prev k) s
  | bootAppend {h prev k : ℕ} {a : Fin f} {e : WalEntry} : s.wal.stored k = some e →
      Fires s (.bootAppend h a prev k)
        ((s.setFollower a { s.followers a with currentTerm := e.term }).setHandler h
          (some ⟨{ appendMsg a 0 false k e with prevLogIndex := prev }, false,
            .checked (s.followers a).wal.lastIndex⟩))
  | decide {h localLast : ℕ} {x : AppendHandler f} : s.handlers h = some x →
      x.phase = .checked localLast → Fires s (.decide h) (s.decided h x localLast)
  | raiseLast {h base : ℕ} {m : AppendMsg f} {remote : Bool} :
      s.handlers h = some ⟨m, remote, .loaded base⟩ → Fires s (.raiseLast h)
        ((s.setFollower m.dest { s.followers m.dest with
          wal := (s.followers m.dest).wal.raise base }).setHandler h
            (some ⟨m, remote, .raised (base + 1)⟩))
  | store {h i : ℕ} {m : AppendMsg f} {remote : Bool} :
      s.handlers h = some ⟨m, remote, .raised i⟩ → Fires s (.store h true)
        ((s.setFollower m.dest { s.followers m.dest with
          wal := (s.followers m.dest).wal.put i m.entry }).setHandler h (some ⟨m, remote, .stored⟩))
  | storeFails {h : ℕ} : Fires s (.store h false) (s.setHandler h none)
  | persist {h : ℕ} {m : AppendMsg f} {remote : Bool} : s.handlers h = some ⟨m, remote, .stored⟩ →
      Fires s (.persist h)
        (s.setHandler h (some ⟨m, remote, .persisting (s.followers m.dest).wal.lastIndex⟩))
  | answer {h last : ℕ} {m : AppendMsg f} {remote : Bool} :
      s.handlers h = some ⟨m, remote, .persisting last⟩ → Fires s (.answer h)
        ((s.setFollower m.dest { s.followers m.dest with persisted := last }).answered h
          ⟨m, remote, .persisting last⟩ true)
  | restart {a : Fin f} : Fires s (.restart a)
      { s.setFollower a { s.followers a with
          wal := { (s.followers a).wal with lastIndex := (s.followers a).persisted }
          currentTerm := 0 } with
        handlers := fun h => (s.handlers h).filter fun x => x.msg.dest ≠ a }

/-- **The step function does nothing else.** -/
theorem step_fires {s s' : SplitState f} {l : SplitStep f} (hs : s.step l = some s') :
    s.Fires l s' := by
  cases l with
  | begin type payload =>
    obtain rfl := Option.some.inj hs
    exact .begin type payload
  | raise n =>
    simp only [step] at hs
    split at hs
    · rename_i hw
      obtain rfl := Option.some.inj hs
      exact .raise hw
    · simp at hs
  | put n putOk =>
    simp only [step] at hs
    split at hs
    · rename_i hw
      obtain rfl := Option.some.inj hs
      cases putOk with
      | true => exact .put hw
      | false => exact .putFails hw
    · simp at hs
  | register n =>
    simp only [step] at hs
    split at hs
    · rename_i hw
      obtain rfl := Option.some.inj hs
      exact .register hw
    · simp at hs
  | commit n =>
    simp only [step] at hs
    split at hs
    · rename_i hw
      split at hs
      · rename_i k hk
        by_cases hq : acksNeeded f ≤ k
        · rw [if_pos hq] at hs
          obtain rfl := Option.some.inj hs
          exact .commit hw hk hq
        · simp [hq] at hs
      · simp at hs
    · simp at hs
  | timeout n =>
    simp only [step] at hs
    split at hs
    · rename_i hw
      obtain rfl := Option.some.inj hs
      exact .timeout hw
    · simp at hs
  | reply a n success =>
    simp only [step] at hs
    split at hs
    · rename_i hth
      split_ifs at hs with hr hb
      · subst hb
        obtain rfl := Option.some.inj hs
        exact .yes hth (List.contains_iff_mem.mp hr)
      · obtain rfl := Bool.eq_false_iff.mpr hb
        obtain rfl := Option.some.inj hs
        exact .no
    · simp at hs
  | fail a n =>
    simp only [step] at hs
    split at hs
    · obtain rfl := Option.some.inj hs
      exact .fail
    · simp at hs
  | goOn a n =>
    simp only [step] at hs
    split at hs
    · obtain rfl := Option.some.inj hs
      exact .goOn
    · simp at hs
  | send a n =>
    simp only [step] at hs
    split at hs
    · obtain rfl := Option.some.inj hs
      exact .send
    · simp at hs
  | accept h m =>
    simp only [step] at hs
    by_cases hm : (s.appends.contains m && (s.handlers h).isNone) = true
    · rw [if_pos hm] at hs
      split_ifs at hs <;> obtain rfl := Option.some.inj hs
      · exact .stale
      · exact .accept (List.contains_iff_mem.mp (Bool.and_eq_true_iff.mp hm).1)
    · rw [if_neg hm] at hs
      cases hs
  | bootAppend h a prev k =>
    simp only [step] at hs
    split at hs
    · rename_i he _
      split_ifs at hs <;> obtain rfl := Option.some.inj hs
      · exact .bootStale
      · exact .bootAppend he
    · simp at hs
  | decide h =>
    simp only [step] at hs
    split at hs
    · rename_i hx
      obtain rfl := Option.some.inj hs
      exact .decide hx rfl
    · simp at hs
  | raiseLast h =>
    simp only [step] at hs
    split at hs
    · rename_i hx
      obtain rfl := Option.some.inj hs
      exact .raiseLast hx
    · simp at hs
  | store h putOk =>
    simp only [step] at hs
    split at hs
    · rename_i hx
      obtain rfl := Option.some.inj hs
      cases putOk with
      | true => exact .store hx
      | false => exact .storeFails
    · simp at hs
  | persist h =>
    simp only [step] at hs
    split at hs
    · rename_i hx
      obtain rfl := Option.some.inj hs
      exact .persist hx
    · simp at hs
  | answer h =>
    simp only [step] at hs
    split at hs
    · rename_i hx
      obtain rfl := Option.some.inj hs
      exact .answer hx
    · simp at hs
  | restart a =>
    obtain rfl := Option.some.inj hs
    exact .restart

end SplitState

/-- The leader and its `f` followers, cut at the accesses to their logs. -/
abbrev splitAppends (f : ℕ) : Machine (SplitState f) (SplitStep f) := .ofStep SplitState.step

/-! ### A handler in one go -/

/-- The follower as `FailingAppend` sees it, without a failure so far. -/
def FollowerDisk.plain (fo : FollowerDisk) : DiskFollower := ⟨fo.wal, fo.currentTerm, []⟩

/-- The message, with the fate of its Put. -/
def AppendMsg.disk {f : ℕ} (m : AppendMsg f) (putOk : Bool) : DiskAppend :=
  ⟨m.leaderTerm, m.prevLogIndex, m.logIndex, m.entry, putOk⟩

namespace SplitState

variable {f : ℕ}

/-- The state with the handler `h` of `m` in a phase, at the follower `fo`. -/
def handling (s : SplitState f) (h : ℕ) (m : AppendMsg f) (fo : FollowerDisk) (p : HandlerPhase) :
    SplitState f :=
  (s.setFollower m.dest fo).setHandler h (some ⟨m, true, p⟩)

/-- The state when the handler of `m` has gone and left the follower `fo`. -/
def handled (s : SplitState f) (m : AppendMsg f) (fo : FollowerDisk) (success : Option Bool) :
    SplitState f :=
  { s.setFollower m.dest fo with replies := s.replies ++ (success.map (Prod.mk m)).toList }

section Handling

variable {s : SplitState f} {h : ℕ} {m : AppendMsg f} {fo : FollowerDisk}

theorem update_handlers_none (hh : s.handlers h = none) :
    Function.update s.handlers h none = s.handlers := by
  rw [← hh, Function.update_eq_self]

theorem step_accept (hm : m ∈ s.appends) (hh : s.handlers h = none) (hfo : s.followers m.dest = fo) :
    s.step (.accept h m) = some (if m.leaderTerm < fo.currentTerm then s.handled m fo (some false)
      else s.handling h m { fo with currentTerm := m.leaderTerm } (.checked fo.wal.lastIndex)) := by
  subst hfo
  have hstart : (s.appends.contains m && (s.handlers h).isNone) = true := by simp [hm, hh]
  simp only [step, hstart, if_true]
  split_ifs
  · simp [handled, setFollower]
  · rfl

theorem answered_handling (hh : s.handlers h = none) (p p' : HandlerPhase) (success : Bool) :
    (s.handling h m fo p).answered h ⟨m, true, p'⟩ success = s.handled m fo (some success) := by
  simp [handling, answered, setHandler, setFollower, handled, update_handlers_none hh]

theorem step_decide (fo : FollowerDisk) (hh : s.handlers h = none) (localLast : ℕ) :
    (s.handling h m fo (.checked localLast)).step (.decide h) = some (
      if m.logIndex ≤ localLast then
        s.handled m fo (some ((fo.wal.stored m.logIndex).all fun e => decide (e = m.entry)))
      else if localLast + 1 < m.logIndex then s.handled m fo (some false)
      else if m.prevLogIndex ≠ localLast then s.handled m fo (some false)
      else s.handling h m fo (.loaded fo.wal.lastIndex)) := by
  have hx : (s.handling h m fo (.checked localLast)).handlers h
      = some ⟨m, true, .checked localLast⟩ := Function.update_self ..
  have hfo : (s.handling h m fo (.checked localLast)).follower ⟨m, true, .checked localLast⟩ = fo :=
    Function.update_self ..
  simp only [step, hx, decided, hfo, answered_handling hh]
  split_ifs
  · cases fo.wal.stored m.logIndex <;> rfl
  · rfl
  · rfl
  · simp [handling, setHandler, setFollower, Function.update_idem]

theorem step_raiseLast {base : ℕ} : (s.handling h m fo (.loaded base)).step (.raiseLast h) =
    some (s.handling h m { fo with wal := fo.wal.raise base } (.raised (base + 1))) := by
  simp [step, handling, setHandler, setFollower, Function.update_idem]

theorem step_store {i : ℕ} : (s.handling h m fo (.raised i)).step (.store h true) =
    some (s.handling h m { fo with wal := fo.wal.put i m.entry } .stored) := by
  simp [step, handling, setHandler, setFollower, Function.update_idem]

theorem step_storeFails (hh : s.handlers h = none) {i : ℕ} :
    (s.handling h m fo (.raised i)).step (.store h false) = some (s.handled m fo none) := by
  simp [step, handling, handled, setHandler, setFollower, update_handlers_none hh]

theorem step_persist : (s.handling h m fo .stored).step (.persist h) =
    some (s.handling h m fo (.persisting fo.wal.lastIndex)) := by
  simp [step, handling, setHandler, setFollower]

theorem step_answer (hh : s.handlers h = none) {last : ℕ} :
    (s.handling h m fo (.persisting last)).step (.answer h) =
      some (s.handled m { fo with persisted := last } (some true)) := by
  simp [step, handling, handled, answered, setHandler, setFollower, update_handlers_none hh]

/-- From the reading of `last_index_` on, the handler appends, and answers if it has not thrown. -/
theorem reach_append (fo : FollowerDisk) (hh : s.handlers h = none) (putOk : Bool) : ∃ tr persisted,
    (splitAppends f).Reach (s.handling h m fo (.loaded fo.wal.lastIndex)) tr
      (s.handled m { fo with wal := fo.wal.append m.entry putOk, persisted }
        (if putOk then some true else none)) := by
  have raised : (splitAppends f).Reach (s.handling h m fo (.loaded fo.wal.lastIndex))
      [.raiseLast h] _ := Machine.Run.nil.step step_raiseLast trivial
  cases putOk with
  | true =>
    have stored := (raised.step step_store trivial).step step_persist trivial
    exact ⟨_, _, stored.step (step_answer hh) trivial⟩
  | false => exact ⟨_, _, raised.step (step_storeFails hh) trivial⟩

end Handling

/-- **A handler that nothing comes between is `handleAppend`**, with any fate of its Put. -/
theorem handler_in_one_go {s : SplitState f} {h : ℕ} {m : AppendMsg f} (hm : m ∈ s.appends)
    (hh : s.handlers h = none) (putOk : Bool) : ∃ tr fo, (splitAppends f).Reach s tr (s.handled m fo
        ((s.followers m.dest).plain.handleAppend (m.disk putOk)).1) ∧
      fo.wal = ((s.followers m.dest).plain.handleAppend (m.disk putOk)).2.wal ∧
      fo.currentTerm = ((s.followers m.dest).plain.handleAppend (m.disk putOk)).2.currentTerm := by
  generalize hfo : s.followers m.dest = fo
  have haccept := step_accept hm hh hfo
  unfold DiskFollower.handleAppend FollowerDisk.plain AppendMsg.disk
  dsimp only
  by_cases hterm : m.leaderTerm < fo.currentTerm
  · rw [if_pos hterm] at haccept ⊢
    exact ⟨_, fo, Machine.Run.nil.step haccept trivial, rfl, rfl⟩
  rw [if_neg hterm] at haccept ⊢
  have accepted : (splitAppends f).Reach s [.accept h m] _ := Machine.Run.nil.step haccept trivial
  have hdecide := step_decide (m := m) { fo with currentTerm := m.leaderTerm } hh fo.wal.lastIndex
  by_cases hle : m.logIndex ≤ fo.wal.lastIndex
  · rw [if_pos hle] at hdecide ⊢
    have decided := accepted.step hdecide trivial
    cases hst : fo.wal.stored m.logIndex with
    | none =>
      rw [hst] at decided
      exact ⟨_, _, decided, rfl, rfl⟩
    | some existing =>
      rw [hst] at decided
      dsimp only
      by_cases he : existing = m.entry
      · rw [if_neg (not_not_intro he)]
        simp only [Option.all_some, he, decide_true] at decided
        exact ⟨_, _, decided, rfl, rfl⟩
      · rw [if_pos he]
        simp only [Option.all_some, he, decide_false] at decided
        exact ⟨_, _, decided, rfl, rfl⟩
  rw [if_neg hle] at hdecide ⊢
  by_cases hgap : fo.wal.lastIndex + 1 < m.logIndex
  · rw [if_pos hgap] at hdecide ⊢
    exact ⟨_, _, accepted.step hdecide trivial, rfl, rfl⟩
  rw [if_neg hgap] at hdecide ⊢
  by_cases hprev : m.prevLogIndex ≠ fo.wal.lastIndex
  · rw [if_pos hprev] at hdecide ⊢
    exact ⟨_, _, accepted.step hdecide trivial, rfl, rfl⟩
  rw [if_neg hprev] at hdecide ⊢
  obtain ⟨tr, persisted, happend⟩ := reach_append (m := m)
    { fo with currentTerm := m.leaderTerm } hh putOk
  have done := (accepted.step hdecide trivial).trans happend
  cases putOk <;> exact ⟨_, _, done, rfl, rfl⟩

end SplitState

end NimbusVault
