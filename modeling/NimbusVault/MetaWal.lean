import NimbusVault.Lib.Machine
import NimbusVault.Payload

/-!
# MetaWal — the log at its database, call by call and write by write

`MetaWal::append` and `MetaWal::commit` each issue a synchronous write (the entry, the marker of the
index) and then a write with default options (the counter `meta/last_index`, or `meta/committed`
when it rises).  `WalRun` is the state of a process that makes such calls one after the other: the
writes issued so far, how many of them a crash cannot lose, and the call under way.  `opened` reads
the two counters back.  `appended` and `commits` are ghosts, the indices for which a call has
returned; `lastIndexAt` and `committedAt` count the writes issued up to the last counter write of a
call that has returned.
-/

namespace NimbusVault

open Lib Lib.Text

/-! ### Keys and values -/

def walKey (idx : UInt64) : Str := ['w', 'a', 'l', '/'] ++ beBytes 8 idx.toNat

def cmtKey (idx : UInt64) : Str := ['c', 'm', 't', '/'] ++ beBytes 8 idx.toNat

def lastIndexKey : Str := ['m', 'e', 't', 'a', '/', 'l', 'a', 's', 't', '_', 'i', 'n', 'd', 'e', 'x']

def committedKey : Str := ['m', 'e', 't', 'a', '/', 'c', 'o', 'm', 'm', 'i', 't', 't', 'e', 'd']

def WalEntryType.code : WalEntryType → ℕ
  | .putChunk => 0
  | .deleteChunk => 1
  | .reconfigureStart => 2
  | .reconfigureCommit => 3
  | .nodeHeartbeat => 4
  | .policyUpdate => 5

/-- The type, the term, the length of the payload in four bytes, and that much of the payload. -/
def encodeEntry (e : WalEntry) : Str :=
  let plen := e.payload.length % 2 ^ 32
  [Char.ofNat e.type.code] ++ beBytes 8 e.term ++ beBytes 4 plen ++ e.payload.take plen

def encodeCounter (n : UInt64) : Str := beBytes 8 n.toNat

/-- A counter as it is found in the database, zero when it is not there. -/
def readCounter (db : Kv Str Str) (key : Str) : UInt64 :=
  (db.get key).elim 0 fun v => UInt64.ofNat (beNat (v.take 8))

theorem readCounter_encode {db : Kv Str Str} {key : Str} {n : UInt64}
    (h : db.get key = some (encodeCounter n)) : readCounter db key = n := by
  have htake : (encodeCounter n).take 8 = encodeCounter n :=
    List.take_of_length_le (length_beBytes 8 n.toNat).le
  rw [readCounter, h, Option.elim_some, htake, encodeCounter, beNat_beBytes,
    Nat.mod_eq_of_lt (n.toNat_lt.trans_eq (by decide)), UInt64.ofNat_toNat]

/-! ### The process -/

structure DbWrite where
  key : Str
  value : Str
  sync : Bool
  deriving DecidableEq

def putAll (db : Kv Str Str) (ws : List DbWrite) : Kv Str Str :=
  ws.foldl (fun db w => db.put w.key w.value) db

/-- The call under way: its index, and whether its first write is out, has returned, or the counter
write has been issued. -/
inductive WalPhase
  | putting
  | put
  | persisted
  deriving DecidableEq

inductive WalCall
  | append (idx : UInt64) (phase : WalPhase)
  | commit (idx : UInt64) (phase : WalPhase)
  deriving DecidableEq

structure WalRun where
  base : Kv Str Str
  lastIndex : UInt64
  committed : UInt64
  issued : List DbWrite := []
  durable : ℕ := 0
  call : Option WalCall := none
  appended : List UInt64 := []
  commits : List UInt64 := []
  lastIndexAt : ℕ := 0
  committedAt : ℕ := 0

inductive WalStep
  | append (e : WalEntry)
  | commit (idx : UInt64)
  | synced
  | persist
  | ret

namespace WalRun

/-- The log opened on a database. -/
def opened (db : Kv Str Str) : WalRun :=
  { base := db, lastIndex := readCounter db lastIndexKey, committed := readCounter db committedKey }

def issue (s : WalRun) (w : DbWrite) : WalRun := { s with issued := s.issued ++ [w] }

/-- The first write of `append`. -/
def putEntry (s : WalRun) (e : WalEntry) : WalRun :=
  let idx := s.lastIndex + 1
  { s.issue ⟨walKey idx, encodeEntry e, true⟩ with
    lastIndex := idx, call := some (.append idx .putting) }

/-- The first write of `commit`. -/
def putMarker (s : WalRun) (idx : UInt64) : WalRun :=
  { s.issue ⟨cmtKey idx, ['1'], true⟩ with call := some (.commit idx .putting) }

def persistLastIndex (s : WalRun) (idx : UInt64) : WalRun :=
  { s.issue ⟨lastIndexKey, encodeCounter s.lastIndex, false⟩ with
    call := some (.append idx .persisted) }

def persistCommitted (s : WalRun) (idx : UInt64) : WalRun :=
  { s.issue ⟨committedKey, encodeCounter idx, false⟩ with
    committed := idx, call := some (.commit idx .persisted) }

def step (s : WalRun) : WalStep → Option WalRun
  | .append e =>
    match s.call with
    | none => some (s.putEntry e)
    | some _ => none
  | .commit idx =>
    match s.call with
    | none => some (s.putMarker idx)
    | some _ => none
  | .synced =>
    match s.call with
    | some (.append idx .putting) =>
      some { s with durable := s.issued.length, call := some (.append idx .put) }
    | some (.commit idx .putting) =>
      some { s with durable := s.issued.length, call := some (.commit idx .put) }
    | _ => none
  | .persist =>
    match s.call with
    | some (.append idx .put) => some (s.persistLastIndex idx)
    | some (.commit idx .put) => if s.committed < idx then some (s.persistCommitted idx) else none
    | _ => none
  | .ret =>
    match s.call with
    | some (.append idx .persisted) =>
      some { s with appended := idx :: s.appended, lastIndexAt := s.issued.length, call := none }
    | some (.commit idx .persisted) =>
      some { s with commits := idx :: s.commits, committedAt := s.issued.length, call := none }
    | some (.commit idx .put) =>
      if s.committed < idx then none else some { s with commits := idx :: s.commits, call := none }
    | _ => none

/-- The step function as a relation. -/
inductive Fires (s : WalRun) : WalStep → WalRun → Prop
  | append (e : WalEntry) : s.call = none → Fires s (.append e) (s.putEntry e)
  | commit (idx : UInt64) : s.call = none → Fires s (.commit idx) (s.putMarker idx)
  | appendSynced {idx : UInt64} : s.call = some (.append idx .putting) → Fires s .synced
      { s with durable := s.issued.length, call := some (.append idx .put) }
  | commitSynced {idx : UInt64} : s.call = some (.commit idx .putting) → Fires s .synced
      { s with durable := s.issued.length, call := some (.commit idx .put) }
  | appendPersist {idx : UInt64} : s.call = some (.append idx .put) →
      Fires s .persist (s.persistLastIndex idx)
  | commitPersist {idx : UInt64} : s.call = some (.commit idx .put) → s.committed < idx →
      Fires s .persist (s.persistCommitted idx)
  | appendRet {idx : UInt64} : s.call = some (.append idx .persisted) → Fires s .ret
      { s with appended := idx :: s.appended, lastIndexAt := s.issued.length, call := none }
  | commitRet {idx : UInt64} : s.call = some (.commit idx .persisted) → Fires s .ret
      { s with commits := idx :: s.commits, committedAt := s.issued.length, call := none }
  | commitRetOld {idx : UInt64} : s.call = some (.commit idx .put) → ¬ s.committed < idx →
      Fires s .ret { s with commits := idx :: s.commits, call := none }

/-- **The step function does nothing else.** -/
theorem step_fires {s s' : WalRun} {l : WalStep} (h : s.step l = some s') : s.Fires l s' := by
  cases l with
  | append e =>
    simp only [step] at h
    split at h
    · rename_i hc
      obtain rfl := Option.some.inj h
      exact .append e hc
    · simp at h
  | commit idx =>
    simp only [step] at h
    split at h
    · rename_i hc
      obtain rfl := Option.some.inj h
      exact .commit idx hc
    · simp at h
  | synced =>
    simp only [step] at h
    split at h
    · rename_i hc
      obtain rfl := Option.some.inj h
      exact .appendSynced hc
    · rename_i hc
      obtain rfl := Option.some.inj h
      exact .commitSynced hc
    · simp at h
  | persist =>
    simp only [step] at h
    split at h
    · rename_i hc
      obtain rfl := Option.some.inj h
      exact .appendPersist hc
    · rename_i hc
      split_ifs at h with hlt
      obtain rfl := Option.some.inj h
      exact .commitPersist hc hlt
    · simp at h
  | ret =>
    simp only [step] at h
    split at h
    · rename_i hc
      obtain rfl := Option.some.inj h
      exact .appendRet hc
    · rename_i hc
      obtain rfl := Option.some.inj h
      exact .commitRet hc
    · rename_i hc
      split_ifs at h with hlt
      obtain rfl := Option.some.inj h
      exact .commitRetOld hc hlt
    · simp at h

/-- The database that a crash leaves when it keeps `k` writes. -/
def kept (s : WalRun) (k : ℕ) : Kv Str Str := putAll s.base (s.issued.take k)

/-- A crash keeps a prefix of the writes issued, with every synchronous write that has returned. -/
def Crash (s : WalRun) (k : ℕ) : Prop := s.durable ≤ k ∧ k ≤ s.issued.length

instance (s : WalRun) (k : ℕ) : Decidable (s.Crash k) := inferInstanceAs (Decidable (_ ∧ _))

/-- The log reopened after a crash covers every index for which a call had returned. -/
def Covers (s : WalRun) (k : ℕ) : Prop :=
  (∀ i ∈ s.appended, i ≤ (opened (s.kept k)).lastIndex) ∧
    ∀ i ∈ s.commits, i ≤ (opened (s.kept k)).committed

end WalRun

/-- Calls of `append` and `commit`, one after the other, on the log at a database. -/
abbrev metaWal : Machine WalRun WalStep := .ofStep WalRun.step

end NimbusVault
