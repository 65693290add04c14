import NimbusVault.Client
import NimbusVault.Lib.Machine

/-!
# StubCache — which address a client's stub is connected to

`get_or_create_stub` notes the address that comes with a node id on every call, and creates a stub
only where there is none: a node that comes back under another address is still asked at the old one.
`gets_agree_iff` says which sequences of `get` calls stay clear of this.  A `get` is the sequence of
the calls it makes (`getCalls`), so the results are about any sequence of calls.
-/

namespace NimbusVault

open Lib

namespace NimbusClient

/-- A call of `get_or_create_stub`. -/
abbrev StubCall := Str × Str

/-- A call of `get`: the leader's answer, and the answers of the nodes. -/
structure GetCall where
  info : Except Str ChunkEntry
  rpc : UInt64 → Str → Option ReadChunkResp
  minVersion : UInt64

/-! ### The calls that a `get` makes -/

def afterCalls (c : NimbusClient) (calls : List StubCall) : NimbusClient :=
  calls.foldl (fun c p => (c.getOrCreateStub p.1 p.2).2) c

def afterGets (c : NimbusClient) (gets : List GetCall) : NimbusClient :=
  gets.foldl (fun c g => (c.get g.info g.rpc g.minVersion).2) c

def passCalls (rpc : Str → Option ReadChunkResp) : NimbusClient → List Str → List StubCall
  | _, [] => []
  | c, entry :: entries =>
    parseReplicaEntry entry ::
      if (c.tryRead rpc entry).1.isSome then [] else passCalls rpc (c.tryRead rpc entry).2 entries

def attemptCalls (rpc : Str → Option ReadChunkResp) (replicas : List Str) : ℕ → NimbusClient →
    List StubCall
  | 0, _ => []
  | n + 1, c =>
    passCalls rpc c replicas ++
      if (c.readPass rpc replicas).1.isSome then []
      else attemptCalls rpc replicas n (c.readPass rpc replicas).2

/-- One call for every replica entry that the `get` tries. -/
def getCalls (c : NimbusClient) (g : GetCall) : List StubCall :=
  match g.info with
  | .error _ => []
  | .ok e =>
    let target := if g.minVersion = 0 then e.version else g.minVersion
    attemptCalls (g.rpc target) (buildReplicaTryList e) attempts c

def getsCalls : NimbusClient → List GetCall → List StubCall
  | _, [] => []
  | c, g :: gets => c.getCalls g ++ getsCalls (c.get g.info g.rpc g.minVersion).2 gets

variable {c : NimbusClient} {rpc : Str → Option ReadChunkResp} {entries : List Str}

theorem readPass_client : (c.readPass rpc entries).2 = c.afterCalls (passCalls rpc c entries) := by
  induction entries generalizing c with
  | nil => rfl
  | cons entry entries ih =>
    have hread : (c.tryRead rpc entry).2 = c.afterCalls [parseReplicaEntry entry] := tryRead_client rpc
    unfold readPass passCalls
    cases hr : c.tryRead rpc entry with
    | mk found c' =>
      rw [hr] at hread
      cases found with
      | some r => exact hread
      | none =>
        simp only [Option.isSome_none, Bool.false_eq_true, if_false]
        rw [ih, show c' = _ from hread]
        rfl

theorem readAttempts_client (n : ℕ) :
    (c.readAttempts rpc entries n).2 = c.afterCalls (attemptCalls rpc entries n c) := by
  induction n generalizing c with
  | zero => rfl
  | succ n ih =>
    have hpass : (c.readPass rpc entries).2 = c.afterCalls (passCalls rpc c entries) := readPass_client
    unfold readAttempts attemptCalls
    rw [afterCalls, List.foldl_append]
    cases hr : c.readPass rpc entries with
    | mk found c' =>
      rw [hr] at hpass
      cases found with
      | some r => exact hpass
      | none =>
        simp only [Option.isSome_none, Bool.false_eq_true, if_false]
        rw [ih, show c' = _ from hpass]
        rfl

/-- A `get` changes the client through these calls only. -/
theorem get_client (g : GetCall) :
    (c.get g.info g.rpc g.minVersion).2 = c.afterCalls (c.getCalls g) := by
  unfold get getCalls
  cases g.info with
  | error error => rfl
  | ok e =>
    dsimp only
    rw [← readAttempts_client]
    cases c.readAttempts (g.rpc (if g.minVersion = 0 then e.version else g.minVersion))
      (buildReplicaTryList e) attempts with
    | mk found c' => cases found <;> rfl

theorem afterGets_eq (gets : List GetCall) : c.afterGets gets = c.afterCalls (c.getsCalls gets) := by
  induction gets generalizing c with
  | nil => rfl
  | cons g gets ih =>
    show afterGets (c.get g.info g.rpc g.minVersion).2 gets =
      c.afterCalls (c.getCalls g ++ getsCalls (c.get g.info g.rpc g.minVersion).2 gets)
    rw [ih, get_client, afterCalls, afterCalls, afterCalls, List.foldl_append]

/-! ### Agreement of the two maps -/

/-- Every cached stub is connected to the address noted for its node. -/
def Agrees (c : NimbusClient) : Prop :=
  ∀ nodeId target, c.storageStubs.get nodeId = some target → c.nodeAddrs.get nodeId = some target

/-- The address of the call, if it brings one, is that of the node's cached stub, if there is one. -/
def Fits (c : NimbusClient) (p : StubCall) : Prop :=
  p.2 = [] ∨ ∀ target, c.storageStubs.get p.1 = some target → target = p.2

variable {p : StubCall}

/-- A call that brings an address uses a stub that is connected to it, exactly when it fits. -/
theorem getOrCreateStub_eq_iff (ha : p.2 ≠ []) :
    (c.getOrCreateStub p.1 p.2).1 = some p.2 ↔ c.Fits p := by
  unfold getOrCreateStub Fits
  simp only [if_neg ha, Kv.get_put_self, or_iff_right ha]
  cases c.storageStubs.get p.1 with
  | none => simp
  | some target => simp

/-- **One call** keeps the two maps in agreement exactly when it fits. -/
theorem agrees_call (h : c.Agrees) : (c.getOrCreateStub p.1 p.2).2.Agrees ↔ c.Fits p := by
  by_cases ha : p.2 = []
  · refine iff_of_true ?_ (.inl ha)
    unfold getOrCreateStub
    simp only [if_pos ha]
    cases hr : c.nodeAddrs.get p.1 with
    | none => exact h
    | some resolved =>
      cases hs : c.storageStubs.get p.1 with
      | some target => exact h
      | none => exact Kv.forall_put h hr
  · have hnoted : (c.nodeAddrs.put p.1 p.2).get p.1 = some p.2 := Kv.get_put_self
    have hother : ∀ n, n ≠ p.1 → (c.nodeAddrs.put p.1 p.2).get n = c.nodeAddrs.get n :=
      fun n hn => Kv.get_put_of_ne hn
    unfold getOrCreateStub Fits
    simp only [if_neg ha, hnoted, or_iff_right ha]
    cases hs : c.storageStubs.get p.1 with
    | none =>
      refine iff_of_true (Kv.forall_put (fun n target hn => ?_) hnoted) (fun _ h => by simp at h)
      have hne : n ≠ p.1 := fun he => by simp [he, hs] at hn
      exact (hother n hne).trans (h n target hn)
    | some target =>
      constructor
      · intro hall target' ht
        exact Option.some.inj ((hall p.1 target' (hs.trans ht)).symm.trans hnoted)
      · intro hfit n target' hn
        by_cases he : n = p.1
        · subst he
          exact hnoted.trans (congrArg some (hfit target' (hs.symm.trans hn)).symm)
        · exact (hother n he).trans (h n target' hn)

/-- The calls of a client, one after the other. -/
def stubCalls : Machine NimbusClient StubCall where
  guard _ _ := True
  next c p := (c.getOrCreateStub p.1 p.2).2

theorem stubCalls_reach (c : NimbusClient) (calls : List StubCall) :
    stubCalls.Reach c calls (c.afterCalls calls) := by
  induction calls using List.reverseRec with
  | nil => exact .nil
  | append_singleton calls p ih =>
    have hlast : c.afterCalls (calls ++ [p]) = stubCalls.next (c.afterCalls calls) p := by
      rw [afterCalls, List.foldl_append]
      rfl
    exact hlast ▸ ih.snoc trivial trivial

/-- The constructor. -/
def ofAddrs (nodeAddrs : Kv Str Str) : NimbusClient := { nodeAddrs }

theorem ofAddrs_agrees (addrs : Kv Str Str) : (ofAddrs addrs).Agrees :=
  fun _ _ h => by simp [ofAddrs] at h

/-- The maps agree after every call exactly when all calls fit. -/
theorem calls_agree_iff (addrs : Kv Str Str) (calls : List StubCall) :
    (∀ pre, pre <+: calls → ((ofAddrs addrs).afterCalls pre).Agrees) ↔
      stubCalls.Run Fits (ofAddrs addrs) calls ((ofAddrs addrs).afterCalls calls) := by
  have hreach := stubCalls_reach (ofAddrs addrs)
  rw [← (hreach calls).always_iff (ofAddrs_agrees addrs) fun _ _ h _ => agrees_call h]
  constructor
  · intro hall pre t hpre ht
    exact (hreach pre).state_eq ht ▸ hall pre hpre
  · exact fun hall pre hpre => hall pre _ hpre (hreach pre)

/-- Every call that brings an address uses a stub for it exactly when all calls fit. -/
theorem calls_connected_iff (addrs : Kv Str Str) (calls : List StubCall) :
    (∀ pre p, pre ++ [p] <+: calls → p.2 ≠ [] →
      (((ofAddrs addrs).afterCalls pre).getOrCreateStub p.1 p.2).1 = some p.2) ↔
      stubCalls.Run Fits (ofAddrs addrs) calls ((ofAddrs addrs).afterCalls calls) := by
  have hreach := stubCalls_reach (ofAddrs addrs)
  rw [(hreach calls).iff_forall_step]
  constructor
  · intro hall pre p t hpre ht
    obtain rfl := (hreach pre).state_eq ht
    by_cases ha : p.2 = []
    · exact .inl ha
    · exact (getOrCreateStub_eq_iff ha).mp (hall pre p hpre ha)
  · exact fun hall pre p hpre ha => (getOrCreateStub_eq_iff ha).mpr (hall pre p _ hpre (hreach pre))

/-- **When the reads of a client use the stubs that they ask for.** -/
theorem gets_agree_iff (addrs : Kv Str Str) (gets : List GetCall) :
    ((∀ pre, pre <+: (ofAddrs addrs).getsCalls gets → ((ofAddrs addrs).afterCalls pre).Agrees) ↔
      stubCalls.Run Fits (ofAddrs addrs) ((ofAddrs addrs).getsCalls gets)
        ((ofAddrs addrs).afterGets gets)) ∧
    ((∀ pre p, pre ++ [p] <+: (ofAddrs addrs).getsCalls gets → p.2 ≠ [] →
      (((ofAddrs addrs).afterCalls pre).getOrCreateStub p.1 p.2).1 = some p.2) ↔
      stubCalls.Run Fits (ofAddrs addrs) ((ofAddrs addrs).getsCalls gets)
        ((ofAddrs addrs).afterGets gets)) := by
  rw [afterGets_eq]
  exact ⟨calls_agree_iff addrs _, calls_connected_iff addrs _⟩

/-- Two reads of a chunk on the node `n`, which is listed as `n=a` first and as `n=b` later. -/
def movedNode : List GetCall :=
  ["n=a".toList, "n=b".toList].map fun entry =>
    { info := .ok ⟨['c'], 1, [entry], 1, .stable, [], 1⟩
      rpc := fun _ _ => some { ok := true, data := ['d'], version := 1 }
      minVersion := 0 }

theorem moved_node_disagrees : ¬ ∀ (addrs : Kv Str Str) (gets : List GetCall),
    ((ofAddrs addrs).afterGets gets).Agrees := by
  intro h
  have hstub : ((ofAddrs Kv.empty).afterGets movedNode).storageStubs.get ['n'] = some ['a'] := rfl
  have haddr : ((ofAddrs Kv.empty).afterGets movedNode).nodeAddrs.get ['n'] = some ['b'] := rfl
  have hagree := h Kv.empty movedNode ['n'] ['a'] hstub
  rw [haddr] at hagree
  simp at hagree

end NimbusClient

end NimbusVault
