import NimbusVault.Lib.Fold
import NimbusVault.Payload

/-!
# TableOp — what a log entry means for the chunk table

An abstract reading of log entries: `decodeEntry` says which operation on which chunk an entry is,
if any, and `applyWalEntry_eq` that applying the entry is performing the operation.  A PUT or DELETE
assigns the chunk's entry as a whole, a START or COMMIT the same fields of it each
(`TableOp.assigns`).
-/

namespace NimbusVault

open Lib Lib.Text

/-- An operation on one chunk of the table. -/
inductive TableOp
  | put (chunkId : Str) (sizeBytes : UInt64) (desiredRf : Int32) (replicaSet : List Str)
      (version : UInt64)
  | delete (chunkId : Str)
  | start (chunkId : Str) (oldSet newSet : List Str)
  | commit (chunkId : Str) (newSet : List Str)
  deriving DecidableEq

namespace TableOp

def chunkId : TableOp → Str
  | put c _ _ _ _ => c
  | delete c => c
  | start c _ _ => c
  | commit c _ => c

/-- The effect on the chunk's own entry. -/
def act : TableOp → Option ChunkEntry → Option ChunkEntry
  | put c size rf rs v, _ => some ⟨c, v, rs, rf, .stable, [], size⟩
  | delete _, _ => none
  | start _ old new, e => e.map (ChunkTable.startEntry old new)
  | commit _ new, e => e.map (ChunkTable.commitEntry new)

def apply (op : TableOp) (t : ChunkTable) : ChunkTable := t.alter op.chunkId op.act

/-- Assigns every field, whatever was there. -/
def isAbsolute : TableOp → Bool
  | put .. => true
  | delete _ => true
  | start .. => false
  | commit .. => false

/-- On one chunk, only the last writes matter. -/
theorem assigns : Assigns act isAbsolute where
  absolute op e e' h := by
    cases op with
    | put => rfl
    | delete => rfl
    | start => simp [isAbsolute] at h
    | commit => simp [isAbsolute] at h
  relative op op' e h h' := by
    cases op with
    | put => simp [isAbsolute] at h
    | delete => simp [isAbsolute] at h
    | start =>
      cases op' with
      | put => simp [isAbsolute] at h'
      | delete => simp [isAbsolute] at h'
      | start => cases e <;> rfl
      | commit => cases e <;> rfl
    | commit =>
      cases op' with
      | put => simp [isAbsolute] at h'
      | delete => simp [isAbsolute] at h'
      | start => cases e <;> rfl
      | commit => cases e <;> rfl

section

variable {op : TableOp} {e : Option ChunkEntry}

theorem act_eq_none_of_relative (h : op.isAbsolute = false) : op.act e = none ↔ e = none := by
  cases op with
  | put => simp [isAbsolute] at h
  | delete => simp [isAbsolute] at h
  | start => exact Option.map_eq_none_iff
  | commit => exact Option.map_eq_none_iff

theorem act_eq_none_of_absolute (h : op.isAbsolute = true) :
    op.act e = none ↔ op = .delete op.chunkId := by
  cases op with
  | put => simp [act]
  | delete => simp [act, chunkId]
  | start => simp [isAbsolute] at h
  | commit => simp [isAbsolute] at h

end

/-- An operation stores every entry under its own id. -/
theorem keyed_apply {t : ChunkTable} (h : t.Keyed) (op : TableOp) : (op.apply t).Keyed := by
  intro c e he
  rw [TableOp.apply, Kv.get_alter] at he
  split_ifs at he with hc
  · subst hc
    cases op with
    | put => exact (congrArg ChunkEntry.chunkId (Option.some.inj he)).symm
    | delete => simp [TableOp.act] at he
    | start =>
      obtain ⟨e', he', rfl⟩ := Option.map_eq_some_iff.mp he
      show e'.chunkId = _
      exact h _ e' he'
    | commit =>
      obtain ⟨e', he', rfl⟩ := Option.map_eq_some_iff.mp he
      show e'.chunkId = _
      exact h _ e' he'
  · exact h c e he

end TableOp

/-- The operation an entry stands for: `none` when the number parsers throw, `some none` when the
entry does not concern the chunk table or is malformed and ignored. -/
def decodeEntry (e : WalEntry) : Option (Option TableOp) :=
  match e.type with
  | .putChunk =>
    match splitNonempty e.payload '|' with
    | p0 :: p1 :: p2 :: p3 :: p4 :: _ => do
      let sizeBytes ← stoull p1
      let desiredRf ← stoi p2
      let version ← stoull p3
      some (some (.put p0 sizeBytes desiredRf (splitNonempty p4 ',') version))
    | _ => some none
  | .deleteChunk => some (some (.delete e.payload))
  | .reconfigureStart =>
    match splitNonempty e.payload '|' with
    | p0 :: p1 :: p2 :: _ => some (some (.start p0 (splitNonempty p1 ',') (splitNonempty p2 ',')))
    | _ => some none
  | .reconfigureCommit =>
    match splitNonempty e.payload '|' with
    | p0 :: p1 :: _ => some (some (.commit p0 (splitNonempty p1 ',')))
    | _ => some none
  | .nodeHeartbeat => some none
  | .policyUpdate => some none

/-- **The abstract reading is what `applyWalEntry` does.** -/
theorem applyWalEntry_eq (t : ChunkTable) (e : WalEntry) :
    applyWalEntry t e = (decodeEntry e).map fun op => op.elim t (·.apply t) := by
  obtain ⟨ty, term, payload⟩ := e
  cases ty with
  | putChunk =>
    simp only [applyWalEntry, decodeEntry]
    rcases splitNonempty payload '|' with _ | ⟨p0, _ | ⟨p1, _ | ⟨p2, _ | ⟨p3, _ | ⟨p4, ps⟩⟩⟩⟩⟩ <;>
      try rfl
    dsimp only
    cases stoull p1 <;> [rfl; skip]
    cases stoi p2 <;> [rfl; skip]
    cases stoull p3 <;> rfl
  | deleteChunk => rfl
  | reconfigureStart =>
    simp only [applyWalEntry, decodeEntry]
    rcases splitNonempty payload '|' with _ | ⟨p0, _ | ⟨p1, _ | ⟨p2, ps⟩⟩⟩ <;> rfl
  | reconfigureCommit =>
    simp only [applyWalEntry, decodeEntry]
    rcases splitNonempty payload '|' with _ | ⟨p0, _ | ⟨p1, ps⟩⟩ <;> rfl
  | nodeHeartbeat => rfl
  | policyUpdate => rfl

/-- **What an entry is read as**: a deletion of its payload, or another operation whose id and lists
are parts of the payload. -/
theorem decodeEntry_cases {e : WalEntry} {op : TableOp} (h : decodeEntry e = some (some op)) :
    e.type = .deleteChunk ∧ op = .delete e.payload ∨
      ∃ id parts, splitNonempty e.payload '|' = id :: parts ∧
        ((∃ size rf v, ∃ p ∈ parts, op = .put id size rf (splitNonempty p ',') v) ∨
          (∃ p ∈ parts, ∃ q ∈ parts, op = .start id (splitNonempty p ',') (splitNonempty q ',')) ∨
          ∃ p ∈ parts, op = .commit id (splitNonempty p ',')) := by
  unfold decodeEntry at h
  split at h
  · split at h
    · rename_i hp
      simp only [Option.bind_eq_bind, Option.bind_eq_some_iff, Option.some.injEq] at h
      obtain ⟨size, -, rf, -, v, -, rfl⟩ := h
      exact .inr ⟨_, _, hp, .inl ⟨size, rf, v, _, by simp, rfl⟩⟩
    · simp at h
  · rename_i hty
    exact .inl ⟨hty, (Option.some.inj (Option.some.inj h)).symm⟩
  · split at h
    · rename_i hp
      obtain rfl := Option.some.inj (Option.some.inj h)
      exact .inr ⟨_, _, hp, .inr (.inl ⟨_, by simp, _, by simp, rfl⟩)⟩
    · simp at h
  · split at h
    · rename_i hp
      obtain rfl := Option.some.inj (Option.some.inj h)
      exact .inr ⟨_, _, hp, .inr (.inr ⟨_, by simp, rfl⟩)⟩
    · simp at h
  · simp at h
  · simp at h

/-- Only a deletion can name a chunk id that is empty or holds the field separator. -/
theorem decodeEntry_chunkId {e : WalEntry} {op : TableOp} (h : decodeEntry e = some (some op))
    (hty : e.type ≠ .deleteChunk) : op.chunkId ≠ [] ∧ '|' ∉ op.chunkId := by
  rcases decodeEntry_cases h with ⟨hd, -⟩ | ⟨id, parts, hp, hop⟩
  · exact absurd hd hty
  · have hid : op.chunkId = id := by
      rcases hop with ⟨_, _, _, _, -, rfl⟩ | ⟨_, -, _, -, rfl⟩ | ⟨_, -, rfl⟩ <;> rfl
    rw [hid]
    exact splitNonempty_mem (hp ▸ List.mem_cons_self)

/-- Every replica set that an operation writes holds fields. -/
def TableOp.Fields : TableOp → Prop
  | .put _ _ _ rs _ => ∀ x ∈ rs, IsField x
  | .delete _ => True
  | .start _ _ new => ∀ x ∈ new, IsField x
  | .commit _ new => ∀ x ∈ new, IsField x

theorem decodeEntry_fields {e : WalEntry} {op : TableOp} (h : decodeEntry e = some (some op)) :
    op.Fields := by
  rcases decodeEntry_cases h with ⟨-, rfl⟩ | ⟨id, parts, hp, hop⟩
  · trivial
  · have hfield : ∀ p ∈ parts, ∀ x ∈ splitNonempty p ',', IsField x := fun p hmem x hx =>
      isField_of_split e.payload (hp ▸ List.mem_cons_of_mem _ hmem) hx
    rcases hop with ⟨_, _, _, p, hmem, rfl⟩ | ⟨_, -, p, hmem, rfl⟩ | ⟨p, hmem, rfl⟩
    · exact hfield p hmem
    · exact hfield p hmem
    · exact hfield p hmem

/-- Every replica set of the table holds fields. -/
def ChunkTable.Fields (t : ChunkTable) : Prop :=
  ∀ c e, t.get c = some e → ∀ x ∈ e.replicaSet, IsField x

theorem TableOp.fields_apply {t : ChunkTable} {op : TableOp} (hop : op.Fields) (h : t.Fields) :
    (op.apply t).Fields := by
  intro c e he
  rw [TableOp.apply, Kv.get_alter] at he
  split_ifs at he with hc
  · subst hc
    cases op with
    | put =>
      obtain rfl := Option.some.inj he
      exact hop
    | delete => simp [TableOp.act] at he
    | start =>
      obtain ⟨e', -, rfl⟩ := Option.map_eq_some_iff.mp he
      exact hop
    | commit =>
      obtain ⟨e', -, rfl⟩ := Option.map_eq_some_iff.mp he
      exact hop
  · exact h c e he

/-- A chunk id that the payload format cannot write is out of reach of every other entry type. -/
theorem applyWalEntry_get {t t' : ChunkTable} {e : WalEntry} {c : Str}
    (h : applyWalEntry t e = some t') (hty : e.type ≠ .deleteChunk) (hc : c = [] ∨ '|' ∈ c) :
    t'.get c = t.get c := by
  rw [applyWalEntry_eq] at h
  obtain ⟨op, hop, ht⟩ := Option.map_eq_some_iff.mp h
  cases op with
  | none => subst ht; rfl
  | some op =>
    have hid := decodeEntry_chunkId hop hty
    subst ht
    refine Kv.get_alter_of_ne ?_
    rintro rfl
    rcases hc with hc | hc
    · exact hid.1 hc
    · exact hid.2 hc

end NimbusVault
