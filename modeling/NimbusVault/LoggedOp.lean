import NimbusVault.TableOp

/-!
# LoggedOp — which operations the log can carry

`TableOp.logged` is the entry that a handler writes for an operation: `PutChunk`, `DeleteChunk`, and
the reconfiguration driver for START and COMMIT.  The payloads are not escaped, so that an operation
whose names hold a separator, or one of whose lists is empty, is applied as another one, not at all,
or with an exception.  It is applied as it was meant exactly when it is `Plain`
(`applies_logged_iff`).
-/

namespace NimbusVault

open Lib Lib.Text

namespace TableOp

/-- The entry written for an operation. -/
def logged (term : ℕ) : TableOp → WalEntry
  | put c size rf rs v => ⟨.putChunk, term, encodePutChunk c size rf v rs⟩
  | delete c => ⟨.deleteChunk, term, c⟩
  | start c old new => ⟨.reconfigureStart, term, encodeReconfigStart c old new⟩
  | commit c new => ⟨.reconfigureCommit, term, encodeReconfigCommit c new⟩

/-- A list that a payload can carry. -/
def PlainSet (set : List Str) : Prop := set ≠ [] ∧ ∀ x ∈ set, IsField x

instance (set : List Str) : Decidable (PlainSet set) := inferInstanceAs (Decidable (_ ∧ _))

/-- A chunk id that a payload can carry. -/
def PlainId (c : Str) : Prop := c ≠ [] ∧ '|' ∉ c

instance (c : Str) : Decidable (PlainId c) := inferInstanceAs (Decidable (_ ∧ _))

def Plain : TableOp → Prop
  | put c _ _ rs _ => PlainId c ∧ PlainSet rs
  | delete _ => True
  | start c old new => PlainId c ∧ PlainSet old ∧ PlainSet new
  | commit c new => PlainId c ∧ PlainSet new

/-- The replica lists are as they should be, whatever the chunk id. -/
def PlainSets : TableOp → Prop
  | put _ _ _ rs _ => PlainSet rs
  | delete _ => True
  | start _ old new => PlainSet old ∧ PlainSet new
  | commit _ new => PlainSet new

end TableOp

section Decode

variable {c : Str} {size ver : UInt64} {rf : Int32} {old new rs : List Str} {op op' : TableOp}
  {term : ℕ}

/-- What a plain list leaves in a payload: itself, or nothing when it is empty. -/
theorem splitNonempty_encodeSet_bar {set : List Str} (h : ∀ x ∈ set, IsField x) :
    splitNonempty (encodeSet set) '|' = if set = [] then [] else [encodeSet set] := by
  split_ifs with hs
  · rw [hs]
    rfl
  · exact splitNonempty_last (encodeSet_bar fun x hx => (h x hx).2.1) (encodeSet_ne_nil hs)

theorem splitNonempty_encodeSet_comma {set : List Str} (h : ∀ x ∈ set, IsField x) :
    splitNonempty (encodeSet set) ',' = set :=
  splitNonempty_flatMap fun x hx => ⟨(h x hx).1, (h x hx).2.2⟩

/-- The parts of a start payload. -/
theorem splitNonempty_encodeReconfigStart (hc : TableOp.PlainId c) (ho : ∀ x ∈ old, IsField x) :
    splitNonempty (encodeReconfigStart c old new) '|' =
      c :: ((if old = [] then [] else [encodeSet old]) ++ splitNonempty (encodeSet new) '|') := by
  rw [encodeReconfigStart, splitNonempty_field hc.2 hc.1,
    splitNonempty_cons (encodeSet_bar fun x hx => (ho x hx).2.1)]
  by_cases h : old = []
  · subst h
    rfl
  · rw [if_neg h, if_neg (encodeSet_ne_nil h)]

theorem decodeEntry_put (hc : TableOp.PlainId c) (hrs : ∀ x ∈ rs, IsField x) :
    decodeEntry ((TableOp.put c size rf rs ver).logged term) =
      some (if rs = [] then none else some (.put c size rf rs ver)) := by
  simp only [TableOp.logged, decodeEntry, splitNonempty_encodePutChunk hc.1 hc.2,
    splitNonempty_encodeSet_bar hrs]
  split_ifs with h
  · rfl
  · simp [splitNonempty_encodeSet_comma hrs]

theorem decodeEntry_start (hc : TableOp.PlainId c) (ho : ∀ x ∈ old, IsField x)
    (hn : ∀ x ∈ new, IsField x) : decodeEntry ((TableOp.start c old new).logged term) =
      some (if old = [] ∨ new = [] then none else some (.start c old new)) := by
  simp only [TableOp.logged, decodeEntry, splitNonempty_encodeReconfigStart hc ho,
    splitNonempty_encodeSet_bar hn]
  by_cases h1 : old = []
  · by_cases h2 : new = [] <;> simp [h1, h2]
  · by_cases h2 : new = []
    · simp [h1, h2]
    · simp [h1, h2, splitNonempty_encodeSet_comma ho, splitNonempty_encodeSet_comma hn]

theorem decodeEntry_commit (hc : TableOp.PlainId c) (hn : ∀ x ∈ new, IsField x) :
    decodeEntry ((TableOp.commit c new).logged term) =
      some (if new = [] then none else some (.commit c new)) := by
  have hsplit : splitNonempty (encodeReconfigCommit c new) '|' =
      c :: splitNonempty (encodeSet new) '|' := by
    rw [encodeReconfigCommit, splitNonempty_field hc.2 hc.1]
  simp only [TableOp.logged, decodeEntry, hsplit, splitNonempty_encodeSet_bar hn]
  split_ifs with h
  · rfl
  · simp [splitNonempty_encodeSet_comma hn]

/-- The old list of a start that was decoded holds fields too. -/
theorem decodeEntry_start_old {e : WalEntry} (h : decodeEntry e = some (some (.start c old new))) :
    ∀ x ∈ old, IsField x := by
  rcases decodeEntry_cases h with ⟨-, hop⟩ | ⟨id, parts, hp, hop⟩
  · simp at hop
  · rcases hop with ⟨_, _, _, _, -, hop⟩ | ⟨p, hmem, q, -, hop⟩ | ⟨_, -, hop⟩
    · simp at hop
    · obtain ⟨-, rfl, -⟩ := TableOp.start.inj hop
      exact fun x hx => isField_of_split e.payload (hp ▸ List.mem_cons_of_mem _ hmem) hx
    · simp at hop

/-- **What is decoded as it was written** is plain. -/
theorem decodeEntry_logged_iff : decodeEntry (op.logged term) = some (some op) ↔ op.Plain := by
  cases op with
  | put c size rf rs ver =>
    constructor
    · intro h
      have hc : TableOp.PlainId c := decodeEntry_chunkId h (by simp [TableOp.logged])
      have hrs : ∀ x ∈ rs, IsField x := decodeEntry_fields h
      refine ⟨hc, fun hnil => ?_, hrs⟩
      rw [decodeEntry_put hc hrs, if_pos hnil] at h
      simp at h
    · rintro ⟨hc, hne, hrs⟩
      rw [decodeEntry_put hc hrs, if_neg hne]
  | delete c => exact ⟨fun _ => trivial, fun _ => rfl⟩
  | start c old new =>
    constructor
    · intro h
      have hc : TableOp.PlainId c := decodeEntry_chunkId h (by simp [TableOp.logged])
      have hold : ∀ x ∈ old, IsField x := decodeEntry_start_old h
      have hnew : ∀ x ∈ new, IsField x := decodeEntry_fields h
      have hne : ¬ (old = [] ∨ new = []) := fun hnil => by
        rw [decodeEntry_start hc hold hnew, if_pos hnil] at h
        simp at h
      exact ⟨hc, ⟨fun h => hne (.inl h), hold⟩, fun h => hne (.inr h), hnew⟩
    · rintro ⟨hc, ⟨ho, hold⟩, hn, hnew⟩
      rw [decodeEntry_start hc hold hnew, if_neg (not_or.mpr ⟨ho, hn⟩)]
  | commit c new =>
    constructor
    · intro h
      have hc : TableOp.PlainId c := decodeEntry_chunkId h (by simp [TableOp.logged])
      have hnew : ∀ x ∈ new, IsField x := decodeEntry_fields h
      refine ⟨hc, fun hnil => ?_, hnew⟩
      rw [decodeEntry_commit hc hnew, if_pos hnil] at h
      simp at h
    · rintro ⟨hc, hne, hnew⟩
      rw [decodeEntry_commit hc hnew, if_neg hne]

end Decode

/-! ### Operations are told apart by their effects -/

namespace TableOp

/-- An entry with nothing but a state. -/
def bareEntry (state : ChunkConfigState) : ChunkEntry := ⟨[], 0, [], 0, state, [], 0⟩

/-- No operation leaves every entry as it is. -/
theorem exists_act_ne (op : TableOp) : ∃ e, op.act e ≠ e := by
  cases op with
  | put => exact ⟨none, by simp [act]⟩
  | delete => exact ⟨some (bareEntry .stable), by simp [act]⟩
  | start => exact ⟨some (bareEntry .stable), by simp [act, ChunkTable.startEntry, bareEntry]⟩
  | commit =>
    exact ⟨some (bareEntry .transitioning), by simp [act, ChunkTable.commitEntry, bareEntry]⟩

theorem eq_of_act {op op' : TableOp} (hid : op.chunkId = op'.chunkId)
    (h : ∀ e, op.act e = op'.act e) : op = op' := by
  have hnone := h none
  have hsome := h (some (bareEntry .stable))
  cases op with
  | put =>
    cases op' with
    | put =>
      simp only [act, Option.some.injEq, ChunkEntry.mk.injEq] at hnone
      obtain ⟨rfl, rfl, rfl, rfl, -, -, rfl⟩ := hnone
      rfl
    | delete => simp [act] at hnone
    | start => simp [act] at hnone
    | commit => simp [act] at hnone
  | delete =>
    cases op' with
    | put => simp [act] at hnone
    | delete => exact congrArg delete hid
    | start => simp [act] at hsome
    | commit => simp [act] at hsome
  | start c old new =>
    cases op' with
    | put => simp [act] at hnone
    | delete => simp [act] at hsome
    | start c' old' new' =>
      obtain rfl : c = c' := hid
      simp only [act, Option.map_some, ChunkTable.startEntry, Option.some.injEq,
        ChunkEntry.mk.injEq] at hsome
      obtain ⟨-, -, rfl, -, -, rfl, -⟩ := hsome
      rfl
    | commit => simp [act, ChunkTable.startEntry, ChunkTable.commitEntry] at hsome
  | commit c new =>
    cases op' with
    | put => simp [act] at hnone
    | delete => simp [act] at hsome
    | start => simp [act, ChunkTable.startEntry, ChunkTable.commitEntry] at hsome
    | commit c' new' =>
      obtain rfl : c = c' := hid
      simp only [act, Option.map_some, ChunkTable.commitEntry, Option.some.injEq,
        ChunkEntry.mk.injEq] at hsome
      obtain ⟨-, -, rfl, -, -, -, -⟩ := hsome
      rfl

/-- A table with one entry, or with none. -/
theorem get_single {c : Str} {e : Option ChunkEntry} :
    (Kv.alter (Kv.empty : ChunkTable) c fun _ => e).get c = e := Kv.get_alter_self

/-- **Operations with the same effect on every table are the same.** -/
theorem eq_of_apply {op : TableOp} {op' : Option TableOp}
    (h : ∀ t, op'.elim t (·.apply t) = op.apply t) : op' = some op := by
  obtain ⟨e, he⟩ := op.exists_act_ne
  have hself : ∀ t, (op.apply t).get op.chunkId = op.act (t.get op.chunkId) := fun t =>
    Kv.get_alter_self
  cases op' with
  | none =>
    have hget := congrArg (Kv.get · op.chunkId) (h (Kv.empty.alter op.chunkId fun _ => e))
    dsimp only [Option.elim] at hget
    rw [hself, get_single] at hget
    exact absurd hget.symm he
  | some op' =>
    have hid : op'.chunkId = op.chunkId := by
      by_contra hne
      have hget := congrArg (Kv.get · op.chunkId) (h (Kv.empty.alter op.chunkId fun _ => e))
      dsimp only [Option.elim] at hget
      rw [hself, get_single, apply, Kv.get_alter_of_ne (Ne.symm hne), get_single] at hget
      exact he hget.symm
    refine congrArg some (eq_of_act hid fun e => ?_)
    have hget := congrArg (Kv.get · op.chunkId) (h (Kv.empty.alter op.chunkId fun _ => e))
    dsimp only [Option.elim] at hget
    rw [hself, get_single, apply, hid, Kv.get_alter_self, get_single] at hget
    exact hget

end TableOp

/-! ### When the log carries an operation -/

/-- **When a logged operation is applied as it was meant**, to every table and without an exception.
-/
theorem applies_logged_iff (op : TableOp) (term : ℕ) :
    (∀ t, applyWalEntry t (op.logged term) = some (op.apply t)) ↔ op.Plain := by
  have hplain : decodeEntry (op.logged term) = some (some op) ↔ op.Plain := decodeEntry_logged_iff
  rw [← hplain]
  constructor
  · intro h
    cases hd : decodeEntry (op.logged term) with
    | none =>
      have h0 := h Kv.empty
      rw [applyWalEntry_eq, hd] at h0
      simp at h0
    | some op' =>
      refine congrArg some (TableOp.eq_of_apply fun t => ?_)
      have ht := h t
      rw [applyWalEntry_eq, hd] at ht
      exact Option.some.inj ht
  · intro hd t
    rw [applyWalEntry_eq, hd]
    rfl

/-- **A put of the chunk `a|b` cannot be applied**: the size is looked for in the wrong part. -/
theorem bar_in_id_throws : ¬ ∀ (op : TableOp) (t : ChunkTable),
    op.PlainSets → applyWalEntry t (op.logged 1) = some (op.apply t) := by
  intro hall
  have hsets : TableOp.PlainSet ["n=a".toList] := by decide
  have h := hall (.put "a|b".toList 1 1 ["n=a".toList] 1) Kv.empty hsets
  exact absurd h (by decide)

end NimbusVault
