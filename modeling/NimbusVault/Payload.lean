import NimbusVault.Coordinator

/-!
# Payload — the text payloads of log entries

`splitNonempty` is the parser of `meta_server.cpp`; `encodePutChunk`, `encodeReconfigStart` and
`encodeReconfigCommit` are the payloads that `PutChunk` and the reconfiguration driver write;
`applyWalEntry` decodes an entry and applies it to the chunk table.  `none` stands for an exception
of the number parsers.  A payload whose fields hold no separator is decoded to what was encoded; for
the other payloads `applyWalEntry_get` says what can happen to a chunk at all.
-/

namespace NimbusVault

open Lib Lib.Text

inductive WalEntryType
  | putChunk
  | deleteChunk
  | reconfigureStart
  | reconfigureCommit
  | nodeHeartbeat
  | policyUpdate
  deriving DecidableEq, Repr

/-- A log entry; its index is its place in the log. -/
structure WalEntry where
  type : WalEntryType
  term : ℕ
  payload : Str
  deriving DecidableEq

/-! ### `split_nonempty` -/

def splitStep (delim : Char) (acc : List Str × Str) (c : Char) : List Str × Str :=
  if c = delim then (if acc.2 ≠ [] then acc.1 ++ [acc.2] else acc.1, []) else (acc.1, acc.2 ++ [c])

/-- The loop of `split_nonempty` from the state `(out, cur)`, and what follows it. -/
def splitFrom (delim : Char) (acc : List Str × Str) (s : Str) : List Str :=
  let (out, cur) := s.foldl (splitStep delim) acc
  if cur ≠ [] then out ++ [cur] else out

def splitNonempty (s : Str) (delim : Char) : List Str := splitFrom delim ([], []) s

section Split

variable {d : Char}

theorem splitNonempty_eq (s : Str) : splitNonempty s d = splitFrom d ([], []) s := rfl

/-- What was split off before stays in front. -/
theorem splitFrom_out (out : List Str) (cur s : Str) :
    splitFrom d (out, cur) s = out ++ splitFrom d ([], cur) s := by
  induction s generalizing out cur with
  | nil => by_cases h : cur = [] <;> simp [splitFrom, h]
  | cons c s ih =>
    show splitFrom d (splitStep d (out, cur) c) s = out ++ splitFrom d (splitStep d ([], cur) c) s
    by_cases hc : c = d
    · by_cases hcur : cur = []
      · simp only [splitStep, hc, hcur, ne_eq, not_true, if_true, if_false]
        exact ih out []
      · simp only [splitStep, hc, hcur, ne_eq, not_false_eq_true, if_true, List.nil_append]
        rw [ih (out ++ [cur]) [], ih [cur] [], List.append_assoc]
    · simp only [splitStep, hc, if_false]
      exact ih out (cur ++ [c])

theorem splitFrom_field {x : Str} (hx : d ∉ x) (cur s : Str) :
    splitFrom d ([], cur) (x ++ s) = splitFrom d ([], cur ++ x) s := by
  induction x generalizing cur with
  | nil => simp
  | cons c x ih =>
    have hc : c ≠ d := by rintro rfl; simp at hx
    show splitFrom d (splitStep d ([], cur) c) (x ++ s) = _
    rw [splitStep, if_neg hc, ih (fun h => hx (by simp [h]))]
    simp

/-- A separator-free field in front of a separator is split off, and dropped when empty. -/
theorem splitNonempty_cons {x : Str} (hx : d ∉ x) (s : Str) :
    splitNonempty (x ++ d :: s) d = (if x = [] then [] else [x]) ++ splitNonempty s d := by
  rw [splitNonempty_eq, splitFrom_field hx]
  show splitFrom d (splitStep d ([], [] ++ x) d) s = _
  by_cases h : x = []
  · simp [splitStep, h, splitNonempty_eq]
  · simp only [splitStep, List.nil_append, if_true, ne_eq, h, not_false_eq_true, if_false]
    rw [splitFrom_out, splitNonempty_eq]

theorem splitNonempty_field {x : Str} (hx : d ∉ x) (hne : x ≠ []) (s : Str) :
    splitNonempty (x ++ d :: s) d = x :: splitNonempty s d := by
  rw [splitNonempty_cons hx, if_neg hne]; rfl

theorem splitNonempty_last {x : Str} (hx : d ∉ x) (hne : x ≠ []) : splitNonempty x d = [x] := by
  have h := splitFrom_field hx [] []
  rw [List.append_nil] at h
  rw [splitNonempty_eq, h]
  simp [splitFrom, hne]

theorem splitFrom_mem {P : Char → Prop} {acc : List Str × Str} {s : Str} (hs : ∀ c ∈ s, c ≠ d → P c)
    (hout : ∀ y ∈ acc.1, y ≠ [] ∧ ∀ c ∈ y, P c) (hcur : ∀ c ∈ acc.2, P c) :
    ∀ y ∈ splitFrom d acc s, y ≠ [] ∧ ∀ c ∈ y, P c := by
  induction s generalizing acc with
  | nil =>
    intro y hy
    by_cases h : acc.2 = []
    · simp [splitFrom, h] at hy
      exact hout y hy
    · simp only [splitFrom, List.foldl_nil, ne_eq, h, not_false_eq_true, if_true] at hy
      rcases List.mem_append.mp hy with hy | hy
      · exact hout y hy
      · simp at hy; subst hy; exact ⟨h, hcur⟩
  | cons c s ih =>
    have hs' : ∀ x ∈ s, x ≠ d → P x := fun x hx => hs x (List.mem_cons_of_mem c hx)
    show ∀ y ∈ splitFrom d (splitStep d acc c) s, y ≠ [] ∧ ∀ c ∈ y, P c
    unfold splitStep
    split_ifs with hc h
    · refine ih hs' (fun y hy => ?_) (by simp)
      rcases List.mem_append.mp hy with hy | hy
      · exact hout y hy
      · simp at hy; subst hy; exact ⟨h, hcur⟩
    · exact ih hs' hout (by simp)
    · refine ih hs' hout fun x hx => ?_
      rcases List.mem_append.mp hx with hx | hx
      · exact hcur x hx
      · obtain rfl := List.mem_singleton.mp hx
        exact hs x List.mem_cons_self hc

/-- The parts are not empty and hold no separator. -/
theorem splitNonempty_mem {s y : Str} (hy : y ∈ splitNonempty s d) : y ≠ [] ∧ d ∉ y := by
  obtain ⟨hne, hchars⟩ := splitFrom_mem (P := (· ≠ d)) (fun _ _ h => h) (by simp) (by simp) y hy
  exact ⟨hne, fun hd => hchars d hd rfl⟩

/-- The parts of a part of a payload are fields. -/
theorem isField_of_split (payload : Str) {p x : Str} (hp : p ∈ splitNonempty payload '|')
    (hx : x ∈ splitNonempty p ',') : IsField x := by
  obtain ⟨hne, hcomma⟩ := splitNonempty_mem hx
  refine ⟨hne, fun hbar => ?_, hcomma⟩
  -- the characters of a part are those of the text
  have hchars := splitFrom_mem (P := (· ∈ p)) (fun c hc _ => hc) (by simp) (by simp) x hx
  exact (splitNonempty_mem hp).2 (hchars.2 _ hbar)

/-- A text with a character other than the separator has a part. -/
theorem splitNonempty_ne_nil {s : Str} (h : ∃ c ∈ s, c ≠ d) : splitNonempty s d ≠ [] := by
  have key : ∀ (s : Str) (out : List Str) (cur : Str), (out ≠ [] ∨ cur ≠ [] ∨ ∃ c ∈ s, c ≠ d) →
      splitFrom d (out, cur) s ≠ [] := by
    intro s
    induction s with
    | nil =>
      intro out cur h
      by_cases hc : cur = [] <;> simp [splitFrom, hc]
      simpa [hc] using h
    | cons c s ih =>
      intro out cur h
      show splitFrom d (splitStep d (out, cur) c) s ≠ []
      unfold splitStep
      split_ifs with hc hcur
      · exact ih _ _ (.inl (by simp))
      · refine ih _ _ ?_
        have hcur' : cur = [] := not_not.mp hcur
        rcases h with h | h | ⟨x, hx, hxd⟩
        · exact .inl h
        · exact absurd hcur' h
        · rcases List.mem_cons.mp hx with rfl | hx
          · exact absurd hc hxd
          · exact .inr (.inr ⟨x, hx, hxd⟩)
      · exact ih _ _ (.inr (.inl (by simp)))
  exact key s [] [] (.inr (.inr h))

/-- A comma-terminated list of fields is split into the fields. -/
theorem splitNonempty_flatMap {xs : List Str} (h : ∀ x ∈ xs, x ≠ [] ∧ d ∉ x) :
    splitNonempty (xs.flatMap fun x => x ++ [d]) d = xs := by
  induction xs with
  | nil => rfl
  | cons x xs ih =>
    obtain ⟨hne, hx⟩ := h x (by simp)
    rw [List.flatMap_cons, List.append_assoc, List.singleton_append, splitNonempty_field hx hne,
      ih fun y hy => h y (by simp [hy])]

end Split

/-! ### Encoding -/

/-- `for (auto& n : set) p += n + ","`. -/
def encodeSet (set : List Str) : Str := set.flatMap fun n => n ++ [',']

def encodePutChunk (chunkId : Str) (sizeBytes : UInt64) (desiredRf : Int32) (version : UInt64)
    (replicaEntries : List Str) : Str :=
  chunkId ++ '|' :: (decimal sizeBytes.toNat ++ '|' :: (decimalInt desiredRf.toInt ++
    '|' :: (decimal version.toNat ++ '|' :: encodeSet replicaEntries)))

def encodeReconfigStart (chunkId : Str) (oldSet newSet : List Str) : Str :=
  chunkId ++ '|' :: (encodeSet oldSet ++ '|' :: encodeSet newSet)

def encodeReconfigCommit (chunkId : Str) (newSet : List Str) : Str :=
  chunkId ++ '|' :: encodeSet newSet

/-! ### `apply_wal_entry` on the chunk table

The `NODE_HEARTBEAT` branch changes the node table only, and its parser catches the exceptions of
the number parsers. -/

def applyWalEntry (t : ChunkTable) (e : WalEntry) : Option ChunkTable :=
  match e.type with
  | .putChunk =>
    match splitNonempty e.payload '|' with
    | p0 :: p1 :: p2 :: p3 :: p4 :: _ => do
      let replicas := splitNonempty p4 ','
      let sizeBytes ← stoull p1
      let desiredRf ← stoi p2
      let version ← stoull p3
      some (t.applyPutChunk p0 sizeBytes desiredRf replicas version)
    | _ => some t
  | .deleteChunk => some (t.applyDeleteChunk e.payload)
  | .reconfigureStart =>
    match splitNonempty e.payload '|' with
    | p0 :: p1 :: p2 :: _ =>
      some (t.applyReconfigStart p0 (splitNonempty p1 ',') (splitNonempty p2 ','))
    | _ => some t
  | .reconfigureCommit =>
    match splitNonempty e.payload '|' with
    | p0 :: p1 :: _ => some (t.applyReconfigCommit p0 (splitNonempty p1 ','))
    | _ => some t
  | .nodeHeartbeat => some t
  | .policyUpdate => some t

theorem encodeSet_bar {set : List Str} (h : ∀ x ∈ set, '|' ∉ x) : '|' ∉ encodeSet set := by
  intro hm
  obtain ⟨x, hx, hm⟩ := List.mem_flatMap.mp hm
  rcases List.mem_append.mp hm with hm | hm
  · exact h x hx hm
  · simp at hm

theorem encodeSet_ne_nil {set : List Str} (h : set ≠ []) : encodeSet set ≠ [] := by
  obtain ⟨x, xs, rfl⟩ := List.exists_cons_of_ne_nil h
  simp [encodeSet]

theorem bar_not_mem_decimal (n : ℕ) : '|' ∉ decimal n := not_mem_decimal (by decide) n

theorem bar_not_mem_decimalInt (z : ℤ) : '|' ∉ decimalInt z :=
  not_mem_decimalInt (by decide) (by decide) z

theorem decimalInt_ne_nil (z : ℤ) : decimalInt z ≠ [] := by
  unfold decimalInt
  split_ifs
  · simp
  · exact decimal_ne_nil _

section Decode

variable {t : ChunkTable} {c : Str} {size ver : UInt64} {rf : Int32} {term : ℕ}

/-- The parts of a put payload: the first four fields, whatever the replica entries hold. -/
theorem splitNonempty_encodePutChunk (hc : c ≠ []) (hbar : '|' ∉ c) (es : List Str) :
    splitNonempty (encodePutChunk c size rf ver es) '|' =
      c :: decimal size.toNat :: decimalInt rf.toInt :: decimal ver.toNat ::
        splitNonempty (encodeSet es) '|' := by
  rw [encodePutChunk, splitNonempty_field hbar hc,
    splitNonempty_field (bar_not_mem_decimal _) (decimal_ne_nil _),
    splitNonempty_field (bar_not_mem_decimalInt _) (decimalInt_ne_nil _),
    splitNonempty_field (bar_not_mem_decimal _) (decimal_ne_nil _)]

/-- A put payload of a proper chunk id sets that chunk's version, whatever the entries hold. -/
theorem applyWalEntry_put_version (hc : c ≠ []) (hbar : '|' ∉ c) {es : List Str} (hes : es ≠ []) :
    ∃ rs, applyWalEntry t ⟨.putChunk, term, encodePutChunk c size rf ver es⟩ =
      some (t.applyPutChunk c size rf rs ver) := by
  have hne : splitNonempty (encodeSet es) '|' ≠ [] := by
    refine splitNonempty_ne_nil ⟨',', ?_, by decide⟩
    obtain ⟨x, xs, rfl⟩ := List.exists_cons_of_ne_nil hes
    simp [encodeSet]
  obtain ⟨p4, ps, hp⟩ := List.exists_cons_of_ne_nil hne
  refine ⟨splitNonempty p4 ',', ?_⟩
  simp only [applyWalEntry, splitNonempty_encodePutChunk hc hbar, hp]
  simp

/-- **Round trip of a put payload.** -/
theorem applyWalEntry_put (hc : c ≠ []) (hbar : '|' ∉ c) {es : List Str} (hes : es ≠ [])
    (hf : ∀ x ∈ es, IsField x) :
    applyWalEntry t ⟨.putChunk, term, encodePutChunk c size rf ver es⟩ =
      some (t.applyPutChunk c size rf es ver) := by
  have h4 : splitNonempty (encodeSet es) '|' = [encodeSet es] :=
    splitNonempty_last (encodeSet_bar fun x hx => (hf x hx).2.1) (encodeSet_ne_nil hes)
  have h5 : splitNonempty (encodeSet es) ',' = es :=
    splitNonempty_flatMap fun x hx => ⟨(hf x hx).1, (hf x hx).2.2⟩
  simp only [applyWalEntry, splitNonempty_encodePutChunk hc hbar, h4, h5]
  simp

/-- **Round trip of a start payload.** -/
theorem applyWalEntry_start (hc : c ≠ []) (hbar : '|' ∉ c) {old new : List Str} (ho : old ≠ [])
    (hn : new ≠ []) (hof : ∀ x ∈ old, IsField x) (hnf : ∀ x ∈ new, IsField x) :
    applyWalEntry t ⟨.reconfigureStart, term, encodeReconfigStart c old new⟩ =
      some (t.applyReconfigStart c old new) := by
  have h1 : splitNonempty (encodeReconfigStart c old new) '|' =
      [c, encodeSet old, encodeSet new] := by
    rw [encodeReconfigStart, splitNonempty_field hbar hc,
      splitNonempty_field (encodeSet_bar fun x hx => (hof x hx).2.1) (encodeSet_ne_nil ho),
      splitNonempty_last (encodeSet_bar fun x hx => (hnf x hx).2.1) (encodeSet_ne_nil hn)]
  have h2 : splitNonempty (encodeSet old) ',' = old :=
    splitNonempty_flatMap fun x hx => ⟨(hof x hx).1, (hof x hx).2.2⟩
  have h3 : splitNonempty (encodeSet new) ',' = new :=
    splitNonempty_flatMap fun x hx => ⟨(hnf x hx).1, (hnf x hx).2.2⟩
  simp only [applyWalEntry, h1, h2, h3]

/-- **Round trip of a commit payload.** -/
theorem applyWalEntry_commit (hc : c ≠ []) (hbar : '|' ∉ c) {new : List Str}
    (hn : new ≠ []) (hnf : ∀ x ∈ new, IsField x) :
    applyWalEntry t ⟨.reconfigureCommit, term, encodeReconfigCommit c new⟩ =
      some (t.applyReconfigCommit c new) := by
  have h1 : splitNonempty (encodeReconfigCommit c new) '|' = [c, encodeSet new] := by
    rw [encodeReconfigCommit, splitNonempty_field hbar hc,
      splitNonempty_last (encodeSet_bar fun x hx => (hnf x hx).2.1) (encodeSet_ne_nil hn)]
  have h2 : splitNonempty (encodeSet new) ',' = new :=
    splitNonempty_flatMap fun x hx => ⟨(hnf x hx).1, (hnf x hx).2.2⟩
  simp only [applyWalEntry, h1, h2]

end Decode

end NimbusVault
