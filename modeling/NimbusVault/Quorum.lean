import Mathlib.Data.Finset.Card
import Mathlib.Data.Fintype.Basic
import NimbusVault.LogPrefix
import NimbusVault.SplitAppend

/-!
# Quorum — a write that answers OK is on a majority

Two things may come between an OK and its majority.  The leader counts acks in a bare counter for
each index, and an index may be acked for one follower twice: by the thread of its own write, and by
the catch-up of a later one.  With at most two followers a single ack is a quorum and this cannot
hurt.  And `last_index_` is raised before the entry is put: while a handler is between the two, or
after its Put has failed, another one says yes to an entry that is not there, and calls that raise
the index together give one index to two entries.  In a run of the split appends without either
(`Undisturbed`) an OK means that the entry is on a majority of the nodes.
-/

namespace NimbusVault

open Lib

/-- `w'` has all entries of `w`. -/
def DiskWal.Within (w w' : DiskWal) : Prop := ∀ i e, w.stored i = some e → w'.stored i = some e

section Within

variable {w w' w'' : DiskWal} {i : ℕ} {e : WalEntry}

theorem DiskWal.Within.refl (w : DiskWal) : w.Within w := fun _ _ h => h

/-- A Put where nothing else is stored loses nothing. -/
theorem DiskWal.within_put (h : ∀ e', w.stored i = some e' → e' = e) : w.Within (w.put i e) := by
  intro k e' hk
  show Function.update w.stored i (some e) k = some e'
  by_cases hki : k = i
  · subst hki
    rw [Function.update_self, h e' hk]
  · rw [Function.update_of_ne hki, hk]

theorem DiskWal.stored_put {k : ℕ} {e' : WalEntry} (h : (w.put i e).stored k = some e') :
    (k = i ∧ e' = e) ∨ w.stored k = some e' := by
  change Function.update w.stored i (some e) k = some e' at h
  by_cases hki : k = i
  · subst hki
    rw [Function.update_self] at h
    exact .inl ⟨rfl, (Option.some.inj h).symm⟩
  · rw [Function.update_of_ne hki] at h
    exact .inr h

@[simp] theorem DiskWal.stored_put_self : (w.put i e).stored i = some e := Function.update_self ..

end Within

/-- The index that a write has got. -/
def WritePhase.index : WritePhase → Option ℕ
  | .putting i | .appended i | .waiting i | .ok i | .unavailable i => some i
  | .loaded _ | .threw => none

/-- The index of a write whose entry is put. -/
def WritePhase.logged : WritePhase → Option ℕ
  | .appended i | .waiting i | .ok i | .unavailable i => some i
  | .loaded _ | .putting _ | .threw => none

theorem WritePhase.index_of_logged {p : WritePhase} {i : ℕ} (h : p.logged = some i) :
    p.index = some i := by
  cases p <;> first | exact h | cases h

namespace SplitState

variable {f : ℕ}

/-- The leader and enough followers hold `e` at index `i` to be a majority of all nodes. -/
def HeldByMajority (s : SplitState f) (i : ℕ) (e : WalEntry) : Prop :=
  s.wal.stored i = some e ∧
    f + 1 < 2 * (1 + (Finset.univ.filter fun a => (s.followers a).wal.stored i = some e).card)

/-- Some write waits for the quorum of the index. -/
def Waiting (s : SplitState f) (i : ℕ) : Prop := ∃ c ∈ s.writes, c.phase = .waiting i

instance (s : SplitState f) (i : ℕ) : Decidable (s.Waiting i) :=
  inferInstanceAs (Decidable (∃ c ∈ s.writes, c.phase = .waiting i))

/-- The call a thread is waiting for. -/
def callMsg (s : SplitState f) (a : Fin f) (n : ℕ) : Option (AppendMsg f) :=
  match s.threads a n with
  | some (.calling _ m) => some m
  | _ => none

/-- If the handler finds its index below the last one, it can read the entry there. -/
def Visible (s : SplitState f) (x : AppendHandler f) : Prop :=
  match x.phase with
  | .checked localLast =>
    x.msg.logIndex ≤ localLast → ((s.follower x).wal.stored x.msg.logIndex).isSome = true
  | _ => True

instance (s : SplitState f) (x : AppendHandler f) : Decidable (s.Visible x) :=
  match h : x.phase with
  | .checked localLast => decidable_of_iff (x.msg.logIndex ≤ localLast →
      ((s.follower x).wal.stored x.msg.logIndex).isSome = true) (by rw [Visible, h])
  | .loaded _ | .raised _ | .stored | .persisting _ => .isTrue (by rw [Visible, h]; trivial)

/-- `last_index_` is raised from where the same call has read it, and a handler raises it to the
index of its entry; a handler can read the entry that it takes for a duplicate; with three followers
or more, no ack is counted a second time for the same follower while a write waits for it. -/
def Undisturbed (s : SplitState f) : SplitStep f → Prop
  | .raise n => ∀ c ∈ s.writes[n]?, c.phase = .loaded s.wal.lastIndex
  | .raiseLast h => ∀ x ∈ s.handlers h, x.phase = .loaded (s.follower x).wal.lastIndex ∧
      (s.follower x).wal.lastIndex + 1 = x.msg.logIndex
  | .decide h => ∀ x ∈ s.handlers h, s.Visible x
  | .reply a n true => ∀ m ∈ s.callMsg a n, s.Waiting m.logIndex →
      f ≤ 2 ∨ a ∉ s.counted m.logIndex
  | _ => True

instance (s : SplitState f) (l : SplitStep f) : Decidable (Undisturbed s l) :=
  match l with
  | .raise n => inferInstanceAs (Decidable (∀ c ∈ s.writes[n]?, c.phase = .loaded s.wal.lastIndex))
  | .raiseLast h => inferInstanceAs (Decidable (∀ x ∈ s.handlers h,
      x.phase = .loaded (s.follower x).wal.lastIndex ∧
        (s.follower x).wal.lastIndex + 1 = x.msg.logIndex))
  | .decide h => inferInstanceAs (Decidable (∀ x ∈ s.handlers h, s.Visible x))
  | .reply a n true => inferInstanceAs (Decidable (∀ m ∈ s.callMsg a n, s.Waiting m.logIndex →
      f ≤ 2 ∨ a ∉ s.counted m.logIndex))
  | .reply _ _ false | .begin .. | .put .. | .register _ | .commit _ | .timeout _ | .fail ..
  | .goOn .. | .send .. | .accept .. | .bootAppend .. | .store .. | .persist _ | .answer _
  | .restart _ => .isTrue trivial

/-- What a handler has done so far has its effect: the message has the leader's entry, the index is
raised to that of the message, and the entry is put. -/
def HandlerOk (s : SplitState f) (x : AppendHandler f) : Prop :=
  s.wal.stored x.msg.logIndex = some x.msg.entry ∧
    match x.phase with
    | .checked _ | .loaded _ => True
    | .raised i => i = x.msg.logIndex
    | .stored | .persisting _ => (s.follower x).wal.stored x.msg.logIndex = some x.msg.entry

/-- What is known of the logs, the writes and the messages. -/
structure LogsInv (s : SplitState f) : Prop where
  index_le : ∀ (n : ℕ) (c : WriteCall) (i : ℕ), s.writes[n]? = some c → c.phase.index = some i →
    i ≤ s.wal.lastIndex
  index_inj : ∀ (n n' : ℕ) (c c' : WriteCall) (i : ℕ), s.writes[n]? = some c →
    s.writes[n']? = some c' → c.phase.index = some i → c'.phase.index = some i → n = n'
  beyond : ∀ i, s.wal.lastIndex < i → s.wal.stored i = none
  unput : ∀ (n : ℕ) (e : WalEntry) (i : ℕ), s.writes[n]? = some ⟨e, .putting i⟩ →
    s.wal.stored i = none
  logged : ∀ (n : ℕ) (c : WriteCall) (i : ℕ), s.writes[n]? = some c → c.phase.logged = some i →
    s.wal.stored i = some c.entry
  sent : ∀ m ∈ s.appends, s.wal.stored m.logIndex = some m.entry
  calls : ∀ a n m, s.callMsg a n = some m → m.dest = a
  copies : ∀ a, (s.followers a).wal.Within s.wal
  handled : ∀ h x, s.handlers h = some x → s.HandlerOk x
  replies : ∀ m, (m, true) ∈ s.replies →
    (s.followers m.dest).wal.stored m.logIndex = some m.entry

/-- What is known of the acks, and of the writes that are answered. -/
structure AckInv (s : SplitState f) : Prop extends LogsInv s where
  counts : ∀ k n, s.ackCounts k = some n → n = (s.counted k).length
  held : ∀ k, ∀ a ∈ s.counted k, ∃ e, (s.followers a).wal.stored k = some e
  distinct : ∀ k, s.Waiting k → f ≤ 2 ∨ (s.counted k).Nodup
  ok : ∀ c ∈ s.writes, ∀ i, c.phase = .ok i → s.HeldByMajority i c.entry

variable {s s' : SplitState f} {l : SplitStep f} {a : Fin f} {n : ℕ}

/-! ### The logs -/

theorem getElem?_setWrite {c c' : WriteCall} {n' : ℕ} (h : (s.setWrite n c).writes[n']? = some c') :
    (n' = n ∧ c' = c) ∨ (n' ≠ n ∧ s.writes[n']? = some c') := by
  change (s.writes.set n c)[n']? = some c' at h
  rw [List.getElem?_set] at h
  split_ifs at h with hn hlt
  · exact .inl ⟨hn.symm, (Option.some.inj h).symm⟩
  · exact .inr ⟨Ne.symm hn, h⟩

theorem HandlerOk.mono {x : AppendHandler f} (hx : s.HandlerOk x) (hw : s.wal.Within s'.wal)
    (hf : (s.follower x).wal.Within (s'.follower x).wal) : s'.HandlerOk x := by
  refine ⟨hw _ _ hx.1, ?_⟩
  have hphase := hx.2
  cases hp : x.phase <;> rw [hp] at hphase
  case checked | loaded => trivial
  case raised => exact hphase
  case stored | persisting => exact hf _ _ hphase

theorem LogsInv.setThread (hI : LogsInv s) {p : SendPhase f}
    (hp : ∀ i m, p = .calling i m → m.dest = a) : LogsInv (s.setThread a n p) :=
  { hI with
    calls := by
      intro b n' m hm
      unfold callMsg SplitState.setThread at hm
      dsimp only at hm
      by_cases hb : b = a
      · subst hb
        rw [Function.update_self] at hm
        by_cases hn : n' = n
        · subst hn
          rw [Function.update_self] at hm
          cases p with
          | calling i m' =>
            obtain rfl := Option.some.inj hm
            exact hp i m' rfl
          | _ => simp at hm
        · rw [Function.update_of_ne hn] at hm
          exact hI.calls b n' m hm
      · rw [Function.update_of_ne hb] at hm
        exact hI.calls b n' m hm }

theorem LogsInv.setHandler (hI : LogsInv s) {h : ℕ} {x : Option (AppendHandler f)}
    (hx : ∀ y ∈ x, s.HandlerOk y) : LogsInv (s.setHandler h x) :=
  { hI with
    handled := by
      intro h' y hy
      change Function.update s.handlers h x h' = some y at hy
      by_cases hh : h' = h
      · subst hh
        rw [Function.update_self] at hy
        exact hx y hy
      · rw [Function.update_of_ne hh] at hy
        exact hI.handled h' y hy }

theorem LogsInv.answered (hI : LogsInv s) {h : ℕ} {x : AppendHandler f} {success : Bool}
    (hb : success = true → (s.follower x).wal.stored x.msg.logIndex = some x.msg.entry) :
    LogsInv (s.answered h x success) :=
  { hI.setHandler (h := h) (x := none) (by simp) with
    replies := by
      intro m hm
      unfold SplitState.answered at hm
      dsimp only at hm
      split_ifs at hm
      · rcases List.mem_append.mp hm with hm | hm
        · exact hI.replies m hm
        · obtain ⟨rfl, rfl⟩ := Prod.mk.inj (List.mem_singleton.mp hm)
          exact hb rfl
      · exact hI.replies m hm }

theorem within_setFollower {fo : FollowerDisk} (h : (s.followers a).wal.Within fo.wal) (b : Fin f) :
    (s.followers b).wal.Within ((s.setFollower a fo).followers b).wal := by
  show (s.followers b).wal.Within (Function.update s.followers a fo b).wal
  by_cases hb : b = a
  · subst hb
    rw [Function.update_self]
    exact h
  · rw [Function.update_of_ne hb]
    exact .refl _

/-- A follower may take over an entry of the leader. -/
theorem LogsInv.setFollower (hI : LogsInv s) {fo : FollowerDisk}
    (hw : (s.followers a).wal.Within fo.wal) (hc : fo.wal.Within s.wal) :
    LogsInv (s.setFollower a fo) :=
  { hI with
    copies := by
      intro b
      show (Function.update s.followers a fo b).wal.Within s.wal
      by_cases hb : b = a
      · subst hb
        rw [Function.update_self]
        exact hc
      · rw [Function.update_of_ne hb]
        exact hI.copies b
    handled := fun h x hx => (hI.handled h x hx).mono (.refl _) (within_setFollower hw _)
    replies := fun m hm => within_setFollower hw _ _ _ (hI.replies m hm) }

/-- A follower that stores nothing new. -/
theorem LogsInv.sameStored (hI : LogsInv s) {fo : FollowerDisk}
    (h : fo.wal.stored = (s.followers a).wal.stored) : LogsInv (s.setFollower a fo) := by
  refine hI.setFollower (fun i e he => ?_) fun i e he => ?_
  · rw [h]
    exact he
  · rw [h] at he
    exact hI.copies a i e he

/-- The index of a write is its own. -/
theorem LogsInv.own (hI : LogsInv s) {c : WriteCall} {i : ℕ} (hc : s.writes[n]? = some c)
    (hi : c.phase.index = some i) : i ≤ s.wal.lastIndex ∧ ∀ (n' : ℕ) (c' : WriteCall),
      s.writes[n']? = some c' → c'.phase.index = some i → n' = n :=
  ⟨hI.index_le n c i hc hi, fun n' c' hc' hi' => hI.index_inj n' n c' c i hc' hc hi' hi⟩

/-- A write goes on: the log keeps what it has, and the write's index is its own. -/
theorem LogsInv.write (hI : LogsInv s) {wal : DiskWal} {c : WriteCall}
    (hlast : s.wal.lastIndex ≤ wal.lastIndex) (hw : s.wal.Within wal)
    (hbeyond : ∀ i, wal.lastIndex < i → wal.stored i = none)
    (hothers : ∀ (n' : ℕ) (e : WalEntry) (i : ℕ), n' ≠ n → s.writes[n']? = some ⟨e, .putting i⟩ →
      wal.stored i = none)
    (hindex : ∀ i, c.phase.index = some i → i ≤ wal.lastIndex ∧ ∀ (n' : ℕ) (c' : WriteCall),
      s.writes[n']? = some c' → c'.phase.index = some i → n' = n)
    (hunput : ∀ i, c.phase = .putting i → wal.stored i = none)
    (hlog : ∀ i, c.phase.logged = some i → wal.stored i = some c.entry) :
    LogsInv ({ s with wal }.setWrite n c) where
  index_le n' c' i hc hi := by
    rcases getElem?_setWrite hc with ⟨-, rfl⟩ | ⟨-, hc⟩
    · exact (hindex i hi).1
    · exact (hI.index_le n' c' i hc hi).trans hlast
  index_inj n₁ n₂ c₁ c₂ i h₁ h₂ hi₁ hi₂ := by
    rcases getElem?_setWrite h₁ with ⟨rfl, rfl⟩ | ⟨-, hc₁⟩ <;>
      rcases getElem?_setWrite h₂ with ⟨hn₂, rfl⟩ | ⟨-, hc₂⟩
    · exact hn₂.symm
    · exact ((hindex i hi₁).2 n₂ c₂ hc₂ hi₂).symm
    · exact ((hindex i hi₂).2 n₁ c₁ hc₁ hi₁).trans hn₂.symm
    · exact hI.index_inj n₁ n₂ c₁ c₂ i hc₁ hc₂ hi₁ hi₂
  beyond := hbeyond
  unput n' e i hc := by
    rcases getElem?_setWrite hc with ⟨-, rfl⟩ | ⟨hne, hc⟩
    · exact hunput i rfl
    · exact hothers n' e i hne hc
  logged n' c' i hc hi := by
    rcases getElem?_setWrite hc with ⟨-, rfl⟩ | ⟨-, hc⟩
    · exact hlog i hi
    · exact hw _ _ (hI.logged n' c' i hc hi)
  sent m hm := hw _ _ (hI.sent m hm)
  calls := hI.calls
  copies b i e he := hw _ _ (hI.copies b i e he)
  handled h x hx := (hI.handled h x hx).mono hw (.refl _)
  replies := hI.replies

/-- A write goes on without touching the log. -/
theorem LogsInv.setWrite (hI : LogsInv s) {c : WriteCall} {p : WritePhase}
    (hc : s.writes[n]? = some c) (hindex : ∀ i, p.index = some i → c.phase.index = some i)
    (hput : ∀ i, p ≠ .putting i) (hlog : ∀ i, p.logged = some i → c.phase.logged = some i) :
    LogsInv (s.setWrite n ⟨c.entry, p⟩) :=
  hI.write le_rfl (.refl _) hI.beyond (fun n' e i _ => hI.unput n' e i)
    (fun i hi => hI.own hc (hindex i hi)) (fun i hi => absurd hi (hput i))
    (fun i hi => hI.logged n c i hc (hlog i hi))

theorem LogsInv.begin (hI : LogsInv s) (e : WalEntry) (base : ℕ) :
    LogsInv { s with writes := s.writes ++ [⟨e, .loaded base⟩] } := by
  have old : ∀ {n : ℕ} {c : WriteCall} {i : ℕ}, (s.writes ++ [⟨e, .loaded base⟩])[n]? = some c →
      c.phase.index = some i → s.writes[n]? = some c := by
    intro n c i hc hi
    rw [List.getElem?_append] at hc
    split_ifs at hc
    · exact hc
    · obtain rfl := List.mem_singleton.mp (List.mem_of_getElem? hc)
      cases hi
  exact { hI with
    index_le := fun n c i hc hi => hI.index_le n c i (old hc hi) hi
    index_inj := fun n n' c c' i hc hc' hi hi' =>
      hI.index_inj n n' c c' i (old hc hi) (old hc' hi') hi hi'
    unput := fun n e i hc => hI.unput n e i (old (i := i) hc rfl)
    logged := fun n c i hc hi => hI.logged n c i (old (i := i) hc (WritePhase.index_of_logged hi)) hi }

/-- **What a handler decides**: it answers, yes only if the entry is there or cannot be read, or it
goes on to append the next entry. -/
theorem decided_cases (s : SplitState f) (h : ℕ) (x : AppendHandler f) (localLast : ℕ) :
    (∃ b, s.decided h x localLast = s.answered h x b ∧ (b = true → x.msg.logIndex ≤ localLast ∧
        ∀ e, (s.follower x).wal.stored x.msg.logIndex = some e → e = x.msg.entry)) ∨
      s.decided h x localLast =
        s.setHandler h (some { x with phase := .loaded (s.follower x).wal.lastIndex }) := by
  unfold decided
  split_ifs with h1 h2 h3
  · split
    · rename_i hst
      exact .inl ⟨true, rfl, fun _ => ⟨h1, fun e he => by rw [hst] at he; cases he⟩⟩
    · rename_i existing hst
      refine .inl ⟨decide (existing = x.msg.entry), rfl, fun hb => ⟨h1, fun e he => ?_⟩⟩
      rw [hst] at he
      obtain rfl := Option.some.inj he
      exact of_decide_eq_true hb
  · exact .inl ⟨false, rfl, fun hb => by cases hb⟩
  · exact .inl ⟨false, rfl, fun hb => by cases hb⟩
  · exact .inr rfl

theorem LogsInv.decided (hI : LogsInv s) {h localLast : ℕ} {x : AppendHandler f}
    (hx : s.handlers h = some x) (hp : x.phase = .checked localLast) (hv : s.Visible x) :
    LogsInv (s.decided h x localLast) := by
  rcases s.decided_cases h x localLast with ⟨b, hd, hb⟩ | hd <;> rw [hd]
  · refine hI.answered fun hyes => ?_
    obtain ⟨hle, he⟩ := hb hyes
    have hv' : x.msg.logIndex ≤ localLast →
        ((s.follower x).wal.stored x.msg.logIndex).isSome = true := by
      unfold Visible at hv
      rwa [hp] at hv
    obtain ⟨e, hst⟩ := Option.isSome_iff_exists.mp (hv' hle)
    rw [hst, he e hst]
  · refine hI.setHandler fun y hy => ?_
    obtain rfl := Option.some.inj hy
    exact ⟨(hI.handled h x hx).1, trivial⟩

/-- What a catch-up sends next is a call of its follower with an entry of the log. -/
theorem catchUpCall_cases (w : DiskWal) (a : Fin f) (n i k : ℕ) :
    catchUpCall w a n i k = (.done, []) ∨ ∃ e, w.stored k = some e ∧ catchUpCall w a n i k =
      (.calling i (appendMsg a n false k e), [appendMsg a n false k e]) := by
  unfold catchUpCall
  split_ifs
  · cases he : w.stored k with
    | none => exact .inl rfl
    | some e => exact .inr ⟨e, rfl, rfl⟩
  · exact .inl rfl

theorem LogsInv.raise (hI : LogsInv s) {base : ℕ} {e : WalEntry}
    (hw : s.writes[n]? = some ⟨e, .loaded base⟩) (hbase : base = s.wal.lastIndex) :
    LogsInv ({ s with wal := s.wal.raise base }.setWrite n ⟨e, .putting (base + 1)⟩) := by
  subst hbase
  have hfree : s.wal.stored (s.wal.lastIndex + 1) = none := hI.beyond _ (Nat.lt_succ_self _)
  refine hI.write (Nat.le_succ _) (.refl _) (fun i hi => hI.beyond i ((Nat.lt_succ_self _).trans hi))
    (fun n' e' i _ => hI.unput n' e' i) (fun i hi => ?_) (fun i hi => ?_) (fun i hi => by cases hi)
  · obtain rfl := Option.some.inj hi
    refine ⟨le_rfl, fun n' c' hc' hi' => ?_⟩
    exact absurd (hI.index_le n' c' _ hc' hi') (Nat.not_succ_le_self _)
  · obtain rfl := WritePhase.putting.inj hi
    exact hfree

theorem LogsInv.put (hI : LogsInv s) {i : ℕ} {e : WalEntry}
    (hw : s.writes[n]? = some ⟨e, .putting i⟩) :
    LogsInv ({ s with wal := s.wal.put i e }.setWrite n ⟨e, .appended i⟩) := by
  have hnone := hI.unput n e i hw
  obtain ⟨hle, hown⟩ := hI.own hw rfl
  refine hI.write le_rfl (DiskWal.within_put fun e' he' => by rw [hnone] at he'; cases he')
    (fun k hk => ?_) (fun n' e' k hne hc => ?_) (fun k hk => ?_) (fun k hk => by cases hk)
    (fun k hk => ?_)
  · show Function.update s.wal.stored i (some e) k = none
    rw [Function.update_of_ne (hle.trans_lt hk).ne']
    exact hI.beyond k hk
  · show Function.update s.wal.stored i (some e) k = none
    rw [Function.update_of_ne]
    · exact hI.unput n' e' k hc
    · rintro rfl
      exact hne (hown n' _ hc rfl)
  · obtain rfl := Option.some.inj hk
    exact ⟨hle, hown⟩
  · obtain rfl := Option.some.inj hk
    exact DiskWal.stored_put_self

/-- The calls that go out carry the entry that the write has put. -/
theorem LogsInv.register (hI : LogsInv s) {i : ℕ} {e : WalEntry}
    (hw : s.writes[n]? = some ⟨e, .appended i⟩) :
    LogsInv ({ s with
      ackCounts := Function.update s.ackCounts i (some 0)
      counted := Function.update s.counted i []
      threads := fun a =>
        Function.update (s.threads a) n (some (.calling i (appendMsg a n true i e)))
      appends := s.appends ++ (List.finRange f).map fun a => appendMsg a n true i e }.setWrite n
        ⟨e, .waiting i⟩) := by
  have hI' := hI.setWrite (p := .waiting i) hw (by simp [WritePhase.index]) (by simp)
    (by simp [WritePhase.logged])
  have hst := hI.logged n _ i hw rfl
  exact { hI' with
    sent := by
      intro m hm
      rcases List.mem_append.mp hm with hm | hm
      · exact hI.sent m hm
      · obtain ⟨a, -, rfl⟩ := List.mem_map.mp hm
        exact hst
    calls := by
      intro a n' m hm
      unfold callMsg SplitState.setWrite at hm
      dsimp only at hm
      by_cases hn : n' = n
      · subst hn
        rw [Function.update_self] at hm
        obtain rfl := Option.some.inj hm
        rfl
      · rw [Function.update_of_ne hn] at hm
        exact hI.calls a n' m hm }

theorem LogsInv.send (hI : LogsInv s) (a : Fin f) (n i k : ℕ) :
    LogsInv ({ s with appends := s.appends ++ (catchUpCall s.wal a n i k).2 }.setThread a n
      (catchUpCall s.wal a n i k).1) := by
  rcases catchUpCall_cases s.wal a n i k with hc | ⟨e, he, hc⟩ <;> rw [hc]
  · have hI' := hI.setThread (a := a) (n := n) (p := .done) (by simp)
    exact { hI' with sent := fun m hm => hI.sent m (List.append_nil s.appends ▸ hm) }
  · have hI' := hI.setThread (a := a) (n := n) (p := .calling i (appendMsg a n false k e))
      fun i' m hp => by obtain ⟨-, rfl⟩ := SendPhase.calling.inj hp; rfl
    exact { hI' with
      sent := by
        intro m hm
        rcases List.mem_append.mp hm with hm | hm
        · exact hI.sent m hm
        · obtain rfl := List.mem_singleton.mp hm
          exact he }

/-- The handler puts the leader's entry at its own index. -/
theorem LogsInv.store (hI : LogsInv s) {h i : ℕ} {m : AppendMsg f} {remote : Bool}
    (hx : s.handlers h = some ⟨m, remote, .raised i⟩) :
    LogsInv ((s.setFollower m.dest { s.followers m.dest with
      wal := (s.followers m.dest).wal.put i m.entry }).setHandler h
        (some ⟨m, remote, .stored⟩)) := by
  obtain ⟨hst, hi⟩ : s.wal.stored m.logIndex = some m.entry ∧ i = m.logIndex := hI.handled h _ hx
  subst hi
  have hcopies := hI.copies m.dest
  have hw : (s.followers m.dest).wal.Within ((s.followers m.dest).wal.put m.logIndex m.entry) :=
    DiskWal.within_put fun e he => Option.some.inj ((hcopies _ _ he).symm.trans hst)
  refine LogsInv.setHandler (hI.setFollower hw fun k e he => ?_) fun y hy => ?_
  · rcases DiskWal.stored_put he with ⟨rfl, rfl⟩ | he
    · exact hst
    · exact hcopies k e he
  · obtain rfl := Option.some.inj hy
    refine ⟨hst, ?_⟩
    show (Function.update s.followers m.dest _ m.dest).wal.stored m.logIndex = some m.entry
    rw [Function.update_self]
    exact DiskWal.stored_put_self

/-- **The invariant of the logs is kept by every undisturbed step.** -/
theorem LogsInv.fires (hI : LogsInv s) (h : s.Fires l s') (hok : Undisturbed s l) :
    LogsInv s' := by
  cases h with
  | begin type payload => exact hI.begin _ _
  | raise hw => exact hI.raise hw (WritePhase.loaded.inj (hok _ hw))
  | put hw => exact hI.put hw
  | putFails hw =>
    exact hI.setWrite hw (by simp [WritePhase.index]) (by simp) (by simp [WritePhase.logged])
  | register hw => exact hI.register hw
  | @commit n i k e hw =>
    have hI' := hI.setWrite (p := if (s.wal.onCommit s.table i).isSome then .ok i else .threw) hw
      (by split_ifs <;> simp [WritePhase.index]) (by split_ifs <;> simp)
      (by split_ifs <;> simp [WritePhase.logged])
    exact { hI' with beyond := hI'.beyond }
  | timeout hw =>
    exact hI.setWrite hw (by simp [WritePhase.index]) (by simp) (by simp [WritePhase.logged])
  | @yes a n i m =>
    have hI' := hI.setThread (a := a) (n := n) (p := .acked i m) (by simp)
    exact { hI' with beyond := hI'.beyond }
  | @no a n i m | @fail a n i m =>
    refine hI.setThread fun i' m' hp => ?_
    unfold afterNo at hp
    split_ifs at hp
  | goOn =>
    refine hI.setThread fun i' m' hp => ?_
    split_ifs at hp
  | @send a n i k => exact hI.send a n i k
  | stale =>
    exact { hI with
      replies := by
        intro m hm
        rcases List.mem_append.mp hm with hm | hm
        · exact hI.replies m hm
        · cases List.mem_singleton.mp hm }
  | @accept h m hm =>
    refine LogsInv.setHandler ?_ fun y hy => ?_
    · exact hI.sameStored rfl
    obtain rfl := Option.some.inj hy
    exact ⟨hI.sent m hm, trivial⟩
  | bootStale => exact hI
  | @bootAppend h prev k a e he =>
    refine LogsInv.setHandler ?_ fun y hy => ?_
    · exact hI.sameStored rfl
    obtain rfl := Option.some.inj hy
    exact ⟨he, trivial⟩
  | @decide h localLast x hx hp => exact hI.decided hx hp (hok x hx)
  | @raiseLast h base m remote hx =>
    obtain ⟨hbase, hnext⟩ := hok _ hx
    refine LogsInv.setHandler ?_ fun y hy => ?_
    · exact hI.sameStored rfl
    obtain rfl := Option.some.inj hy
    exact ⟨(hI.handled h _ hx).1, (congrArg (· + 1) (HandlerPhase.loaded.inj hbase)).trans hnext⟩
  | store hx => exact hI.store hx
  | storeFails => exact hI.setHandler (by simp)
  | @persist h m remote hx =>
    refine hI.setHandler fun y hy => ?_
    obtain rfl := Option.some.inj hy
    have hx' := hI.handled h _ hx
    exact ⟨hx'.1, hx'.2⟩
  | @answer h last m remote hx =>
    refine LogsInv.answered ?_ fun _ => ?_
    · exact hI.sameStored rfl
    show (Function.update s.followers m.dest _ m.dest).wal.stored m.logIndex = some m.entry
    rw [Function.update_self]
    exact (hI.handled h _ hx).2
  | @restart a =>
    have hI' : LogsInv (s.setFollower a { s.followers a with
        wal := { (s.followers a).wal with lastIndex := (s.followers a).persisted }
        currentTerm := 0 }) := hI.sameStored rfl
    exact { hI' with
      handled := fun h x hx => hI'.handled h x (Option.filter_eq_some_iff.mp hx).1 }

/-- **Nothing is lost**: no log gives up or changes an entry. -/
theorem Fires.grows (hI : LogsInv s) (h : s.Fires l s') :
    s.wal.Within s'.wal ∧ ∀ a, (s.followers a).wal.Within (s'.followers a).wal := by
  have moved : ∀ {b : Fin f} {fo : FollowerDisk}, (s.followers b).wal.Within fo.wal →
      ∀ a, (s.followers a).wal.Within (Function.update s.followers b fo a).wal :=
    fun hw => within_setFollower hw
  cases h with
  | put hw =>
    have hnone := hI.unput _ _ _ hw
    exact ⟨DiskWal.within_put fun e' he' => (by rw [hnone] at he'; cases he'), fun a => .refl _⟩
  | @store h i m remote hx =>
    obtain ⟨hst, hi⟩ : s.wal.stored m.logIndex = some m.entry ∧ i = m.logIndex := hI.handled h _ hx
    subst hi
    exact ⟨.refl _, moved <| DiskWal.within_put fun e he =>
      Option.some.inj ((hI.copies m.dest _ _ he).symm.trans hst)⟩
  | accept | bootAppend | raiseLast | answer | restart =>
    exact ⟨.refl _, moved (.refl _)⟩
  | decide hx hp =>
    rcases s.decided_cases _ _ _ with ⟨b, hd, -⟩ | hd <;> rw [hd] <;>
      exact ⟨.refl _, fun a => .refl _⟩
  | _ => exact ⟨.refl _, fun a => .refl _⟩

/-! ### The acks -/

/-- A quorum of acks comes from a quorum of followers. -/
theorem acksNeeded_le_card {as : List (Fin f)} (h : f ≤ 2 ∨ as.Nodup)
    (hn : acksNeeded f ≤ as.length) : acksNeeded f ≤ as.toFinset.card := by
  rcases h with hf | hd
  · unfold acksNeeded at hn ⊢
    cases as with
    | nil => simpa using hn
    | cons a as =>
      have hpos : 0 < (a :: as).toFinset.card := Finset.card_pos.mpr ⟨a, by simp⟩
      omega
  · rw [List.toFinset_card_of_nodup hd]
    exact hn

/-- With the leader, a quorum of acks is a majority. -/
theorem majority_of_acksNeeded {n : ℕ} (h : acksNeeded f ≤ n) : f + 1 < 2 * (1 + n) := by
  unfold acksNeeded at h
  omega

theorem heldByMajority_of_acks (hI : AckInv s) {i k : ℕ} {e : WalEntry}
    (hc : ⟨e, .waiting i⟩ ∈ s.writes) (hk : s.ackCounts i = some k) (hq : acksNeeded f ≤ k) :
    s.HeldByMajority i e := by
  obtain ⟨n, hn⟩ := List.mem_iff_getElem?.mp hc
  have hst : s.wal.stored i = some e := hI.logged n _ i hn rfl
  refine ⟨hst, majority_of_acksNeeded ?_⟩
  rw [hI.counts i k hk] at hq
  refine (acksNeeded_le_card (hI.distinct i ⟨_, hc, rfl⟩) hq).trans (Finset.card_le_card fun a ha => ?_)
  obtain ⟨e', he'⟩ := hI.held i a (List.mem_toFinset.mp ha)
  rw [Finset.mem_filter, he', ← hI.copies a i e' he']
  exact ⟨Finset.mem_univ a, hst⟩

/-- What is on a majority stays there. -/
theorem HeldByMajority.fires {i : ℕ} {e : WalEntry} (hm : s.HeldByMajority i e) (hI : LogsInv s)
    (h : s.Fires l s') : s'.HeldByMajority i e := by
  obtain ⟨hst, hlt⟩ := hm
  obtain ⟨hleader, hfollowers⟩ := h.grows hI
  refine ⟨hleader i e hst, hlt.trans_le ?_⟩
  refine Nat.mul_le_mul_left 2 (Nat.add_le_add_left (Finset.card_le_card fun a ha => ?_) 1)
  rw [Finset.mem_filter] at ha ⊢
  exact ⟨ha.1, hfollowers a i e ha.2⟩

/-- **What a step does to the acks of an index**: nothing, the start of the count, or one more. -/
theorem Fires.acks (h : s.Fires l s') (k : ℕ) :
    (s'.ackCounts k = s.ackCounts k ∧ s'.counted k = s.counted k) ∨
      (s'.ackCounts k = some 0 ∧ s'.counted k = []) ∨
      ∃ a n m, l = .reply a n true ∧ s.callMsg a n = some m ∧ (m, true) ∈ s.replies ∧
        m.logIndex = k ∧ s'.ackCounts k = (s.ackCounts k).map (· + 1) ∧
        s'.counted k = a :: s.counted k ∧ s'.writes = s.writes := by
  cases h with
  | @register n i e =>
    by_cases hk : k = i
    · subst hk
      exact .inr (.inl ⟨Function.update_self .., Function.update_self ..⟩)
    · exact .inl ⟨Function.update_of_ne hk .., Function.update_of_ne hk ..⟩
  | @yes a n i m hth hr =>
    by_cases hk : k = m.logIndex
    · subst hk
      have hcount : (s.recordAck a m.logIndex).counted m.logIndex
          = if (s.ackCounts m.logIndex).isSome then a :: s.counted m.logIndex
            else s.counted m.logIndex := Function.update_self ..
      have hacks : (s.recordAck a m.logIndex).ackCounts m.logIndex
          = (s.ackCounts m.logIndex).map (· + 1) := Function.update_self ..
      cases hn : s.ackCounts m.logIndex with
      | none =>
        rw [hn] at hcount hacks
        exact .inl ⟨hacks, hcount⟩
      | some n' =>
        rw [hn] at hcount hacks
        have hcall : s.callMsg a n = some m := by rw [callMsg, hth]
        exact .inr (.inr ⟨a, n, m, rfl, hcall, hr, rfl, hacks, hcount, rfl⟩)
    · exact .inl ⟨Function.update_of_ne hk .., Function.update_of_ne hk ..⟩
  | decide =>
    rcases s.decided_cases _ _ _ with ⟨b, hd, -⟩ | hd <;> rw [hd] <;> exact .inl ⟨rfl, rfl⟩
  | _ => exact .inl ⟨rfl, rfl⟩

/-- **The life of a write**: what may have become of it by a step. -/
theorem Fires.write_life (h : s.Fires l s') {c : WriteCall} (hc : c ∈ s'.writes) :
    c ∈ s.writes ∨ (∃ i, c.phase = .waiting i ∧ s'.counted i = []) ∨
      (∃ i k, ⟨c.entry, .waiting i⟩ ∈ s.writes ∧ s.ackCounts i = some k ∧ acksNeeded f ≤ k ∧
        c.phase = .ok i) ∨
      ∀ i, c.phase ≠ .waiting i ∧ c.phase ≠ .ok i := by
  cases h with
  | begin =>
    rcases List.mem_append.mp hc with hc | hc
    · exact .inl hc
    · obtain rfl := List.mem_singleton.mp hc
      exact .inr (.inr (.inr fun i => ⟨by simp, by simp⟩))
  | raise | put | putFails | timeout =>
    rcases List.mem_or_eq_of_mem_set hc with hc | rfl
    · exact .inl hc
    · exact .inr (.inr (.inr fun i => ⟨by simp, by simp⟩))
  | @register n i e hw =>
    rcases List.mem_or_eq_of_mem_set hc with hc | rfl
    · exact .inl hc
    · exact .inr (.inl ⟨i, rfl, Function.update_self ..⟩)
  | @commit n i k e hw hk hq =>
    rcases List.mem_or_eq_of_mem_set hc with hc | rfl
    · exact .inl hc
    · by_cases hr : (s.wal.onCommit s.table i).isSome = true
      · exact .inr (.inr (.inl ⟨i, k, List.mem_of_getElem? hw, hk, hq, if_pos hr⟩))
      · exact .inr (.inr (.inr fun i => by simp [hr]))
  | decide =>
    rcases s.decided_cases _ _ _ with ⟨b, hd, -⟩ | hd <;> rw [hd] at hc <;> exact .inl hc
  | _ => exact .inl hc

/-- **The invariant is kept by every undisturbed step.** -/
theorem AckInv.fires (hI : AckInv s) (h : s.Fires l s') (hok : Undisturbed s l) : AckInv s' where
  toLogsInv := hI.toLogsInv.fires h hok
  counts k n hn := by
    rcases h.acks k with ⟨h1, h2⟩ | ⟨h1, h2⟩ | ⟨a, i, m, -, -, -, -, h1, h2, -⟩
    · rw [h2]
      exact hI.counts k n (h1 ▸ hn)
    · rw [h1] at hn
      rw [h2]
      exact (Option.some.inj hn).symm
    · rw [h1] at hn
      obtain ⟨n', hn', rfl⟩ := Option.map_eq_some_iff.mp hn
      rw [h2, List.length_cons, hI.counts k n' hn']
  held k b hb := by
    have hw := (h.grows hI.toLogsInv).2
    have old : b ∈ s.counted k → ∃ e, (s'.followers b).wal.stored k = some e := fun hb =>
      (hI.held k b hb).imp fun e he => hw b k e he
    rcases h.acks k with ⟨-, h2⟩ | ⟨-, h2⟩ | ⟨a, n, m, -, hm, hr, rfl, -, h2, -⟩ <;> rw [h2] at hb
    · exact old hb
    · exact absurd hb List.not_mem_nil
    · rcases List.mem_cons.mp hb with rfl | hb
      · have hyes := hI.replies m hr
        rw [hI.calls _ n m hm] at hyes
        exact ⟨m.entry, hw _ _ _ hyes⟩
      · exact old hb
  distinct k hk := by
    obtain ⟨c, hc, hphase⟩ := hk
    rcases h.acks k with ⟨-, h2⟩ | ⟨-, h2⟩ | ⟨a, n, m, rfl, hm, -, rfl, -, h2, hwrites⟩
    · rcases h.write_life hc with hc | ⟨i, hi, h0⟩ | ⟨i, -, -, -, -, hi⟩ | hno
      · rw [h2]
        exact hI.distinct k ⟨c, hc, hphase⟩
      · obtain rfl := WritePhase.waiting.inj (hphase.symm.trans hi)
        exact .inr (h0 ▸ List.nodup_nil)
      · rw [hphase] at hi
        cases hi
      · exact absurd hphase (hno k).1
    · exact .inr (h2 ▸ List.nodup_nil)
    · have hwait : s.Waiting m.logIndex := ⟨c, hwrites ▸ hc, hphase⟩
      rw [h2]
      rcases hok m hm hwait with hf | hnew
      · exact .inl hf
      · exact (hI.distinct _ hwait).imp_right fun hd => List.nodup_cons.mpr ⟨hnew, hd⟩
  ok c hc i hi := by
    rcases h.write_life hc with hc | ⟨j, hj, -⟩ | ⟨j, k, hw, hk, hq, hj⟩ | hno
    · exact (hI.ok c hc i hi).fires hI.toLogsInv h
    · rw [hi] at hj
      cases hj
    · obtain rfl := WritePhase.ok.inj (hi.symm.trans hj)
      exact (heldByMajority_of_acks hI hw hk hq).fires hI.toLogsInv h
    · exact absurd hi (hno i).2

/-- The leader and its followers at the start, with the logs they come up with. -/
abbrev start (w : Wal) (t : ChunkTable) (fs : Fin f → Wal) : SplitState f where
  wal := .ofWal w
  table := t
  followers a := { wal := .ofWal (fs a), persisted := (fs a).lastLogIndex }

theorem ackInv_start {w : Wal} {t : ChunkTable} {fs : Fin f → Wal}
    (h0 : ∀ a, (fs a).records <+: w.records) : AckInv (start w t fs) where
  index_le n c i h := by simp at h
  index_inj n n' c c' i h := by simp at h
  beyond i hi := by
    cases he : w.readEntry i with
    | none => exact he
    | some e => exact absurd (Wal.readEntry_le he).2 (not_le.mpr hi)
  unput n e i h := by simp at h
  logged n c i h := by simp at h
  sent m hm := absurd hm List.not_mem_nil
  calls a n m hm := by simp [callMsg] at hm
  copies a i e he := Wal.readEntry_of_prefix (h0 a) he
  handled h x hx := by simp at hx
  replies m hm := absurd hm List.not_mem_nil
  counts _ _ h := by simp at h
  held _ _ h := absurd h List.not_mem_nil
  distinct _ _ := .inr List.nodup_nil
  ok c hc := absurd hc List.not_mem_nil

end SplitState

section Majority

open SplitState

variable {f : ℕ} {w : Wal} {t : ChunkTable} {fs : Fin f → Wal}

/-- **An OK is on a majority**, in every run without a lost step: no call raises `last_index_` after
another one has raised it since the first one read it, no handler takes for a duplicate what it
cannot read, and (with three followers or more) no ack of a follower counts twice. -/
theorem ok_on_majority (h0 : ∀ a, (fs a).records <+: w.records) {tr : List (SplitStep f)}
    {s : SplitState f} (h : (splitAppends f).Run Undisturbed (start w t fs) tr s) {c : WriteCall}
    (hc : c ∈ s.writes) {i : ℕ} (hi : c.phase = .ok i) : s.HeldByMajority i c.entry :=
  (h.invariant_step (ackInv_start h0) fun _ _ _ hI hs hok => hI.fires (step_fires hs) hok).ok c hc i hi

/-- A write from its begin to the start of its threads. -/
def writeSteps (n : ℕ) (payload : Str) : List (SplitStep f) :=
  [.begin .deleteChunk payload, .raise n, .put n true, .register n]

/-- A handler that appends and answers. -/
def appendSteps (h : ℕ) (m : AppendMsg f) : List (SplitStep f) :=
  [.accept h m, .decide h, .raiseLast h, .store h true, .persist h, .answer h]

/-- Nothing is logged anywhere. -/
def empty (f : ℕ) : SplitState f := start {} Kv.empty fun _ => {}

theorem empty_aligned {f : ℕ} (a : Fin f) : ((fun _ => {}) a : Wal).records <+: ({} : Wal).records :=
  List.prefix_rfl

/-- Two followers acknowledge the first entry, which commits. -/
def twoAcksRun : List (SplitStep 3) :=
  writeSteps 0 ['a'] ++ appendSteps 0 (appendMsg (nth 0) 0 true 1 (deleteEntry ['a'])) ++
    appendSteps 1 (appendMsg (nth 2) 0 true 1 (deleteEntry ['a'])) ++
    [.reply (nth 0) 0 true, .reply (nth 2) 0 true, .commit 0]

def twoAcksState : SplitState 3 := (splitAppends 3).final Undisturbed (empty 3) twoAcksRun

theorem twoAcksState_run : (splitAppends 3).Run Undisturbed (empty 3) twoAcksRun twoAcksState :=
  Machine.run_final (by decide +kernel)

theorem ok_on_majority_twoAcks : twoAcksState.HeldByMajority 1 (deleteEntry ['a']) :=
  ok_on_majority (c := ⟨deleteEntry ['a'], .ok 1⟩) empty_aligned twoAcksState_run (by decide +kernel) rfl

/-- Of three followers only the first answers: it refuses the second entry, then says yes to the
first entry twice, to its own thread and to the catch-up. -/
def twiceAckedRun : List (SplitStep 3) :=
  writeSteps 0 ['a'] ++ writeSteps 1 ['b'] ++
    [.accept 0 (appendMsg (nth 0) 1 true 2 (deleteEntry ['b'])), .decide 0,
      .reply (nth 0) 1 false, .send (nth 0) 1] ++
    appendSteps 1 (appendMsg (nth 0) 0 true 1 (deleteEntry ['a'])) ++
    [.reply (nth 0) 0 true, .accept 2 (appendMsg (nth 0) 1 false 1 (deleteEntry ['a'])), .decide 2,
      .reply (nth 0) 1 true, .commit 0]

def twiceAckedState : SplitState 3 := (splitAppends 3).final (fun _ _ => True) (empty 3) twiceAckedRun

theorem twiceAckedState_reach : (splitAppends 3).Reach (empty 3) twiceAckedRun twiceAckedState :=
  Machine.run_final (by decide +kernel)

/-- Two of four nodes hold an entry whose write answered OK. -/
theorem one_follower_acks_twice : ¬ ∀ (f : ℕ) tr (s : SplitState f),
    (splitAppends f).Reach (empty f) tr s → ∀ c ∈ s.writes, ∀ i, c.phase = .ok i →
      s.HeldByMajority i c.entry := by
  intro h
  have hheld := h 3 _ _ twiceAckedState_reach ⟨deleteEntry ['a'], .ok 1⟩ (by decide +kernel) 1 rfl
  exact absurd hheld.2 (by decide +kernel)

/-- The only follower has raised its index for the entry and not put it yet when the call runs into
its deadline; the catch-up sends the entry again, and a second handler takes it for a duplicate. -/
def racedRun : List (SplitStep 1) :=
  writeSteps 0 ['a'] ++
    [.accept 0 (appendMsg (nth 0) 0 true 1 (deleteEntry ['a'])), .decide 0, .raiseLast 0,
      .fail (nth 0) 0, .send (nth 0) 0,
      .accept 1 (appendMsg (nth 0) 0 false 1 (deleteEntry ['a'])), .decide 1,
      .reply (nth 0) 0 true, .commit 0]

def racedState : SplitState 1 := (splitAppends 1).final (fun _ _ => True) (empty 1) racedRun

/-- **With a single follower too**: the write has answered OK and only the leader has the entry. -/
theorem raced_ok : (splitAppends 1).Reach (empty 1) racedRun racedState ∧
    ⟨deleteEntry ['a'], .ok 1⟩ ∈ racedState.writes ∧
      ∀ a, (racedState.followers a).wal.stored 1 = none :=
  ⟨Machine.run_final (by decide +kernel), by decide +kernel, by decide +kernel⟩

end Majority

end NimbusVault
