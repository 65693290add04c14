import Mathlib.Data.List.Basic
import Mathlib.Tactic.Common

/-!
# Lib.Scan — reading a memory from a moving place

A `Scan` reads cells of a memory at its place and moves on, and may fail.  Nothing stops it at the
end of the buffer that it is meant to read: the cursor keeps every read (its place and its length),
and `Cursor.Within` says that they all lie in the buffer.  `Follows` compares a scan with a parser on
lists, which has nothing behind the end of its list: from a place with enough cells before the end,
the scan stays in the buffer and finds what the parser finds.  `ReadOnly` scans leave the state of
their client alone and forget no read.
-/

namespace Lib

variable {β σ ε α γ : Type}

/-- The place in the memory, the reads so far, and the client's state. -/
structure Cursor (σ : Type) where
  off : ℕ
  reads : List (ℕ × ℕ)
  state : σ

/-- All reads lie in the first `n` cells. -/
def Cursor.Within (c : Cursor σ) (n : ℕ) : Prop := ∀ r ∈ c.reads, r.1 + r.2 ≤ n

/-- A program that reads at its place, and goes on or fails. -/
structure Scan (σ ε α : Type) where
  run : Cursor σ → Except ε α × Cursor σ

namespace Scan

/-- What follows a failure is not run. -/
def andThen (m : Scan σ ε α) (f : α → Scan σ ε γ) : Scan σ ε γ :=
  ⟨fun c =>
    match m.run c with
    | (.error e, c) => (.error e, c)
    | (.ok x, c) => (f x).run c⟩

instance : Monad (Scan σ ε) where
  pure x := ⟨fun c => (.ok x, c)⟩
  bind := andThen

def lift (r : Except ε α) : Scan σ ε α := ⟨fun c => (r, c)⟩

/-- The next `k` cells, wherever they lie. -/
def cells (mem : ℕ → β) (k : ℕ) : Scan σ ε (List β) :=
  ⟨fun c => (.ok ((List.range k).map fun i => mem (c.off + i)),
    { c with off := c.off + k, reads := c.reads ++ [(c.off, k)] })⟩

/-- Fail unless there are `k` more cells before the end of a buffer of `n`. -/
def need (n k : ℕ) (e : ε) : Scan σ ε Unit :=
  ⟨fun c => if c.off + k > n then (.error e, c) else (.ok (), c)⟩

/-- Change the client's state, and end with `x`. -/
def commit (f : σ → σ) (x : α) : Scan σ ε α := ⟨fun c => (.ok x, { c with state := f c.state })⟩

section Bind

variable {m : Scan σ ε α} {f : α → Scan σ ε γ} {c c' : Cursor σ}

theorem run_bind : (m >>= f).run c =
    match m.run c with
    | (Except.error e, c) => (Except.error e, c)
    | (Except.ok x, c) => (f x).run c := rfl

theorem run_bind_ok {x : α} (h : m.run c = (.ok x, c')) : (m >>= f).run c = (f x).run c' := by
  rw [run_bind, h]

theorem run_bind_error {e : ε} (h : m.run c = (.error e, c')) :
    (m >>= f).run c = (.error e, c') := by
  rw [run_bind, h]

end Bind

/-! ### Scans that only read -/

def ReadOnly (m : Scan σ ε α) : Prop :=
  ∀ c, c.reads <+: (m.run c).2.reads ∧ (m.run c).2.state = c.state

section ReadOnly

variable {m : Scan σ ε α} {f : α → Scan σ ε γ}

theorem ReadOnly.bind (hm : ReadOnly m) (hf : ∀ x, ReadOnly (f x)) : ReadOnly (m >>= f) := by
  intro c
  obtain ⟨hr, hs⟩ := hm c
  cases hmc : m.run c with
  | mk r c' =>
    rw [hmc] at hr hs
    cases r with
    | error e =>
      rw [run_bind_error hmc]
      exact ⟨hr, hs⟩
    | ok x =>
      rw [run_bind_ok hmc]
      exact ⟨hr.trans (hf x c').1, (hf x c').2.trans hs⟩

theorem ReadOnly.pure (x : α) : ReadOnly (Pure.pure x : Scan σ ε α) :=
  fun _ => ⟨List.prefix_rfl, rfl⟩

theorem ReadOnly.lift (r : Except ε α) : ReadOnly (Scan.lift r : Scan σ ε α) :=
  fun _ => ⟨List.prefix_rfl, rfl⟩

theorem ReadOnly.cells (mem : ℕ → β) (k : ℕ) : ReadOnly (Scan.cells mem k : Scan σ ε (List β)) :=
  fun _ => ⟨List.prefix_append _ _, rfl⟩

theorem ReadOnly.need (n k : ℕ) (e : ε) : ReadOnly (Scan.need n k e : Scan σ ε Unit) := by
  intro c
  unfold Scan.need
  dsimp only
  split_ifs <;> exact ⟨List.prefix_rfl, rfl⟩

end ReadOnly

/-! ### Scans that follow a parser -/

/-- The first `n` cells. -/
def buffer (mem : ℕ → β) (n : ℕ) : List β := (List.range n).map mem

/-- The outcome of a scan that has stayed in the buffer is that of a parser. -/
structure Lands (mem : ℕ → β) (n : ℕ) (r : Except ε (α × List β)) (out : Except ε α × Cursor σ) :
    Prop where
  off_le : out.2.off ≤ n
  within : out.2.Within n
  result : r = out.1.map fun x => (x, (buffer mem n).drop out.2.off)

/-- From a place with `k` cells before the end of the buffer, `m` does what `p` does with what is
left of the buffer. -/
def Follows (mem : ℕ → β) (n k : ℕ) (m : Scan σ ε α) (p : List β → Except ε (α × List β)) : Prop :=
  ∀ c, c.off + k ≤ n → c.Within n → Lands mem n (p ((buffer mem n).drop c.off)) (m.run c)

section Follows

variable {mem : ℕ → β} {n k j off : ℕ} {m : Scan σ ε α} {f : α → Scan σ ε γ}
  {p : List β → Except ε (α × List β)} {q : α → List β → Except ε (γ × List β)}

theorem length_buffer : (buffer mem n).length = n := by simp [buffer]

/-- The next cells are the front of what is left. -/
theorem take_drop_buffer (h : off + k ≤ n) :
    ((buffer mem n).drop off).take k = (List.range k).map fun i => mem (off + i) := by
  refine List.ext_getElem (by simp [length_buffer]; omega) fun i h1 h2 => ?_
  simp [buffer]

theorem Follows.congr {p' : List β → Except ε (α × List β)} (h : Follows mem n k m p)
    (hp : ∀ s, p' s = p s) : Follows mem n k m p' := by
  intro c hoff hc
  rw [hp]
  exact h c hoff hc

theorem Follows.pure (x : α) : Follows mem n 0 (Pure.pure x : Scan σ ε α) fun s => .ok (x, s) :=
  fun _ hoff hc => ⟨hoff, hc, rfl⟩

theorem Follows.lift_error (e : ε) :
    Follows mem n k (Scan.lift (.error e) : Scan σ ε α) fun _ => .error e :=
  fun c hoff hc => ⟨Nat.le_trans (Nat.le_add_right c.off k) hoff, hc, rfl⟩

theorem Follows.bind (hm : Follows mem n k m p) (hf : ∀ x, Follows mem n 0 (f x) (q x)) :
    Follows mem n k (m >>= f) fun s => p s >>= fun y => q y.1 y.2 := by
  intro c hoff hc
  obtain ⟨hoff', hc', hp⟩ := hm c hoff hc
  dsimp only
  rw [hp]
  cases hmc : m.run c with
  | mk r c' =>
    rw [hmc] at hoff' hc'
    cases r with
    | error e =>
      rw [run_bind_error hmc]
      exact ⟨hoff', hc', rfl⟩
    | ok x =>
      rw [run_bind_ok hmc]
      exact hf x c' hoff' hc'

theorem Follows.lift_bind {r : Except ε α} (hf : ∀ x, Follows mem n 0 (f x) (q x)) :
    Follows mem n 0 (Scan.lift r >>= f) fun s => r >>= fun x => q x s := by
  intro c hoff hc
  cases r with
  | error e => exact ⟨hoff, hc, rfl⟩
  | ok x => exact hf x c hoff hc

/-- Reading cells that are there. -/
theorem Follows.cells_bind {f : List β → Scan σ ε γ} {q : List β → List β → Except ε (γ × List β)}
    (hf : ∀ x, Follows mem n k (f x) (q x)) :
    Follows mem n (j + k) (Scan.cells mem j >>= f) fun s => q (s.take j) (s.drop j) := by
  intro c hoff hc
  have hle : c.off + j ≤ n := by omega
  have hwithin : Cursor.Within { c with off := c.off + j, reads := c.reads ++ [(c.off, j)] } n := by
    intro r hr
    rcases List.mem_append.mp hr with hr | hr
    · exact hc r hr
    · rw [List.mem_singleton.mp hr]
      exact hle
  dsimp only
  rw [take_drop_buffer hle, List.drop_drop]
  exact hf _ _ (by dsimp only; omega) hwithin

theorem Follows.cells : Follows mem n j (Scan.cells mem j : Scan σ ε (List β)) fun s =>
    .ok (s.take j, s.drop j) := by
  intro c hoff hc
  exact Follows.cells_bind (k := 0) (fun x => Follows.pure x) c hoff hc

/-- Cells that were asked for are there. -/
theorem Follows.need_bind {e : ε} {f : Unit → Scan σ ε γ} {q : List β → Except ε (γ × List β)}
    (hf : Follows mem n j (f ()) q) :
    Follows mem n 0 (Scan.need n j e >>= f) fun s => if s.length < j then .error e else q s := by
  intro c hoff hc
  have hlen : ((buffer mem n).drop c.off).length = n - c.off := by
    rw [List.length_drop, length_buffer]
  dsimp only
  by_cases hj : c.off + j > n
  · have hrun : (Scan.need n j e).run c = (.error e, c) := if_pos hj
    rw [run_bind_error hrun, if_pos (by omega)]
    exact ⟨hoff, hc, rfl⟩
  · have hrun : (Scan.need n j e).run c = (.ok (), c) := if_neg hj
    rw [run_bind_ok hrun, if_neg (by omega)]
    exact hf c (Nat.not_lt.mp hj) hc

end Follows

end Scan

end Lib
