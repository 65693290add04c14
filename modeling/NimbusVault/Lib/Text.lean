import Mathlib.Data.List.Lex
import Mathlib.Data.List.TakeWhile
import Mathlib.Data.Char
import Mathlib.Tactic.Common
import Mathlib.Tactic.Linarith

/-!
# Lib.Text — numbers as text and as bytes

A byte string is a `List Char`.  The decimal printers and parsers follow the documented behaviour of
`std::to_string`, `std::stoull`, `std::stoi`, `printf("%0*llu")` and Python's `int`; the parsers return
`none` where these functions throw.  `beBytes` and `beNat` are fixed-width big-endian integers.
-/

namespace Lib.Text

/-! ### Printing -/

/-- `std::to_string` of an unsigned integer. -/
def decimal (n : ℕ) : List Char := Nat.toDigits 10 n

/-- `std::to_string` of a signed integer. -/
def decimalInt (z : ℤ) : List Char := if z < 0 then '-' :: decimal z.natAbs else decimal z.natAbs

/-- `printf("%0<w>llu", n)`. -/
def zeroPad (w n : ℕ) : List Char := (decimal n).leftpad w '0'

/-! ### Parsing -/

def isSpace (c : Char) : Bool := c = ' ' ∨ (9 ≤ c.toNat ∧ c.toNat ≤ 13)

/-- What `strtoul` and `strtol` scan: blanks, an optional sign, digits up to the first other
character.  `none` when there is no digit. -/
def scanInt (s : List Char) : Option (Bool × ℕ) :=
  let s := s.dropWhile isSpace
  let (neg, s) := match s with
    | '-' :: t => (true, t)
    | '+' :: t => (false, t)
    | _ => (false, s)
  let ds := s.takeWhile Char.isDigit
  if ds = [] then none else some (neg, Nat.ofDigitChars 10 ds 0)

/-- `std::stoull`: a minus sign negates modulo `2^64`, out-of-range magnitudes throw. -/
def stoull (s : List Char) : Option UInt64 := do
  let (neg, n) ← scanInt s
  if n < 2 ^ 64 then some (if neg then 0 - UInt64.ofNat n else UInt64.ofNat n) else none

/-- `std::stoi`: values outside `int` throw. -/
def stoi (s : List Char) : Option Int32 := do
  let (neg, n) ← scanInt s
  let z : ℤ := if neg then - n else n
  if -2 ^ 31 ≤ z ∧ z < 2 ^ 31 then some (Int32.ofInt z) else none

/-- `str.isspace` of an ASCII character: the separators `\x1c` to `\x1f` are blanks too. -/
def pyIsSpace (c : Char) : Bool := isSpace c ∨ (28 ≤ c.toNat ∧ c.toNat ≤ 31)

/-- Python's `int` of an ASCII text: blanks around a number, a sign, and digits that single
underscores may separate. -/
def pyInt (s : List Char) : Option ℤ :=
  let s := ((s.dropWhile pyIsSpace).reverse.dropWhile pyIsSpace).reverse
  let (neg, s) := match s with
    | '-' :: t => (true, t)
    | '+' :: t => (false, t)
    | _ => (false, s)
  let groups := s.splitOn '_'
  if groups.all fun g => g ≠ [] ∧ g.all Char.isDigit then
    let n := Nat.ofDigitChars 10 groups.flatten 0
    some (if neg then -n else n)
  else none

/-! ### Digits -/

theorem isDigit_of_mem_decimal {n : ℕ} {c : Char} (h : c ∈ decimal n) : c.isDigit :=
  Nat.isDigit_of_mem_toDigits (by decide) (by decide) h

theorem isDigit_of_mem_zeroPad {w n : ℕ} {c : Char} (h : c ∈ zeroPad w n) : c.isDigit := by
  rcases List.mem_append.mp h with h | h
  · rw [(List.mem_replicate.mp h).2]; decide
  · exact isDigit_of_mem_decimal h

/-- A separator does not occur in a number. -/
theorem not_mem_decimal {c : Char} (hc : c.isDigit = false) (n : ℕ) : c ∉ decimal n := fun h =>
  absurd (isDigit_of_mem_decimal h) (by simp [hc])

theorem not_mem_decimalInt {c : Char} (hc : c.isDigit = false) (hm : c ≠ '-') (z : ℤ) :
    c ∉ decimalInt z := by
  intro h
  unfold decimalInt at h
  split_ifs at h with hz
  · rcases List.mem_cons.mp h with h | h
    · exact hm h
    · exact not_mem_decimal hc _ h
  · exact not_mem_decimal hc _ h

theorem decimal_ne_nil (n : ℕ) : decimal n ≠ [] := Nat.toDigits_ne_nil

theorem isDigit_iff {c : Char} : c.isDigit ↔ 48 ≤ c.toNat ∧ c.toNat ≤ 57 := by
  rw [Char.isDigit_iff_toNat]; exact Iff.rfl

theorem zeroPad_ne_nil (w n : ℕ) : zeroPad w n ≠ [] := fun h =>
  decimal_ne_nil n (List.append_eq_nil_iff.mp h).2

theorem ofDigitChars_zeroPad (w n : ℕ) : Nat.ofDigitChars 10 (zeroPad w n) 0 = n := by
  simp [zeroPad, List.leftpad, Nat.ofDigitChars_append, decimal]

theorem zeroPad_injective (w : ℕ) : Function.Injective (zeroPad w) := fun a b h => by
  have hvalue := congrArg (Nat.ofDigitChars 10 · 0) h
  simpa only [ofDigitChars_zeroPad] using hvalue

theorem not_isDigit_of_isSpace {c : Char} (h : c.isDigit) : isSpace c = false := by
  rw [isDigit_iff] at h
  have h' : c ≠ ' ' := by rintro rfl; exact absurd h (by decide)
  simp [isSpace, h']
  omega

/-- Scanning a text that begins with a digit and holds digits only. -/
theorem scanInt_digits {s : List Char} (hs : s ≠ []) (hd : ∀ c ∈ s, c.isDigit) :
    scanInt s = some (false, Nat.ofDigitChars 10 s 0) := by
  obtain ⟨c, t, rfl⟩ := List.exists_cons_of_ne_nil hs
  have hc : c.isDigit := hd c (by simp)
  have hdrop : (c :: t).dropWhile isSpace = c :: t := by
    rw [List.dropWhile_cons, not_isDigit_of_isSpace hc]; rfl
  have htake : (c :: t).takeWhile Char.isDigit = c :: t := List.takeWhile_eq_self_iff.mpr hd
  have hm : c ≠ '-' := by rintro rfl; exact absurd hc (by decide)
  have hp : c ≠ '+' := by rintro rfl; exact absurd hc (by decide)
  unfold scanInt
  rw [hdrop]
  dsimp only
  split
  · rename_i heq; simp at heq; exact absurd heq.1 hm
  · rename_i heq; simp at heq; exact absurd heq.1 hp
  · simp [htake]

theorem stoull_digits {s : List Char} (hs : s ≠ []) (hd : ∀ c ∈ s, c.isDigit) {v : UInt64}
    (hv : Nat.ofDigitChars 10 s 0 = v.toNat) : stoull s = some v := by
  simp [stoull, scanInt_digits hs hd, hv, v.toNat_lt]

@[simp] theorem stoull_decimal (v : UInt64) : stoull (decimal v.toNat) = some v :=
  stoull_digits (decimal_ne_nil _) (fun _ => isDigit_of_mem_decimal) (by simp [decimal])

@[simp] theorem stoull_zeroPad (w : ℕ) (v : UInt64) : stoull (zeroPad w v.toNat) = some v :=
  stoull_digits (zeroPad_ne_nil _ _) (fun _ => isDigit_of_mem_zeroPad) (ofDigitChars_zeroPad w _)

theorem scanInt_decimalInt (z : ℤ) : scanInt (decimalInt z) = some (decide (z < 0), z.natAbs) := by
  have hd : ∀ c ∈ decimal z.natAbs, c.isDigit := fun _ => isDigit_of_mem_decimal
  unfold decimalInt
  split_ifs with hz
  · have htake : (decimal z.natAbs).takeWhile Char.isDigit = decimal z.natAbs :=
      List.takeWhile_eq_self_iff.mpr hd
    have hdrop : ('-' :: decimal z.natAbs).dropWhile isSpace = '-' :: decimal z.natAbs := by
      rw [List.dropWhile_cons]; rfl
    unfold scanInt
    rw [hdrop]
    simp [htake, decimal_ne_nil, hz]
    simp [decimal]
  · rw [scanInt_digits (decimal_ne_nil _) hd]
    simp [hz, decimal]

@[simp] theorem stoi_decimalInt (x : Int32) : stoi (decimalInt x.toInt) = some x := by
  have hlo : -2 ^ 31 ≤ x.toInt := x.minValue_le_toInt
  have hhi : x.toInt < 2 ^ 31 := x.toInt_lt
  have hz : (if decide (x.toInt < 0) then -(x.toInt.natAbs : ℤ) else x.toInt.natAbs) = x.toInt := by
    by_cases h : x.toInt < 0
    · rw [if_pos (by simpa using h)]; omega
    · rw [if_neg (by simpa using h)]; omega
  simp only [stoi, scanInt_decimalInt, Option.bind_eq_bind, Option.bind_some]
  rw [hz, if_pos ⟨hlo, hhi⟩, Int32.ofInt_toInt]

theorem dropWhile_pyIsSpace_digits {s : List Char} (hd : ∀ c ∈ s, c.isDigit) :
    s.dropWhile pyIsSpace = s := by
  cases s with
  | nil => rfl
  | cons c t =>
    have hc : c.isDigit := hd c List.mem_cons_self
    have hspace : pyIsSpace c = false := by
      rw [pyIsSpace, not_isDigit_of_isSpace hc]
      rw [isDigit_iff] at hc
      simp
      omega
    rw [List.dropWhile_cons, hspace]
    rfl

@[simp] theorem pyInt_decimal (n : ℕ) : pyInt (decimal n) = some n := by
  have hd : ∀ c ∈ decimal n, c.isDigit := fun _ => isDigit_of_mem_decimal
  have hdr : ∀ c ∈ (decimal n).reverse, c.isDigit := fun c hc => hd c (List.mem_reverse.mp hc)
  have hsplit : (decimal n).splitOn '_' = [decimal n] :=
    List.splitOn_eq_singleton (not_mem_decimal (by decide) n)
  have hm : ∀ t, decimal n ≠ '-' :: t := fun t ht =>
    not_mem_decimal (c := '-') (by decide) n (ht ▸ List.mem_cons_self)
  have hp : ∀ t, decimal n ≠ '+' :: t := fun t ht =>
    not_mem_decimal (c := '+') (by decide) n (ht ▸ List.mem_cons_self)
  unfold pyInt
  rw [dropWhile_pyIsSpace_digits hd, dropWhile_pyIsSpace_digits hdr, List.reverse_reverse]
  dsimp only
  split
  · rename_i t heq
    exact absurd heq (hm t)
  · rename_i t heq
    exact absurd heq (hp t)
  · dsimp only
    have hgroup : decimal n ≠ [] ∧ (decimal n).all Char.isDigit :=
      ⟨decimal_ne_nil n, List.all_eq_true.mpr hd⟩
    rw [hsplit, if_pos (by simpa using hgroup)]
    simp [decimal]

/-! ### Fixed-width decimals sort as numbers -/

theorem ofDigitChars_lt {s : List Char} (hd : ∀ c ∈ s, c.isDigit) :
    Nat.ofDigitChars 10 s 0 < 10 ^ s.length := by
  induction s with
  | nil => simp
  | cons c t ih =>
    have hc := isDigit_iff.mp (hd c (by simp))
    have ht := ih fun c hc => hd c (by simp [hc])
    rw [Nat.ofDigitChars_cons, Nat.ofDigitChars_eq_ofDigitChars_zero, List.length_cons, pow_succ]
    have h48 : '0'.toNat = 48 := rfl
    have hle : 10 * 0 + (c.toNat - '0'.toNat) ≤ 9 := by omega
    nlinarith [Nat.mul_le_mul_left (10 ^ t.length) hle]

/-- Digit strings of one length compare as the numbers they write. -/
theorem lt_of_ofDigitChars_lt : ∀ {s t : List Char}, s.length = t.length → (∀ c ∈ s, c.isDigit) →
    (∀ c ∈ t, c.isDigit) → Nat.ofDigitChars 10 s 0 < Nat.ofDigitChars 10 t 0 → s < t
  | [], [], _, _, _, h => absurd h (lt_irrefl _)
  | c :: s, d :: t, hl, hs, ht, h => by
    have hc := isDigit_iff.mp (hs c (by simp))
    have hd := isDigit_iff.mp (ht d (by simp))
    have hs' : ∀ c ∈ s, c.isDigit := fun c hc => hs c (by simp [hc])
    have ht' : ∀ c ∈ t, c.isDigit := fun c hc => ht c (by simp [hc])
    have hlen : s.length = t.length := by simpa using hl
    have hbs := ofDigitChars_lt hs'
    have hbt := ofDigitChars_lt ht'
    have h48 : '0'.toNat = 48 := rfl
    rw [Nat.ofDigitChars_cons, Nat.ofDigitChars_eq_ofDigitChars_zero, Nat.ofDigitChars_cons,
      Nat.ofDigitChars_eq_ofDigitChars_zero (l := t), ← hlen, h48] at h
    rw [List.cons_lt_cons_iff]
    rcases Nat.lt_trichotomy c.toNat d.toNat with hlt | heq | hgt
    · left
      simpa [Char.lt_def, UInt32.lt_iff_toNat_lt] using hlt
    · right
      have hcd : c = d := Char.toNat_inj.mp heq
      subst hcd
      exact ⟨rfl, lt_of_ofDigitChars_lt hlen hs' ht' (by omega)⟩
    · exfalso
      have hle : 10 * 0 + (d.toNat - 48) + 1 ≤ 10 * 0 + (c.toNat - 48) := by omega
      have := Nat.mul_le_mul_left (10 ^ s.length) hle
      rw [Nat.mul_add] at this
      rw [← hlen] at hbt
      omega

theorem length_zeroPad {w n : ℕ} (hw : 0 < w) (hn : n < 10 ^ w) : (zeroPad w n).length = w := by
  have h : (decimal n).length ≤ w := (Nat.length_toDigits_le_iff (by decide) hw).mpr hn
  simp [zeroPad, List.leftpad]
  omega

/-! ### Big-endian integers -/

/-- The `w` low bytes of `n`, most significant first. -/
def beBytes : ℕ → ℕ → List Char
  | 0, _ => []
  | w + 1, n => beBytes w (n / 256) ++ [Char.ofNat (n % 256)]

def beNat (bs : List Char) : ℕ := bs.foldl (fun acc c => 256 * acc + c.toNat) 0

theorem toNat_ofNat_byte {n : ℕ} (h : n < 256) : (Char.ofNat n).toNat = n := by
  have hv : n.isValidChar := Or.inl (by omega)
  rw [Char.ofNat, dif_pos hv]
  rfl

@[simp] theorem length_beBytes (w n : ℕ) : (beBytes w n).length = w := by
  induction w generalizing n with
  | zero => rfl
  | succ w ih => simp [beBytes, ih]

@[simp] theorem beNat_beBytes (w n : ℕ) : beNat (beBytes w n) = n % 256 ^ w := by
  induction w generalizing n with
  | zero => simp [beNat, beBytes, Nat.mod_one]
  | succ w ih =>
    have h := ih (n / 256)
    simp only [beNat] at h
    rw [beNat, beBytes, List.foldl_append, h]
    simp only [List.foldl_cons, List.foldl_nil, toNat_ofNat_byte (Nat.mod_lt n (by decide))]
    rw [pow_succ, Nat.mul_comm (256 ^ w) 256, Nat.mod_mul]
    omega

end Lib.Text
