import Mathlib.Data.List.Basic
import Mathlib.Tactic.Common

/-!
# Lib.Csv — reading comma-separated values

`Csv.step` is the automaton of Python's `csv.reader` in its default dialect, over a text with its line
ends as they are: fields stand between commas, a field that begins with a quote ends at the next
single one, and a record ends at LF, CR or CR LF outside of quotes.  `Csv.dictRows` and `Csv.cell` are
`csv.DictReader`: the first record names the columns.  `Csv.line` writes a record without quotes, and
`readAll_lines` says that the reader gets back what was written, where no field holds a special
character.
-/

namespace Lib.Csv

/-- `csv.field_size_limit()`. -/
def fieldLimit : ℕ := 131072

inductive Mode
  | startRecord
  | startField
  | inField
  | inQuotedField
  | quoteInQuotedField
  /-- A record ended by CR: an LF still belongs to its end. -/
  | afterCr
  deriving DecidableEq

/-- The field and the record that are being read, and the records so far. -/
structure Reader where
  mode : Mode := .startRecord
  field : List Char := []
  fields : List (List Char) := []
  rows : List (List (List Char)) := []
  deriving DecidableEq

namespace Reader

def saveField (r : Reader) (mode : Mode) : Reader :=
  { r with mode, field := [], fields := r.fields ++ [r.field] }

def endRecord (r : Reader) (c : Char) : Reader :=
  { mode := if c = '\r' then .afterCr else .startRecord, rows := r.rows ++ [r.fields] }

/-- One more character of a field, up to the limit. -/
def addChar (r : Reader) (mode : Mode) (c : Char) : Option Reader :=
  if r.field.length < fieldLimit then some { r with mode, field := r.field ++ [c] } else none

/-- The first character of a field. -/
def firstChar (r : Reader) (c : Char) : Option Reader :=
  if c = '"' then some { r with mode := .inQuotedField }
  else if c = ',' then some (r.saveField .startField)
  else r.addChar .inField c

def step (r : Reader) (c : Char) : Option Reader :=
  match r.mode with
  | .startRecord => if c = '\n' ∨ c = '\r' then some (r.endRecord c) else r.firstChar c
  | .afterCr =>
    if c = '\n' then some { r with mode := .startRecord }
    else if c = '\r' then some (r.endRecord c)
    else r.firstChar c
  | .startField =>
    if c = '\n' ∨ c = '\r' then some ((r.saveField .startRecord).endRecord c) else r.firstChar c
  | .inField =>
    if c = '\n' ∨ c = '\r' then some ((r.saveField .startRecord).endRecord c)
    else if c = ',' then some (r.saveField .startField)
    else r.addChar .inField c
  | .inQuotedField =>
    if c = '"' then some { r with mode := .quoteInQuotedField } else r.addChar .inQuotedField c
  | .quoteInQuotedField =>
    if c = '"' then r.addChar .inQuotedField c
    else if c = ',' then some (r.saveField .startField)
    else if c = '\n' ∨ c = '\r' then some ((r.saveField .startRecord).endRecord c)
    else r.addChar .inField c

/-- The end of the text ends a record that has begun. -/
def finish (r : Reader) : List (List (List Char)) :=
  match r.mode with
  | .startRecord => r.rows
  | .afterCr => r.rows
  | _ => r.rows ++ [r.fields ++ [r.field]]

end Reader

/-- All records of a text; `none` where the reader raises. -/
def readAll (text : List Char) : Option (List (List (List Char))) :=
  (text.foldlM Reader.step {}).map Reader.finish

/-- The records after the header, without the blank ones. -/
def dictRows (rows : List (List (List Char))) : List (List (List Char)) :=
  rows.tail.filter (· ≠ [])

/-- `row.get(key, default)`: the cell below the last column of that name, which is `none` in a record
that is too short. -/
def cell (header row : List (List Char)) (key default : List Char) : Option (List Char) :=
  match (header.zipIdx.filter fun p => p.1 = key).getLast? with
  | none => some default
  | some (_, i) => row[i]?

/-! ### Writing -/

/-- A record with its fields as they are. -/
def line (fields : List (List Char)) : List Char := List.intercalate [','] fields ++ ['\n']

/-- No character of the field means anything to the reader, and the field is not too long. -/
def Plain (f : List Char) : Prop :=
  f.length ≤ fieldLimit ∧ ∀ c ∈ f, c ≠ ',' ∧ c ≠ '"' ∧ c ≠ '\n' ∧ c ≠ '\r'

-- the quantifier runs over the field, not over all characters
instance (f : List Char) : Decidable (Plain f) :=
  @instDecidableAnd _ _ (Nat.decLe _ _) (List.decidableBAll _ f)

section Read

variable {f g : List Char} {fs : List (List Char)} {rows : List (List (List Char))} {mode : Mode}

/-- The characters of a plain field are added one by one. -/
theorem foldlM_inField (hlen : g.length + f.length ≤ fieldLimit)
    (hf : ∀ c ∈ f, c ≠ ',' ∧ c ≠ '"' ∧ c ≠ '\n' ∧ c ≠ '\r') :
    f.foldlM Reader.step ⟨.inField, g, fs, rows⟩ = some ⟨.inField, g ++ f, fs, rows⟩ := by
  induction f generalizing g with
  | nil => simp
  | cons c f ih =>
    obtain ⟨hcomma, -, hlf, hcr⟩ := hf c List.mem_cons_self
    rw [List.length_cons] at hlen
    have hroom : g.length < fieldLimit := by omega
    have hstep : Reader.step ⟨.inField, g, fs, rows⟩ c = some ⟨.inField, g ++ [c], fs, rows⟩ := by
      simp [Reader.step, hcomma, hlf, hcr, Reader.addChar, hroom]
    have hlen' : (g ++ [c]).length + f.length ≤ fieldLimit := by
      simp only [List.length_append, List.length_singleton]
      omega
    rw [List.foldlM_cons, hstep, Option.bind_eq_bind, Option.bind_some,
      ih hlen' fun d hd => hf d (List.mem_cons_of_mem c hd)]
    simp

/-- From the start of a field, a plain one leaves the reader there or inside it. -/
theorem foldlM_field (hmode : mode = .startRecord ∨ mode = .startField) (hf : Plain f) (hne : f ≠ []) :
    f.foldlM Reader.step ⟨mode, [], fs, rows⟩ = some ⟨.inField, f, fs, rows⟩ := by
  obtain ⟨c, f, rfl⟩ := List.exists_cons_of_ne_nil hne
  obtain ⟨hlen, hplain⟩ := hf
  obtain ⟨hcomma, hquote, hlf, hcr⟩ := hplain c List.mem_cons_self
  have hstep : Reader.step ⟨mode, [], fs, rows⟩ c = some ⟨.inField, [c], fs, rows⟩ := by
    rcases hmode with rfl | rfl <;>
      simp [Reader.step, hlf, hcr, Reader.firstChar, hcomma, hquote, Reader.addChar, fieldLimit]
  rw [List.length_cons] at hlen
  have hlen' : [c].length + f.length ≤ fieldLimit := by
    rw [List.length_singleton]
    omega
  rw [List.foldlM_cons, hstep, Option.bind_eq_bind, Option.bind_some,
    foldlM_inField hlen' fun d hd => hplain d (List.mem_cons_of_mem c hd)]
  rfl

/-- A plain field that is followed by a comma. -/
theorem foldlM_comma (hmode : mode = .startRecord ∨ mode = .startField) (hf : Plain f) :
    (f ++ [',']).foldlM Reader.step ⟨mode, [], fs, rows⟩ = some ⟨.startField, [], fs ++ [f], rows⟩ := by
  rw [List.foldlM_append]
  by_cases hne : f = []
  · subst hne
    rcases hmode with rfl | rfl <;> simp [Reader.step, Reader.firstChar, Reader.saveField]
  · rw [foldlM_field hmode hf hne]
    simp [Reader.step, Reader.saveField]

/-- The last field of a record. -/
theorem foldlM_lf (hf : Plain f) : (f ++ ['\n']).foldlM Reader.step ⟨.startField, [], fs, rows⟩ =
    some ⟨.startRecord, [], [], rows ++ [fs ++ [f]]⟩ := by
  rw [List.foldlM_append]
  by_cases hne : f = []
  · subst hne
    simp [Reader.step, Reader.saveField, Reader.endRecord]
  · rw [foldlM_field (.inr rfl) hf hne]
    simp [Reader.step, Reader.saveField, Reader.endRecord]

/-- A written record, from its second field on. -/
theorem foldlM_fields : ∀ {fs gs : List (List Char)} {f : List Char}, (∀ g ∈ f :: gs, Plain g) →
    (line (f :: gs)).foldlM Reader.step ⟨.startField, [], fs, rows⟩ =
      some ⟨.startRecord, [], [], rows ++ [fs ++ f :: gs]⟩
  | fs, [], f, h => by
    have hline : line [f] = f ++ ['\n'] := by simp [line]
    rw [hline, foldlM_lf (h f (by simp))]
  | fs, g :: gs, f, h => by
    have hline : line (f :: g :: gs) = (f ++ [',']) ++ line (g :: gs) := by
      simp [line, List.intercalate]
    rw [hline, List.foldlM_append, foldlM_comma (.inr rfl) (h f (by simp)), Option.bind_eq_bind,
      Option.bind_some, foldlM_fields fun g' hg' => h g' (List.mem_cons_of_mem f hg')]
    simp

/-- A written record of two or more fields. -/
theorem foldlM_line {gs : List (List Char)} (h : ∀ g' ∈ f :: g :: gs, Plain g') :
    (line (f :: g :: gs)).foldlM Reader.step ⟨.startRecord, [], [], rows⟩ =
      some ⟨.startRecord, [], [], rows ++ [f :: g :: gs]⟩ := by
  have hline : line (f :: g :: gs) = (f ++ [',']) ++ line (g :: gs) := by
    simp [line, List.intercalate]
  rw [hline, List.foldlM_append, foldlM_comma (.inl rfl) (h f (by simp)), Option.bind_eq_bind,
    Option.bind_some, foldlM_fields fun g' hg' => h g' (List.mem_cons_of_mem f hg')]
  simp

/-- **What was written is read back**, if every record has two or more fields, all plain. -/
theorem readAll_lines {records : List (List (List Char))}
    (h : ∀ fs ∈ records, 2 ≤ fs.length ∧ ∀ f ∈ fs, Plain f) :
    readAll (records.flatMap line) = some records := by
  have hread : ∀ rows, (records.flatMap line).foldlM Reader.step ⟨.startRecord, [], [], rows⟩ =
      some ⟨.startRecord, [], [], rows ++ records⟩ := by
    induction records with
    | nil => simp
    | cons fs records ih =>
      intro rows
      obtain ⟨hlen, hplain⟩ := h fs List.mem_cons_self
      match fs, hlen, hplain with
      | f :: g :: gs, _, hplain =>
        rw [List.flatMap_cons, List.foldlM_append, foldlM_line hplain, Option.bind_eq_bind,
          Option.bind_some, ih fun gs hgs => h gs (List.mem_cons_of_mem _ hgs)]
        simp
  rw [readAll, hread []]
  rfl

end Read

end Lib.Csv
