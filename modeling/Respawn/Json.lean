import Respawn.ByteStr

/-!
# Flat JSON objects

A record of strings, numbers and optional strings is a JSON object whose values
are strings, numbers and `null`.  `print` writes such an object without white
space, as compact printers do: a string is put in quotes, quotes, backslashes
and control characters in it are escaped, and all other bytes stand for
themselves.  `parse` reads back what `print` writes (`parse_print`), so a
string cannot end early and pass its rest off as further members.

A derived reader of a record looks for its fields among the members of an
object: members it does not know are skipped, a field given twice is refused,
and so is one that is not there, unless it is optional.  It finds nothing in an
object without the field's name (`textField_missing`, `numField_missing`).
-/

namespace Json

open ByteStr

/-- The values of a flat object. -/
inductive Value
  | null
  | num (n : Nat)
  | text (s : Bytes)
  deriving DecidableEq

/-- A member: its name and its value. -/
abbrev Member := Bytes × Value

/-! ## Printing -/

/-- The letter that stands for a byte behind a backslash. -/
def letter (b : UInt8) : Option UInt8 :=
  if b = 34 ∨ b = 92 then some b
  else if b = 8 then some 98
  else if b = 9 then some 116
  else if b = 10 then some 110
  else if b = 12 then some 102
  else if b = 13 then some 114
  else none

/-- A byte in a string. -/
def escape (b : UInt8) : Bytes :=
  match letter b with
  | some e => [92, e]
  | none =>
      if b < 32 then [92, 117, 48, 48, hexDigit (b.toNat / 16), hexDigit (b.toNat % 16)] else [b]

def printText (s : Bytes) : Bytes := 34 :: (s.flatMap escape ++ [34])

def printValue : Value → Bytes
  | .null => str "null"
  | .num n => decimal n
  | .text s => printText s

def printMember (m : Member) : Bytes := printText m.1 ++ 58 :: printValue m.2

/-- Members with commas between them, and the closing brace. -/
def printMembers : List Member → Bytes
  | [] => [125]
  | [m] => printMember m ++ [125]
  | m :: rest => printMember m ++ 44 :: printMembers rest

/-- An object on one line. -/
def print (ms : List Member) : Bytes := 123 :: printMembers ms

/-! ## Parsing -/

/-- What a letter behind a backslash stands for. -/
def unescape (e : UInt8) : Option UInt8 :=
  if e = 34 ∨ e = 92 ∨ e = 47 then some e
  else if e = 98 then some 8
  else if e = 116 then some 9
  else if e = 110 then some 10
  else if e = 102 then some 12
  else if e = 114 then some 13
  else none

/-- The character that four hexadecimal digits denote, in UTF-8; halves of a
surrogate pair are refused. -/
def codeUnit (a b c d : UInt8) : Option Bytes :=
  match hexValue a, hexValue b, hexValue c, hexValue d with
  | some a, some b, some c, some d =>
      let n := ((a * 16 + b) * 16 + c) * 16 + d
      if 0xD800 ≤ n ∧ n < 0xE000 then none else some (String.utf8EncodeChar (Char.ofNat n))
  | _, _, _, _ => none

/-- Put bytes in front of a string that was read. -/
def before (bs : Bytes) (r : Option (Bytes × Bytes)) : Option (Bytes × Bytes) :=
  r.map fun p => (bs ++ p.1, p.2)

/-- An escape behind its backslash, and what follows it. -/
def readEscape : Bytes → Option (Bytes × Bytes)
  | [] => none
  | e :: more =>
      if e = 117 then
        match more with
        | h3 :: h2 :: h1 :: h0 :: tail => (codeUnit h3 h2 h1 h0).map fun bs => (bs, tail)
        | _ => none
      else (unescape e).map fun c => ([c], more)

/-- A string of fewer than `k` characters behind its opening quote, and what
follows it. -/
def readText : Nat → Bytes → Option (Bytes × Bytes)
  | 0, _ => none
  | _ + 1, [] => none
  | k + 1, b :: rest =>
      if b = 34 then some ([], rest)
      else if b = 92 then
        match readEscape rest with
        | some (bs, tail) => before bs (readText k tail)
        | none => none
      else if b < 32 then none
      else before [b] (readText k rest)

def isDigit (b : UInt8) : Bool := decide (48 ≤ b ∧ b ≤ 57)

/-- A value, and what follows it. -/
def readValue : Bytes → Option (Value × Bytes)
  | [] => none
  | b :: rest =>
      if b = 34 then (readText rest.length rest).map fun p => (.text p.1, p.2)
      else if isDigit b then
        some (.num (digitsValue ((b :: rest).takeWhile isDigit)), (b :: rest).dropWhile isDigit)
      else if (str "null").isPrefixOf (b :: rest) then some (.null, rest.drop 3)
      else none

/-- The rest of the text behind a byte that has to be there. -/
def expect (b : UInt8) : Bytes → Option Bytes
  | [] => none
  | c :: rest => if c = b then some rest else none

def readMember (s : Bytes) : Option (Member × Bytes) := do
  let quoted ← expect 34 s
  let (name, colon) ← readText quoted.length quoted
  let behind ← expect 58 colon
  let (value, rest) ← readValue behind
  pure ((name, value), rest)

/-- Members up to the closing brace, `k` of them at most. -/
def readMembers : Nat → Bytes → Option (List Member)
  | 0, _ => none
  | k + 1, s =>
      match readMember s with
      | none => none
      | some (m, rest) =>
          if rest = [125] then some [m]
          else match expect 44 rest with
            | none => none
            | some more => (readMembers k more).map fun ms => m :: ms

/-- An object on one line; there are fewer members than bytes. -/
def parse (s : Bytes) : Option (List Member) :=
  match expect 123 s with
  | none => none
  | some rest => if rest = [125] then some [] else readMembers rest.length rest

/-! ## What is printed is parsed -/

@[simp] theorem before_some (bs s rest : Bytes) :
    before bs (some (s, rest)) = some (bs ++ s, rest) := rfl

/-- An escaped letter is read back, and is no code point. -/
theorem unescape_letter {b e : UInt8} (h : letter b = some e) :
    unescape e = some b ∧ e ≠ 117 := by
  unfold letter at h
  split at h
  · case isTrue hself =>
      cases h
      rcases hself with rfl | rfl <;> decide
  · repeat' split at h
    all_goals first | (cases h; simp_all [unescape]) | simp at h

/-- A quote and a backslash are escaped. -/
theorem plain_of_letter {b : UInt8} (h : letter b = none) : b ≠ 34 ∧ b ≠ 92 := by
  refine not_or.mp ?_
  intro hbad
  rw [letter, if_pos hbad] at h
  cases h

/-- An escaped byte is read as the byte. -/
theorem readText_escape (b : UInt8) (k : Nat) (rest : Bytes) :
    readText (k + 1) (escape b ++ rest) = before [b] (readText k rest) := by
  have hcontrol : ∀ n < 32, codeUnit 48 48 (hexDigit (n / 16)) (hexDigit (n % 16)) =
      some [UInt8.ofNat n] := by decide
  unfold escape
  cases hletter : letter b with
  | some e =>
      obtain ⟨hback, hu⟩ := unescape_letter hletter
      simp [readText, readEscape, hback, hu]
  | none =>
      obtain ⟨hquote, hslash⟩ := plain_of_letter hletter
      by_cases hlow : b < 32
      · have hn : b.toNat < 32 := by simpa [UInt8.lt_iff_toNat_lt] using hlow
        have hunit := hcontrol b.toNat hn
        rw [UInt8.ofNat_toNat] at hunit
        simp [readText, readEscape, hlow, hunit]
      · simp [readText, hquote, hslash, hlow]

/-- A text is read back from its escapes. -/
theorem readText_printed {s rest : Bytes} {k : Nat} (hk : s.length < k) :
    readText k (s.flatMap escape ++ 34 :: rest) = some (s, rest) := by
  induction s generalizing k with
  | nil =>
      cases k with
      | zero => cases hk
      | succ k => simp [readText]
  | cons b more ih =>
      cases k with
      | zero => cases hk
      | succ k =>
          rw [List.flatMap_cons, List.append_assoc, readText_escape,
            ih (Nat.lt_of_succ_lt_succ hk)]
          rfl

/-- An escaped byte takes up at least one. -/
theorem one_le_length_escape (b : UInt8) : 1 ≤ (escape b).length := by
  unfold escape
  split
  · simp
  · split <;> simp

/-- A string has no more bytes than its printed form. -/
theorem length_le_printed (s : Bytes) : s.length ≤ (s.flatMap escape).length := by
  induction s with
  | nil => exact le_rfl
  | cons b more ih =>
      have hone := one_le_length_escape b
      rw [List.flatMap_cons, List.length_append, List.length_cons]
      omega

/-- A printed string is read to its closing quote. -/
theorem readText_whole (s rest : Bytes) :
    readText (s.flatMap escape ++ 34 :: rest).length (s.flatMap escape ++ 34 :: rest) =
      some (s, rest) := by
  apply readText_printed
  have hlen := length_le_printed s
  rw [List.length_append, List.length_cons]
  omega

/-- What follows a number must not look like its continuation. -/
def Stops (rest : Bytes) : Prop := ∀ b ∈ rest.head?, isDigit b = false

/-- A value is read back from what was printed. -/
theorem readValue_printed (v : Value) {rest : Bytes} (hrest : Stops rest) :
    readValue (printValue v ++ rest) = some (v, rest) := by
  cases v with
  | null => rfl
  | text s =>
      have hshape : printValue (.text s) ++ rest = 34 :: (s.flatMap escape ++ 34 :: rest) := by
        simp [printValue, printText]
      rw [hshape, readValue, if_pos rfl, readText_whole]
      rfl
  | num n =>
      have hdigit : ∀ b ∈ decimal n, isDigit b = true := by
        intro b hb
        exact decide_eq_true (decimal_digit hb)
      have htake : (decimal n ++ rest).takeWhile isDigit = decimal n := by
        rw [List.takeWhile_append_of_pos hdigit]
        cases rest with
        | nil => simp
        | cons c more =>
            rw [List.takeWhile_cons_of_neg (by simp [hrest c rfl]), List.append_nil]
      have hdrop : (decimal n ++ rest).dropWhile isDigit = rest := by
        rw [List.dropWhile_append_of_pos hdigit]
        cases rest with
        | nil => rfl
        | cons c more => rw [List.dropWhile_cons_of_neg (by simp [hrest c rfl])]
      have hvalue : digitsValue (decimal n) = n := digitsValue_decimalAux (by omega)
      have hquote : isDigit 34 = false := by decide
      rw [printValue]
      cases hd : decimal n with
      | nil => exact absurd hd (decimal_ne_nil n)
      | cons b more =>
          have hb : isDigit b = true := hdigit b (by rw [hd]; exact List.mem_cons_self)
          have hne : b ≠ 34 := by
            rintro rfl
            rw [hquote] at hb
            cases hb
          rw [hd] at htake hdrop hvalue
          rw [List.cons_append] at htake hdrop ⊢
          rw [readValue, if_neg hne, if_pos hb, htake, hdrop, hvalue]

/-- So is a member. -/
theorem readMember_printed (m : Member) {rest : Bytes} (hrest : Stops rest) :
    readMember (printMember m ++ rest) = some (m, rest) := by
  have hshape : printMember m ++ rest =
      34 :: (m.1.flatMap escape ++ 34 :: 58 :: (printValue m.2 ++ rest)) := by
    simp [printMember, printText]
  rw [hshape]
  simp only [readMember, expect, if_true, Option.bind_eq_bind, Option.bind_some, readText_whole,
    readValue_printed m.2 hrest, Option.pure_def]

/-- There are fewer members than bytes. -/
theorem length_lt_printMembers (ms : List Member) : ms.length < (printMembers ms).length := by
  induction ms with
  | nil => decide
  | cons m rest ih =>
      cases rest with
      | nil =>
          simp only [printMembers, List.length_append, List.length_cons, List.length_nil,
            printMember]
          omega
      | cons m' more =>
          simp only [printMembers, List.length_append, List.length_cons] at ih ⊢
          omega

/-- So are the members of an object. -/
theorem readMembers_printed {ms : List Member} (hms : ms ≠ []) {k : Nat} (hk : ms.length ≤ k) :
    readMembers k (printMembers ms) = some ms := by
  have hbrace : Stops [125] := by
    rintro b ⟨⟩
    decide
  induction ms generalizing k with
  | nil => exact absurd rfl hms
  | cons m rest ih =>
      cases k with
      | zero => cases hk
      | succ k =>
          cases rest with
          | nil =>
              rw [printMembers, readMembers, readMember_printed m hbrace]
              rfl
          | cons m' more =>
              have hcomma : Stops (44 :: printMembers (m' :: more)) := by
                rintro b ⟨⟩
                decide
              have hmore := ih (by simp) (Nat.le_of_succ_le_succ hk)
              have hne : (44 : UInt8) :: printMembers (m' :: more) ≠ [125] := by
                intro heq
                exact absurd (List.cons.inj heq).1 (by decide)
              rw [printMembers, readMembers, readMember_printed m hcomma]
              simp only [if_neg hne, expect, if_true, hmore, Option.map_some]
              · simp

/-- **What is printed is parsed.** -/
theorem parse_print (ms : List Member) : parse (print ms) = some ms := by
  rw [print, parse, expect, if_pos rfl]
  cases ms with
  | nil => rfl
  | cons m rest =>
      have hlen := length_lt_printMembers (m :: rest)
      have hne : printMembers (m :: rest) ≠ [125] := by
        intro heq
        rw [heq] at hlen
        simp at hlen
      simp only [if_neg hne]
      exact readMembers_printed (by simp) hlen.le

/-! ## Derived readers -/

/-- The value of a field: `none` when it is given twice, and no value when it
is not there. -/
def field (name : Bytes) (ms : List Member) : Option (Option Value) :=
  match ms.filter fun m => m.1 = name with
  | [] => some none
  | [m] => some (some m.2)
  | _ => none

/-- A field that is a string. -/
def textField (name : Bytes) (ms : List Member) : Option Bytes :=
  match field name ms with
  | some (some (.text s)) => some s
  | _ => none

/-- A field that is a number below `bound`. -/
def numField (bound : Nat) (name : Bytes) (ms : List Member) : Option Nat :=
  match field name ms with
  | some (some (.num n)) => if n < bound then some n else none
  | _ => none

/-- A field that may be a string, or `null`, or not there. -/
def textOption (name : Bytes) (ms : List Member) : Option (Option Bytes) :=
  match field name ms with
  | some none => some none
  | some (some .null) => some none
  | some (some (.text s)) => some (some s)
  | _ => none

/-- A member that is not there is not found. -/
theorem field_missing {name : Bytes} {ms : List Member} (h : name ∉ ms.map Prod.fst) :
    field name ms = some none := by
  have hnone : (ms.filter fun m => m.1 = name) = [] := by
    rw [List.filter_eq_nil_iff]
    intro m hm heq
    exact h (List.mem_map.mpr ⟨m, hm, of_decide_eq_true heq⟩)
  rw [field, hnone]

/-- A string that is required is missed. -/
theorem textField_missing {name : Bytes} {ms : List Member} (h : name ∉ ms.map Prod.fst) :
    textField name ms = none := by
  rw [textField, field_missing h]

/-- A number that is required is missed. -/
theorem numField_missing {bound : Nat} {name : Bytes} {ms : List Member}
    (h : name ∉ ms.map Prod.fst) : numField bound name ms = none := by
  rw [numField, field_missing h]

end Json
