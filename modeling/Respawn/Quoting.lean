import Respawn.ByteStr

/-!
# Reading quoted text

Two languages in which one string can stand inside another, as their readers
see it.

`Shell.scan` is token recognition of the POSIX shell: blanks separate words,
operators stand for themselves, and a backslash, single quotes and double
quotes take the meaning away from what they quote.  It gives words only where
they are literal: a line in which something would be expanded, substituted,
matched against file names or assigned has no reading here, and neither has one
with an open quote or a NUL.  So what is read is read the same way whatever the
environment is.  `andList` reads the tokens as simple commands joined by `&&`;
a reserved word where a command begins has no reading either.
`Spells text word` says that `text` is read as `word` wherever it stands, and a
line of such texts is read chunk by chunk (`scan_line`).

`AppleScript.literal` is the string literal of AppleScript, in which only the
backslash and the double quote are special.
-/

namespace Shell

open ByteStr

/-- The operators between the words of a command line. -/
inductive Op
  | andIf | orIf | semi | doubleSemi | amp | pipe | openParen | closeParen
  | less | great | newline
  deriving DecidableEq, Repr

/-- A word, and whether a part of it was quoted. -/
structure Word where
  text : Bytes
  quoted : Bool
  deriving DecidableEq, Repr

inductive Token
  | word (w : Word)
  | op (o : Op)
  deriving DecidableEq, Repr

/-- A word with a further part. -/
def Word.append (u v : Word) : Word := ⟨u.text ++ v.text, u.quoted || v.quoted⟩

/-- The word that has begun, which is empty where none has. -/
def begun (cur : Option Word) : Word := cur.getD ⟨[], false⟩

theorem Word.append_assoc (u v w : Word) : (u.append v).append w = u.append (v.append w) := by
  simp [Word.append, Bool.or_assoc]

@[simp] theorem begun_some (w : Word) : begun (some w) = w := rfl

@[simp] theorem begun_none_append (w : Word) : (begun none).append w = w := rfl

/-- What has been read immediately before: a backslash (`escaped`, and inside
double quotes `doubleEscaped`), the first byte of a doubled operator (`second`),
or an opening quote that is not closed yet. -/
inductive Mode
  | plain | escaped | second | single | double | doubleEscaped
  deriving DecidableEq, Repr

/-- Space and tab. -/
def isBlank (b : UInt8) : Bool := b = 32 || b = 9

/-- The bytes that outside quotes stand for more than themselves: those that
expand or match (``$ ` * ? [ ] ~ { }``), assign (`=`), comment (`#`) or negate
(`!`). -/
def isActive (b : UInt8) : Bool :=
  b ∈ ([36, 96, 42, 63, 91, 93, 126, 123, 125, 61, 35, 33] : Bytes)

/-- The operator that a byte stands for, alone and doubled. -/
def operator (b : UInt8) : Option (Op × Option Op) :=
  if b = 38 then some (.amp, some .andIf)
  else if b = 124 then some (.pipe, some .orIf)
  else if b = 59 then some (.semi, some .doubleSemi)
  else if b = 40 then some (.openParen, none)
  else if b = 41 then some (.closeParen, none)
  else if b = 60 then some (.less, none)
  else if b = 62 then some (.great, none)
  else if b = 10 then some (.newline, none)
  else none

/-- The word read so far, if one has begun, before the tokens that follow. -/
def flush (cur : Option Word) (tokens : List Token) : List Token :=
  match cur with
  | some w => .word w :: tokens
  | none => tokens

/-- The word read so far with a part after it. -/
def push (cur : Option Word) (part : Bytes) (quoted : Bool) : Option Word :=
  some ((begun cur).append ⟨part, quoted⟩)

@[simp] theorem push_push (cur : Option Word) (a b : Bytes) (q r : Bool) :
    push (push cur a q) b r = push cur (a ++ b) (q || r) := by
  simp [push, Word.append, Bool.or_assoc]

/-- Token recognition. -/
def scan : Mode → Option Word → Bytes → Option (List Token)
  | .plain, cur, [] => some (flush cur [])
  | _, _, [] => none
  | mode, cur, b :: s =>
      if b = 0 then none else
      match mode with
      | .plain =>
          if isBlank b then (scan .plain none s).map (flush cur)
          else if b = 92 then scan .escaped cur s
          else if b = 39 then scan .single (push cur [] true) s
          else if b = 34 then scan .double (push cur [] true) s
          else if isActive b then none
          else match operator b with
            | none => scan .plain (push cur [b] false) s
            | some (o, none) => (scan .plain none s).map fun ts => flush cur (.op o :: ts)
            | some (o, some twice) =>
                if s.head? = some b then
                  (scan .second none s).map fun ts => flush cur (.op twice :: ts)
                else (scan .plain none s).map fun ts => flush cur (.op o :: ts)
      -- a backslash before a newline joins the lines
      | .escaped =>
          if b = 10 then scan .plain cur s else scan .plain (push cur [b] true) s
      | .second => scan .plain cur s
      | .single =>
          if b = 39 then scan .plain cur s else scan .single (push cur [b] true) s
      | .double =>
          if b = 34 then scan .plain cur s
          else if b = 92 then scan .doubleEscaped cur s
          else if b = 36 ∨ b = 96 then none
          else scan .double (push cur [b] true) s
      -- inside double quotes a backslash quotes only what is special there
      | .doubleEscaped =>
          if b = 10 then scan .double cur s
          else if b = 36 ∨ b = 96 ∨ b = 34 ∨ b = 92 then scan .double (push cur [b] true) s
          else scan .double (push cur [92, b] true) s

/-- The words that begin or continue a compound command when they stand
unquoted where a command begins. -/
def reservedWords : List Bytes :=
  [str "if", str "then", str "else", str "elif", str "fi", str "do", str "done", str "case",
    str "esac", str "while", str "until", str "for", str "in"]

/-- A word that can begin a simple command. -/
def Word.beginsCommand (w : Word) : Bool := w.quoted || decide (w.text ∉ reservedWords)

/-- Simple commands joined by `&&`: each is the list of its words. -/
def andList : List Bytes → List Token → Option (List (List Bytes))
  | cur, [] => if cur = [] then none else some [cur]
  | cur, .word w :: ts =>
      if cur = [] ∧ w.beginsCommand = false then none else andList (cur ++ [w.text]) ts
  | cur, .op .andIf :: ts => if cur = [] then none else (andList [] ts).map (cur :: ·)
  | _, .op _ :: _ => none

/-- A command line that is an and-list of simple commands with literal words. -/
def readAndList (s : Bytes) : Option (List (List Bytes)) :=
  (scan .plain none s).bind (andList [])

/-! ## Texts that spell words -/

/-- `text` is read as (a part of) the word `word`, whatever stands before it
and after it. -/
def Spells (text : Bytes) (word : Word) : Prop :=
  ∀ cur rest, scan .plain cur (text ++ rest) = scan .plain (some ((begun cur).append word)) rest

theorem Spells.append {a b : Bytes} {u v : Word} (ha : Spells a u) (hb : Spells b v) :
    Spells (a ++ b) (u.append v) := by
  intro cur rest
  rw [List.append_assoc, ha, hb, begun_some, Word.append_assoc]

/-- A byte that stands for itself outside quotes. -/
def IsPlain (b : UInt8) : Prop :=
  b ≠ 0 ∧ isBlank b = false ∧ b ≠ 92 ∧ b ≠ 39 ∧ b ≠ 34 ∧ isActive b = false ∧ operator b = none

instance (b : UInt8) : Decidable (IsPlain b) := by
  unfold IsPlain; infer_instance

theorem scan_plain {b : UInt8} (h : IsPlain b) (cur : Option Word) (rest : Bytes) :
    scan .plain cur (b :: rest) = scan .plain (push cur [b] false) rest := by
  obtain ⟨hnul, hblank, hescape, hsingle, hdouble, hactive, hop⟩ := h
  simp [scan, hnul, hblank, hescape, hsingle, hdouble, hactive, hop]

/-- Bytes without a meaning of their own spell themselves. -/
theorem spells_plain {w : Bytes} (hne : w ≠ []) (h : ∀ b ∈ w, IsPlain b) :
    Spells w ⟨w, false⟩ := by
  induction w with
  | nil => exact absurd rfl hne
  | cons b w ih =>
      intro cur rest
      rw [List.cons_append, scan_plain (h b List.mem_cons_self)]
      by_cases hw : w = []
      · subst hw
        rfl
      · rw [ih hw fun c hc => h c (List.mem_cons_of_mem b hc)]
        simp [push, Word.append]

/-- A chunk of a line: a text that is read as one token when a blank or the end
of the line follows. -/
structure Chunk (text : Bytes) (token : Token) : Prop where
  before : ∀ rest, scan .plain none (text ++ 32 :: rest) =
    (scan .plain none rest).map (token :: ·)
  last : scan .plain none text = some [token]

/-- The spelling of a word is a chunk of the command line. -/
theorem Spells.chunk {text : Bytes} {word : Word} (h : Spells text word) :
    Chunk text (.word word) := by
  constructor
  · intro rest
    rw [h]
    rfl
  · have hend := h none []
    rw [List.append_nil] at hend
    rw [hend]
    rfl

/-- `&&` between blanks. -/
theorem chunk_andIf : Chunk (str "&&") (.op .andIf) := by
  constructor
  · intro rest
    have hop : str "&&" = [38, 38] := rfl
    have hnone : flush none = id := rfl
    simp [hop, scan, isBlank, isActive, operator, hnone, flush]
  · rfl

/-- **A line is read chunk by chunk.** -/
theorem scan_line {texts : List Bytes} {tokens : List Token} (hne : texts ≠ [])
    (h : List.Forall₂ Chunk texts tokens) :
    scan .plain none ([32].intercalate texts) = some tokens := by
  induction h with
  | nil => exact absurd rfl hne
  | @cons text token texts tokens hchunk hrest ih =>
      cases hrest with
      | nil => simpa using hchunk.last
      | cons hsecond hmore =>
          rw [List.intercalate_cons_cons, List.append_assoc, List.singleton_append, hchunk.before,
            ih (List.cons_ne_nil _ _)]
          rfl

end Shell

namespace AppleScript

open ByteStr

/-- The byte that an escape stands for. -/
def unescape (b : UInt8) : Option UInt8 :=
  if b = 92 then some 92
  else if b = 34 then some 34
  else if b = 110 then some 10
  else if b = 114 then some 13
  else if b = 116 then some 9
  else none

/-- Read a string literal from after its opening quote, or from after a
backslash (`escaped`): its value and what follows its closing quote. -/
def literal (escaped : Bool) (value : Bytes) : Bytes → Option (Bytes × Bytes)
  | [] => none
  | b :: s =>
      if escaped then
        match unescape b with
        | some c => literal false (value ++ [c]) s
        | none => none
      else if b = 34 then some (value, s)
      else if b = 92 then literal true value s
      else literal false (value ++ [b]) s

/-- The command of a program that is one `do shell script` with administrator
privileges, its argument a string literal. -/
def privilegedCommand (s : Bytes) : Option Bytes := do
  let s ← s.dropPrefix? (str "do shell script \"")
  let (command, rest) ← literal false [] s
  if rest = str " with administrator privileges" then some command else none

end AppleScript
